namespace Fenix

/-- How a piece of code is left. A long jump and the end of the process leave the frames under way as they are. -/
inductive FrameExit where
  | done
  | commException
  | runtimeException
  | jumped
  | terminated
  deriving DecidableEq

/-- The frames that are left are unwound, so that destructors run. -/
def FrameExit.unwinds : FrameExit → Bool
  | .jumped | .terminated => false
  | .done | .commException | .runtimeException => true

/-- A piece of code on states of a kind. -/
abbrev Frame (σ : Type) := σ → FrameExit × σ

namespace Frame

variable {σ : Type}

def skip : Frame σ := fun s => (.done, s)

def throw (x : FrameExit) : Frame σ := fun s => (x, s)

def modify (f : σ → σ) : Frame σ := fun s => (.done, f s)

def seq (first next : Frame σ) : Frame σ := fun s =>
  match first s with
  | (.done, s) => next s
  | r => r

/-- A handler for one kind of exception. -/
def catchComm (body handler : Frame σ) : Frame σ := fun s =>
  match body s with
  | (.commException, s) => handler s
  | r => r

/-- The scope of an object on the stack. Its destructor runs if the frame is unwound and the library is still there, and
an exception in the destructor ends the process. -/
def guarded (live : σ → Bool) (enter : σ → σ) (leave : σ → σ → Option σ) (body : Frame σ) : Frame σ := fun s =>
  if live s then
    let (x, s') := body (enter s)
    if x.unwinds && live s' then
      match leave s s' with
      | some s'' => (x, s'')
      | none => (.terminated, s')
    else (x, s')
  else (.runtimeException, s)

/-- A frame takes states that have a property to states that have it. -/
def Keeps (f : Frame σ) (P : σ → Prop) : Prop := ∀ s, P s → P (f s).2

/-- A frame that begins with a property ends with it, and is not left by a jump. -/
def Stays (f : Frame σ) (P : σ → Prop) : Prop := ∀ s, P s → (f s).1 ≠ .jumped ∧ P (f s).2

variable {P : σ → Prop} {f g : Frame σ} {live : σ → Bool} {enter : σ → σ} {leave : σ → σ → Option σ} {s : σ}

theorem seq_cases (f g : Frame σ) (s : σ) :
    (f s).1 = .done ∧ seq f g s = g (f s).2 ∨ (f s).1 ≠ .done ∧ seq f g s = f s := by
  unfold seq
  generalize f s = r
  obtain ⟨x, s'⟩ := r
  cases x with
  | done => exact Or.inl ⟨rfl, rfl⟩
  | commException => exact Or.inr ⟨nofun, rfl⟩
  | runtimeException => exact Or.inr ⟨nofun, rfl⟩
  | jumped => exact Or.inr ⟨nofun, rfl⟩
  | terminated => exact Or.inr ⟨nofun, rfl⟩

theorem seq_done {s' : σ} (h : f s = (.done, s')) : seq f g s = g s' := by
  unfold seq
  rw [h]

@[simp] theorem seq_modify (m : σ → σ) (g : Frame σ) (s : σ) : seq (modify m) g s = g (m s) := rfl

theorem catchComm_cases (f g : Frame σ) (s : σ) :
    (f s).1 = .commException ∧ catchComm f g s = g (f s).2 ∨ (f s).1 ≠ .commException ∧ catchComm f g s = f s := by
  unfold catchComm
  generalize f s = r
  obtain ⟨x, s'⟩ := r
  cases x with
  | done => exact Or.inr ⟨nofun, rfl⟩
  | commException => exact Or.inl ⟨rfl, rfl⟩
  | runtimeException => exact Or.inr ⟨nofun, rfl⟩
  | jumped => exact Or.inr ⟨nofun, rfl⟩
  | terminated => exact Or.inr ⟨nofun, rfl⟩

/-- What a scope comes to: the library is not there, the frame is left without unwinding, the destructor runs, or it
ends the process. -/
theorem guarded_cases (live : σ → Bool) (enter : σ → σ) (leave : σ → σ → Option σ) (f : Frame σ) (s : σ) :
    (live s = false ∧ guarded live enter leave f s = (.runtimeException, s)) ∨
    (live s = true ∧
      (((f (enter s)).1.unwinds && live (f (enter s)).2) = false ∧ guarded live enter leave f s = f (enter s) ∨
      (f (enter s)).1.unwinds = true ∧ live (f (enter s)).2 = true ∧
        ((∃ s', leave s (f (enter s)).2 = some s' ∧ guarded live enter leave f s = ((f (enter s)).1, s')) ∨
          leave s (f (enter s)).2 = none ∧ guarded live enter leave f s = (.terminated, (f (enter s)).2)))) := by
  unfold guarded
  cases hlive : live s with
  | false => exact Or.inl ⟨rfl, if_neg nofun⟩
  | true =>
    refine Or.inr ⟨rfl, ?_⟩
    rw [if_pos rfl]
    generalize f (enter s) = r
    obtain ⟨x, s'⟩ := r
    dsimp only
    cases hrun : x.unwinds && live s' with
    | false => exact Or.inl ⟨rfl, if_neg nofun⟩
    | true =>
      obtain ⟨hunwinds, hthere⟩ := Bool.and_eq_true_iff.mp hrun
      rw [if_pos rfl]
      cases hleave : leave s s' with
      | some s'' => exact Or.inr ⟨hunwinds, hthere, Or.inl ⟨s'', rfl, rfl⟩⟩
      | none => exact Or.inr ⟨hunwinds, hthere, Or.inr ⟨rfl, rfl⟩⟩

theorem Keeps.seq (hf : f.Keeps P) (hg : g.Keeps P) : (seq f g).Keeps P := by
  intro s hs
  rcases seq_cases f g s with ⟨_, heq⟩ | ⟨_, heq⟩
  · exact heq ▸ hg _ (hf s hs)
  · exact heq ▸ hf s hs

theorem Keeps.catchComm (hf : f.Keeps P) (hg : g.Keeps P) : (catchComm f g).Keeps P := by
  intro s hs
  rcases catchComm_cases f g s with ⟨_, heq⟩ | ⟨_, heq⟩
  · exact heq ▸ hg _ (hf s hs)
  · exact heq ▸ hf s hs

theorem Keeps.guarded (hf : f.Keeps P) (henter : ∀ s, P s → P (enter s))
    (hleave : ∀ s s' s'', P s → P s' → leave s s' = some s'' → P s'') : (guarded live enter leave f).Keeps P := by
  intro s hs
  have hbody := hf (enter s) (henter s hs)
  rcases guarded_cases live enter leave f s with
    ⟨_, heq⟩ | ⟨_, ⟨_, heq⟩ | ⟨_, _, ⟨s', hs', heq⟩ | ⟨_, heq⟩⟩⟩
  · exact heq ▸ hs
  · exact heq ▸ hbody
  · exact heq ▸ hleave s _ s' hs hbody hs'
  · exact heq ▸ hbody

theorem Stays.seq (hf : f.Stays P) (hg : g.Stays P) : (seq f g).Stays P := by
  intro s hs
  rcases seq_cases f g s with ⟨_, heq⟩ | ⟨_, heq⟩
  · exact heq ▸ hg _ (hf s hs).2
  · exact heq ▸ hf s hs

theorem Stays.catchComm (hf : f.Stays P) (hg : g.Stays P) : (catchComm f g).Stays P := by
  intro s hs
  rcases catchComm_cases f g s with ⟨_, heq⟩ | ⟨_, heq⟩
  · exact heq ▸ hg _ (hf s hs).2
  · exact heq ▸ hf s hs

/-- A scope in which a property holds, as before and after it. -/
theorem Stays.guarded {Q : σ → Prop} (hf : f.Stays Q) (henter : ∀ s, P s → Q (enter s))
    (hleave : ∀ s s' s'', P s → Q s' → leave s s' = some s'' → P s'')
    (hdead : ∀ s s', P s → Q s' → P s') : (guarded live enter leave f).Stays P := by
  intro s hs
  have hbody := hf (enter s) (henter s hs)
  rcases guarded_cases live enter leave f s with
    ⟨_, heq⟩ | ⟨_, ⟨_, heq⟩ | ⟨_, _, ⟨s', hs', heq⟩ | ⟨_, heq⟩⟩⟩
  · exact heq ▸ ⟨nofun, hs⟩
  · exact heq ▸ ⟨hbody.1, hdead s _ hs hbody.2⟩
  · exact heq ▸ ⟨hbody.1, hleave s _ s' hs hbody.2 hs'⟩
  · exact heq ▸ ⟨nofun, hdead s _ hs hbody.2⟩

end Frame

end Fenix
