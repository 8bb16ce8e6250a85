import Fenix.Fallible

/-- A fallible reader from the front of a stream. -/
def Reader (τ ε α : Type) := List τ → Except ε (α × List τ)

namespace Reader

variable {τ ε α β : Type}

def pure (x : α) : Reader τ ε α := fun ts => .ok (x, ts)

def fail (e : ε) : Reader τ ε α := fun _ => .error e

def bind (r : Reader τ ε α) (f : α → Reader τ ε β) : Reader τ ε β := fun ts =>
  match r ts with
  | .error e => .error e
  | .ok (x, rest) => f x rest

def lift (x : Except ε α) : Reader τ ε α := fun ts => x.map fun a => (a, ts)

instance : Monad (Reader τ ε) where
  pure := pure
  bind := bind

/-- Read `n` values one after another. -/
def count (r : Reader τ ε α) : Nat → Reader τ ε (List α)
  | 0 => pure []
  | n + 1 => r.bind fun x => (count r n).bind fun xs => pure (x :: xs)

/-- Whatever follows, the reader takes exactly `enc` off the stream and yields `x`. -/
def Reads (r : Reader τ ε α) (enc : List τ) (x : α) : Prop := ∀ rest, r (enc ++ rest) = .ok (x, rest)

theorem reads_pure (x : α) : (pure x : Reader τ ε α).Reads [] x := fun _ => rfl

theorem reads_lift {y : Except ε α} {x : α} (h : y = .ok x) : (lift y : Reader τ ε α).Reads [] x := by
  intro rest
  rw [h]
  rfl

theorem reads_bind {r : Reader τ ε α} {f : α → Reader τ ε β} {e₁ e₂ : List τ} {x : α} {y : β}
    (hr : r.Reads e₁ x) (hf : (f x).Reads e₂ y) : (r >>= f).Reads (e₁ ++ e₂) y := by
  intro rest
  change bind r f _ = _
  rw [List.append_assoc, bind, hr]
  exact hf rest

/-- The last step of a reader takes nothing off the stream. -/
theorem reads_bind_last {r : Reader τ ε α} {f : α → Reader τ ε β} {e : List τ} {x : α} {y : β}
    (hr : r.Reads e x) (hf : (f x).Reads [] y) : (r >>= f).Reads e y := by
  have h := reads_bind hr hf
  rwa [List.append_nil] at h

theorem reads_count {r : Reader τ ε α} {enc : α → List τ} {xs : List α}
    (h : ∀ x ∈ xs, r.Reads (enc x) x) : (r.count xs.length).Reads (xs.flatMap enc) xs := by
  induction xs with
  | nil => exact reads_pure []
  | cons x xs ih =>
    rw [List.flatMap_cons]
    refine reads_bind (h x List.mem_cons_self) (reads_bind_last ?_ (reads_pure _))
    exact ih fun y hy => h y (List.mem_cons_of_mem _ hy)

/-- Of streams shorter than `n`, the reader takes exactly `enc` off the front of one that has it there and yields
`x`, and fails with `e` on one that breaks off within it. -/
def Parses (r : Reader τ ε α) (n : Nat) (enc : List τ) (x : α) (e : ε) : Prop :=
  (∀ rest, (enc ++ rest).length < n → r (enc ++ rest) = .ok (x, rest)) ∧
    ∀ ts, ts.length < n → ts <+: enc → ts ≠ enc → r ts = .error e

theorem parses_zero (r : Reader τ ε α) (enc : List τ) (x : α) (e : ε) : r.Parses 0 enc x e :=
  ⟨fun _ h => absurd h (Nat.not_lt_zero _), fun _ h => absurd h (Nat.not_lt_zero _)⟩

theorem parses_pure (n : Nat) (x : α) (e : ε) : (pure x : Reader τ ε α).Parses n [] x e :=
  ⟨fun _ _ => rfl, fun _ _ h hne => absurd (List.prefix_nil.mp h) hne⟩

theorem parses_lift {y : Except ε α} {x : α} (n : Nat) (e : ε) (h : y = .ok x) :
    (lift y : Reader τ ε α).Parses n [] x e := by
  refine ⟨fun _ _ => ?_, fun _ _ h hne => absurd (List.prefix_nil.mp h) hne⟩
  rw [h]
  rfl

/-- What the first reader takes makes the stream of the second that much shorter. -/
theorem parses_bind {r : Reader τ ε α} {f : α → Reader τ ε β} {m n : Nat} {e₁ e₂ : List τ} {x : α} {y : β} {e : ε}
    (hle : n ≤ e₁.length + m) (hr : r.Parses n e₁ x e) (hf : (f x).Parses m e₂ y e) :
    (r >>= f).Parses n (e₁ ++ e₂) y e := by
  constructor
  · intro rest hlt
    rw [List.append_assoc] at hlt ⊢
    change bind r f _ = _
    rw [bind, hr.1 _ hlt]
    refine hf.1 rest ?_
    rw [List.length_append] at hlt
    omega
  · intro ts hlt hts hne
    change bind r f _ = _
    by_cases hwhole : e₁ <+: ts
    · obtain ⟨rest, rfl⟩ := hwhole
      rw [bind, hr.1 _ hlt]
      rw [List.length_append] at hlt
      refine hf.2 rest (by omega) ((List.prefix_append_right_inj e₁).mp hts) fun h => hne ?_
      rw [h]
    · have hts' : ts <+: e₁ := (List.prefix_or_prefix_of_prefix hts (List.prefix_append e₁ e₂)).resolve_right hwhole
      have hne' : ts ≠ e₁ := fun h => hwhole (h ▸ List.prefix_refl e₁)
      rw [bind, hr.2 ts hlt hts' hne']

theorem parses_seq {r : Reader τ ε α} {f : α → Reader τ ε β} {n : Nat} {e₁ e₂ : List τ} {x : α} {y : β} {e : ε}
    (hr : r.Parses n e₁ x e) (hf : (f x).Parses n e₂ y e) : (r >>= f).Parses n (e₁ ++ e₂) y e :=
  parses_bind (Nat.le_add_left n _) hr hf

theorem parses_bind_last {r : Reader τ ε α} {f : α → Reader τ ε β} {n : Nat} {enc : List τ} {x : α} {y : β} {e : ε}
    (hr : r.Parses n enc x e) (hf : (f x).Parses n [] y e) : (r >>= f).Parses n enc y e := by
  have h := parses_seq hr hf
  rwa [List.append_nil] at h

theorem parses_count {r : Reader τ ε α} {n : Nat} {enc : α → List τ} {xs : List α} {e : ε}
    (h : ∀ x ∈ xs, r.Parses n (enc x) x e) : (r.count xs.length).Parses n (xs.flatMap enc) xs e := by
  induction xs with
  | nil => exact parses_pure n [] e
  | cons x xs ih =>
    rw [List.flatMap_cons]
    refine parses_seq (h x List.mem_cons_self) (parses_bind_last ?_ (parses_pure n _ e))
    exact ih fun y hy => h y (List.mem_cons_of_mem _ hy)

end Reader
