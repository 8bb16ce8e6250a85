import Mathlib.Data.Fin.Tuple.Basic
import Mathlib.Data.List.Forall2

theorem Except.bind_eq_ok_iff {ε α β : Type} {x : Except ε α} {f : α → Except ε β} {b : β} :
    (x >>= f) = .ok b ↔ ∃ a, x = .ok a ∧ f a = .ok b := by
  constructor
  · intro h
    cases x with
    | error e => cases h
    | ok a => exact ⟨a, rfl, h⟩
  · rintro ⟨a, rfl, h⟩
    exact h

theorem Except.ok_bind {ε α β : Type} (a : α) (f : α → Except ε β) : (Except.ok a >>= f) = f a := rfl

theorem Except.map_eq_ok_iff {ε α β : Type} {x : Except ε α} {f : α → β} {b : β} :
    x.map f = .ok b ↔ ∃ a, x = .ok a ∧ f a = b := by
  cases x with
  | error e => simp [Except.map]
  | ok a => simp [Except.map]

/-- A step with a guard leaves the state as it is, or it is taken. -/
theorem Except.guarded_cases {ε σ : Type} {c : Prop} [Decidable c] {x : Except ε σ} {s t : σ}
    (h : (if c then x else .ok s) = .ok t) : t = s ∨ c ∧ x = .ok t := by
  split at h
  next hc => exact Or.inr ⟨hc, h⟩
  next => exact Or.inl (Except.ok.inj h).symm

theorem Except.map_ok_exists_iff {ε α β : Type} {x : Except ε α} {f : α → β} :
    (∃ b, x.map f = .ok b) ↔ ∃ a, x = .ok a :=
  ⟨fun ⟨_, h⟩ => (Except.map_eq_ok_iff.mp h).imp fun _ ha => ha.1,
    fun ⟨a, h⟩ => ⟨f a, Except.map_eq_ok_iff.mpr ⟨a, h, rfl⟩⟩⟩

theorem List.mapM_eq_ok_iff {ε α β : Type} {f : α → Except ε β} {xs : List α} {ys : List β} :
    xs.mapM f = .ok ys ↔ List.Forall₂ (fun x y => f x = .ok y) xs ys := by
  induction xs generalizing ys with
  | nil =>
    rw [List.mapM_nil]
    constructor
    · intro h
      cases Except.ok.inj h
      exact List.Forall₂.nil
    · intro h
      cases h
      rfl
  | cons x xs ih =>
    rw [List.mapM_cons]
    constructor
    · intro h
      cases hx : f x with
      | error e => rw [hx] at h; cases h
      | ok y =>
        cases hxs : xs.mapM f with
        | error e => rw [hx, hxs] at h; cases h
        | ok zs =>
          rw [hx, hxs] at h
          cases Except.ok.inj h
          exact List.Forall₂.cons hx (ih.mp hxs)
    · intro h
      cases h with
      | cons hx hxs => rw [hx, ih.mpr hxs]; rfl

theorem List.mapM_ok_exists_iff {ε α β : Type} {f : α → Except ε β} {xs : List α} :
    (∃ ys, xs.mapM f = .ok ys) ↔ ∀ x ∈ xs, ∃ y, f x = .ok y := by
  induction xs with
  | nil => exact ⟨fun _ _ h => absurd h List.not_mem_nil, fun _ => ⟨[], rfl⟩⟩
  | cons x xs ih =>
    simp only [List.mapM_eq_ok_iff, List.forall_mem_cons] at ih ⊢
    constructor
    · rintro ⟨_, hy⟩
      cases hy with
      | cons hx hxs => exact ⟨⟨_, hx⟩, ih.mp ⟨_, hxs⟩⟩
    · rintro ⟨⟨y, hx⟩, hxs⟩
      obtain ⟨ys, hys⟩ := ih.mpr hxs
      exact ⟨y :: ys, hys.cons hx⟩

theorem List.forall₂_imp_of_mem_left {α β : Type} {R S : α → β → Prop} {xs : List α} {ys : List β}
    (h : List.Forall₂ R xs ys) (hi : ∀ x ∈ xs, ∀ y, R x y → S x y) : List.Forall₂ S xs ys := by
  induction h with
  | nil => exact List.Forall₂.nil
  | cons hxy _ ih =>
    refine List.Forall₂.cons (hi _ List.mem_cons_self _ hxy) (ih fun x hx => ?_)
    exact hi x (List.mem_cons_of_mem _ hx)

/-- All results, if there is one at every place. -/
def Except.sequence {ε α : Type} : {n : Nat} → (Fin n → Except ε α) → Except ε (Fin n → α)
  | 0, _ => .ok Fin.elim0
  | _ + 1, f => do
    let a ← f 0
    let g ← Except.sequence fun k => f k.succ
    return Fin.cons a g

theorem Except.sequence_eq_ok_iff {ε α : Type} {n : Nat} {f : Fin n → Except ε α} {g : Fin n → α} :
    Except.sequence f = .ok g ↔ ∀ k, f k = .ok (g k) := by
  induction n with
  | zero => exact ⟨fun _ k => k.elim0, fun _ => congrArg Except.ok (funext fun k => k.elim0)⟩
  | succ n ih =>
    constructor
    · intro h
      obtain ⟨a, ha, h⟩ := Except.bind_eq_ok_iff.mp h
      obtain ⟨g', hg, h⟩ := Except.bind_eq_ok_iff.mp h
      cases Except.ok.inj h
      refine Fin.cases ha fun k => ?_
      exact ih.mp hg k
    · intro h
      have htail := ih.mpr fun k : Fin n => h k.succ
      refine Except.bind_eq_ok_iff.mpr ⟨g 0, h 0, Except.bind_eq_ok_iff.mpr ⟨_, htail, ?_⟩⟩
      exact congrArg Except.ok (Fin.cons_self_tail g)

theorem List.mapM_ok_of_forall {ε α β : Type} {f : α → Except ε β} {xs : List α}
    (h : ∀ x ∈ xs, ∃ y, f x = .ok y) : ∃ ys, xs.mapM f = .ok ys ∧ ∀ y, y ∈ ys ↔ ∃ x ∈ xs, f x = .ok y := by
  obtain ⟨ys, hys⟩ := List.mapM_ok_exists_iff.mpr h
  refine ⟨ys, hys, fun y => ?_⟩
  induction List.mapM_eq_ok_iff.mp hys with
  | nil => simp
  | cons hx hxs ih =>
    have hmem := ih (fun x hx => h x (List.mem_cons_of_mem _ hx)) (List.mapM_eq_ok_iff.mpr hxs)
    rw [List.mem_cons, hmem, List.exists_mem_cons_iff, hx, Except.ok.injEq, eq_comm]

theorem List.foldlM_map_ok {ε α σ γ : Type} {f : α → Except ε γ} {g : α → γ} {h : σ → γ → σ} {xs : List α} {s : σ}
    (hf : ∀ x ∈ xs, f x = .ok (g x)) :
    xs.foldlM (fun s x => (f x).map (h s)) s = .ok (xs.foldl (fun s x => h s (g x)) s) := by
  induction xs generalizing s with
  | nil => rfl
  | cons x xs ih =>
    rw [List.foldlM_cons, hf x List.mem_cons_self]
    exact ih fun y hy => hf y (List.mem_cons_of_mem _ hy)
