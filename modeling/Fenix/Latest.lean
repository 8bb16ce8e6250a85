import Mathlib.Data.Finset.Max
import Mathlib.Data.Fintype.Basic
import Mathlib.Order.Defs.LinearOrder

/-!
Parties that each hold elements of a linear order, and the latest one that each holds.
-/

variable {ι α : Type} [LinearOrder α]

/-- `x` is the latest element satisfying `P`, if any does. -/
def IsLatest (P : α → Prop) : Option α → Prop
  | none => ∀ t, ¬P t
  | some t => P t ∧ ∀ t', P t' → t' ≤ t

/-- One party alone misses an element. -/
def OneMissing (holds : ι → α → Prop) (t : α) : Prop := ∃ f, ∀ k, ¬holds k t ↔ k = f

/-- What a party holds once each element that one party alone missed has been given to it. -/
def Mended (holds : ι → α → Prop) (k : ι) (t : α) : Prop := holds k t ∨ OneMissing holds t

namespace IsLatest

theorem unique {P : α → Prop} {x y : Option α} (hx : IsLatest P x) (hy : IsLatest P y) : x = y := by
  cases x with
  | none =>
    cases y with
    | none => rfl
    | some t => exact absurd hy.1 (hx t)
  | some s =>
    cases y with
    | none => exact absurd hx.1 (hy s)
    | some t => rw [le_antisymm (hy.2 s hx.1) (hx.2 t hy.1)]

end IsLatest

/-- Parties agree on the latest element they hold exactly when each holds the latest that any holds. -/
theorem latest_agree_iff [Fintype ι] {P : ι → α → Prop} {latest : ι → Option α}
    (h : ∀ k, IsLatest (P k) (latest k)) : (∀ k l, latest k = latest l) ↔
      ∀ t, (∃ k, P k t) → (∀ t', t < t' → ∀ k, ¬P k t') → ∀ k, P k t := by
  constructor
  · rintro hagree t ⟨k, hk⟩ hmax l
    have hlast := h k
    cases hl : latest k with
    | none =>
      rw [hl] at hlast
      exact absurd hk (hlast t)
    | some s =>
      rw [hl] at hlast
      have hts : t = s := by
        refine le_antisymm (hlast.2 t hk) (not_lt.mp fun hlt => ?_)
        exact hmax s hlt k hlast.1
      have hother := h l
      rw [hagree l k, hl, ← hts] at hother
      exact hother.1
  · intro hall
    -- the latest element of all, if there is one, is the latest of each
    by_cases hex : ∃ k t, latest k = some t
    · obtain ⟨k₀, t₀, h₀⟩ := hex
      obtain ⟨m, _, hm⟩ := Finset.exists_max_image Finset.univ (fun k => (latest k).getD t₀) ⟨k₀, Finset.mem_univ k₀⟩
      have hheld : ∀ k t, P k t → t ≤ (latest m).getD t₀ := by
        intro k t hk
        have hlast := h k
        cases hl : latest k with
        | none =>
          rw [hl] at hlast
          exact absurd hk (hlast t)
        | some s =>
          rw [hl] at hlast
          have hle := hm k (Finset.mem_univ k)
          rw [hl] at hle
          exact le_trans (hlast.2 t hk) hle
      have hsome : ∃ k, P k ((latest m).getD t₀) := by
        have hlast := h m
        cases hl : latest m with
        | some s =>
          rw [hl] at hlast
          exact ⟨m, hlast.1⟩
        | none =>
          have hlast₀ := h k₀
          rw [h₀] at hlast₀
          exact ⟨k₀, hlast₀.1⟩
      have heach := hall _ hsome fun t' hlt k hk => absurd (hheld k t' hk) (not_le.mpr hlt)
      intro k l
      have hk : IsLatest (P k) (some ((latest m).getD t₀)) := ⟨heach k, hheld k⟩
      have hl : IsLatest (P l) (some ((latest m).getD t₀)) := ⟨heach l, hheld l⟩
      rw [(h k).unique hk, (h l).unique hl]
    · have hnone : ∀ k, latest k = none := by
        intro k
        cases hl : latest k with
        | none => rfl
        | some t => exact absurd ⟨k, t, hl⟩ hex
      intro k l
      rw [hnone k, hnone l]

section Mended

variable [Fintype ι] [Nontrivial ι] {holds : ι → α → Prop} {t : α}

omit [LinearOrder α] [Fintype ι] in
theorem exists_mended_iff : (∃ k, Mended holds k t) ↔ ∃ k, holds k t := by
  constructor
  · rintro ⟨k, hk | ⟨f, hf⟩⟩
    · exact ⟨k, hk⟩
    · obtain ⟨l, hl⟩ := exists_ne f
      exact ⟨l, not_not.mp fun hn => hl ((hf l).mp hn)⟩
  · rintro ⟨k, hk⟩
    exact ⟨k, Or.inl hk⟩

omit [LinearOrder α] [Fintype ι] [Nontrivial ι] in
/-- All hold an element after the mending if at most one missed it before. -/
theorem forall_mended_iff : (∀ k, Mended holds k t) ↔ ∀ k l, ¬holds k t → ¬holds l t → k = l := by
  constructor
  · intro h k l hk hl
    rcases h k with hk' | ⟨f, hf⟩
    · exact absurd hk' hk
    · exact ((hf k).mp hk).trans ((hf l).mp hl).symm
  · intro h k
    by_cases hk : holds k t
    · exact Or.inl hk
    · refine Or.inr ⟨k, fun l => ⟨fun hl => h l k hl hk, ?_⟩⟩
      rintro rfl
      exact hk

/-- After the mending parties agree on the latest element exactly when at most one missed it before. -/
theorem mended_agree_iff {latest : ι → Option α} (h : ∀ k, IsLatest (Mended holds k) (latest k)) :
    (∀ k l, latest k = latest l) ↔
      ∀ t, (∃ k, holds k t) → (∀ t', t < t' → ∀ k, ¬holds k t') → ∀ k l, ¬holds k t → ¬holds l t → k = l := by
  rw [latest_agree_iff h]
  have hnone : ∀ t', (∀ k, ¬Mended holds k t') ↔ ∀ k, ¬holds k t' := by
    intro t'
    rw [← not_exists, ← not_exists, exists_mended_iff]
  simp only [exists_mended_iff, forall_mended_iff, hnone]

end Mended
