import Mathlib.Data.List.Basic

/-- Receives complete in order, each with the first message it accepts that no earlier one has taken;
`rest` is what they leave. -/
def Receives {ρ μ : Type} (accepts : ρ → μ → Bool) : List (ρ × μ) → List μ → List μ → Prop
  | [], ms, rest => rest = ms
  | (r, m) :: got, ms, rest => ms.find? (accepts r) = some m ∧ Receives accepts got (ms.eraseP (accepts r)) rest

namespace Receives

variable {ρ μ : Type} {accepts : ρ → μ → Bool}

theorem find?_append_of_some {p : μ → Bool} {ms : List μ} {m : μ} (h : ms.find? p = some m) (ns : List μ) :
    (ms ++ ns).find? p = some m := by
  rw [List.find?_append, h, Option.some_or]

theorem eraseP_append_of_some {p : μ → Bool} {ms : List μ} {m : μ} (h : ms.find? p = some m) (ns : List μ) :
    (ms ++ ns).eraseP p = ms.eraseP p ++ ns :=
  List.eraseP_append_left (List.find?_some h) ns (List.mem_of_find?_eq_some h)

/-- Messages sent later do not change what has been received. -/
theorem append_messages {got : List (ρ × μ)} {ms rest : List μ} (h : Receives accepts got ms rest) (ns : List μ) :
    Receives accepts got (ms ++ ns) (rest ++ ns) := by
  induction got generalizing ms with
  | nil => exact congrArg (· ++ ns) h
  | cons rm got ih =>
    obtain ⟨hfound, hgot⟩ := h
    refine ⟨find?_append_of_some hfound ns, ?_⟩
    rw [eraseP_append_of_some hfound]
    exact ih hgot

/-- One more receive completes. -/
theorem concat {got : List (ρ × μ)} {ms rest : List μ} (h : Receives accepts got ms rest) {r : ρ} {m : μ}
    (hm : rest.find? (accepts r) = some m) :
    Receives accepts (got ++ [(r, m)]) ms (rest.eraseP (accepts r)) := by
  induction got generalizing ms with
  | nil =>
    cases h
    exact ⟨hm, rfl⟩
  | cons rm got ih => exact ⟨h.1, ih h.2⟩

end Receives
