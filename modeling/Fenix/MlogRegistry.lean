import Mathlib.Data.List.Nodup
import Mathlib.Logic.Function.Basic

namespace Fenix

/-- Why an operation on message logs is refused. -/
inductive MlogError where
  | libraryUnavailable
  | mlogExists
  | invalidMlogid
  deriving DecidableEq

/-- The id that stands for no log. -/
def mlogNone : Int := -1

/-- The message logs of a process. A log is known by the number of those that were made before it. -/
structure MlogRegistry where
  overloadsLinked : Bool
  mlogs : Int → Option Nat
  mlogOrder : List Int
  activeMlog : Option Nat
  activeMlogId : Int
  made : Nat

/-- The operations on message logs, as far as they concern which logs there are. -/
inductive MlogOp where
  | create (id : Int)
  | activate (id : Int)
  | activateRegion (id : Int)
  | beginRegion (id : Int)
  | sync (id : Int)
  | delete (id : Int)
  | restore (id : Int)
  deriving DecidableEq

/-- An operation that is to make a log active. -/
def MlogOp.Activates : MlogOp → Prop
  | .activate id | .activateRegion id => id ≠ mlogNone
  | .create _ | .beginRegion _ | .sync _ | .delete _ | .restore _ => False

namespace MlogRegistry

def searchMlog (r : MlogRegistry) (id : Int) : Option Nat := r.mlogs id

def create (r : MlogRegistry) (id : Int) : Option MlogError × MlogRegistry :=
  if !r.overloadsLinked then (some .libraryUnavailable, r)
  else
    match r.searchMlog id with
    | some _ => (some .mlogExists, { r with made := r.made + 1 })
    | none =>
      (none, { r with
        mlogs := Function.update r.mlogs id (some r.made)
        mlogOrder := r.mlogOrder ++ [id]
        made := r.made + 1 })

def deactivate (r : MlogRegistry) : MlogRegistry := { r with activeMlog := none, activeMlogId := mlogNone }

/-- No log is active first, so that an error leaves none active. -/
def activate (r : MlogRegistry) (id : Int) : Option MlogError × MlogRegistry :=
  if id = mlogNone then (none, r.deactivate)
  else
    match r.searchMlog id with
    | none => (some .invalidMlogid, r.deactivate)
    | some log => (none, { r with activeMlog := some log, activeMlogId := id })

def findMlog (r : MlogRegistry) (id : Int) : Option MlogError × MlogRegistry :=
  match r.searchMlog id with
  | none => (some .invalidMlogid, r)
  | some _ => (none, r)

def activateRegion (r : MlogRegistry) (id : Int) : Option MlogError × MlogRegistry :=
  if id = mlogNone then (some .invalidMlogid, r)
  else
    match r.activate id with
    | (some e, r) => (some e, r)
    | (none, r) => r.findMlog id

def mlogDelete (r : MlogRegistry) (id : Int) : MlogRegistry :=
  let r := if r.activeMlogId = id then r.deactivate else r
  { r with mlogs := Function.update r.mlogs id none, mlogOrder := r.mlogOrder.erase id }

/-- The data member of a log is loaded: a new log takes the place of the old one. -/
def restore (r : MlogRegistry) (id : Int) : Option MlogError × MlogRegistry :=
  match r.searchMlog id with
  | none => (some .invalidMlogid, r)
  | some log =>
    (none, { r with
      mlogs := Function.update r.mlogs id (some r.made)
      activeMlog := if r.activeMlog = some log then some r.made else r.activeMlog
      made := r.made + 1 })

def step (r : MlogRegistry) : MlogOp → Option MlogError × MlogRegistry
  | .create id => r.create id
  | .activate id => r.activate id
  | .activateRegion id => r.activateRegion id
  | .beginRegion id => r.findMlog id
  | .sync id => r.findMlog id
  | .delete id => (none, r.mlogDelete id)
  | .restore id => r.restore id

/-- No logs have been made yet. -/
def empty (overloadsLinked : Bool) : MlogRegistry := ⟨overloadsLinked, fun _ => none, [], none, mlogNone, 0⟩

/-- The active log is the one that has the active id, and the order lists each log once. -/
structure Coherent (r : MlogRegistry) : Prop where
  inactive : r.activeMlogId = mlogNone → r.activeMlog = none
  active : r.activeMlogId ≠ mlogNone → r.activeMlog.isSome ∧ r.mlogs r.activeMlogId = r.activeMlog
  order : r.mlogOrder.Nodup
  listed : ∀ id, id ∈ r.mlogOrder ↔ (r.mlogs id).isSome
  made : ∀ id log, r.mlogs id = some log → log < r.made
  distinct : ∀ id id' log, r.mlogs id = some log → r.mlogs id' = some log → id = id'

variable {r : MlogRegistry} {id : Int}

theorem empty_coherent (overloadsLinked : Bool) : (empty overloadsLinked).Coherent where
  inactive _ := rfl
  active h := absurd rfl h
  order := List.nodup_nil
  listed _ := ⟨fun h => absurd h List.not_mem_nil, nofun⟩
  made _ _ := nofun
  distinct _ _ _ := nofun

theorem Coherent.deactivate (h : r.Coherent) : r.deactivate.Coherent where
  inactive _ := rfl
  active hne := absurd rfl hne
  order := h.order
  listed := h.listed
  made := h.made
  distinct := h.distinct

theorem Coherent.more (h : r.Coherent) : ({ r with made := r.made + 1 } : MlogRegistry).Coherent :=
  ⟨h.inactive, h.active, h.order, h.listed, fun id log hlog => Nat.lt_succ_of_lt (h.made id log hlog), h.distinct⟩

theorem mlogs_update {mlogs : Int → Option Nat} {id' : Int} {new log : Nat}
    (h : Function.update mlogs id (some new) id' = some log) : id' = id ∧ log = new ∨ mlogs id' = some log := by
  by_cases hid : id' = id
  · subst hid
    rw [Function.update_self] at h
    exact Or.inl ⟨rfl, (Option.some.inj h).symm⟩
  · rw [Function.update_of_ne hid] at h
    exact Or.inr h

theorem Coherent.made_update (h : r.Coherent) (id : Int) :
    ∀ id' log, Function.update r.mlogs id (some r.made) id' = some log → log < r.made + 1 := by
  intro id' log hlog
  rcases mlogs_update hlog with ⟨_, rfl⟩ | hold
  · exact Nat.lt_succ_self _
  · exact Nat.lt_succ_of_lt (h.made id' log hold)

/-- A new log has no other id. -/
theorem Coherent.distinct_update (h : r.Coherent) (id : Int) : ∀ id₁ id₂ log,
    Function.update r.mlogs id (some r.made) id₁ = some log →
    Function.update r.mlogs id (some r.made) id₂ = some log → id₁ = id₂ := by
  intro id₁ id₂ log h₁ h₂
  rcases mlogs_update h₁ with ⟨rfl, rfl⟩ | hold₁
  · rcases mlogs_update h₂ with ⟨rfl, _⟩ | hold₂
    · rfl
    · exact absurd (h.made _ _ hold₂) (Nat.lt_irrefl _)
  · rcases mlogs_update h₂ with ⟨_, rfl⟩ | hold₂
    · exact absurd (h.made _ _ hold₁) (Nat.lt_irrefl _)
    · exact h.distinct id₁ id₂ log hold₁ hold₂

theorem Coherent.create (h : r.Coherent) (id : Int) : (r.create id).2.Coherent := by
  unfold MlogRegistry.create searchMlog
  split
  next => exact h
  next =>
    split
    next => exact h.more
    next hnew =>
      refine ⟨h.inactive, fun hne => ?_, ?_, fun id' => ?_, h.made_update id, h.distinct_update id⟩
      · obtain ⟨hsome, heq⟩ := h.active hne
        have hother : r.activeMlogId ≠ id := by
          rintro rfl
          rw [hnew] at heq
          rw [← heq] at hsome
          cases hsome
        exact ⟨hsome, (Function.update_of_ne hother _ _).trans heq⟩
      · refine List.nodup_append.mpr ⟨h.order, List.nodup_singleton id, fun x hx y hy heq => ?_⟩
        rw [List.mem_singleton] at hy
        subst heq hy
        rw [h.listed, hnew] at hx
        cases hx
      · change id' ∈ r.mlogOrder ++ [id] ↔ (Function.update r.mlogs id (some r.made) id').isSome
        rw [List.mem_append, List.mem_singleton, h.listed]
        by_cases hid : id' = id
        · subst hid
          simp
        · simp [hid]

theorem Coherent.activate (h : r.Coherent) (id : Int) : (r.activate id).2.Coherent := by
  unfold MlogRegistry.activate searchMlog
  split
  next => exact h.deactivate
  next hne =>
    split
    next => exact h.deactivate
    next log hlog => exact ⟨fun heq => absurd heq hne, fun _ => ⟨rfl, hlog⟩, h.order, h.listed, h.made, h.distinct⟩

@[simp] theorem findMlog_snd (r : MlogRegistry) (id : Int) : (r.findMlog id).2 = r := by
  unfold findMlog
  split <;> rfl

theorem Coherent.activateRegion (h : r.Coherent) (id : Int) : (r.activateRegion id).2.Coherent := by
  unfold MlogRegistry.activateRegion
  split
  next => exact h
  next =>
    have hactive := h.activate id
    split
    next heq =>
      rw [heq] at hactive
      exact hactive
    next heq =>
      rw [heq] at hactive
      rw [findMlog_snd]
      exact hactive

theorem Coherent.mlogDelete (h : r.Coherent) (id : Int) : (r.mlogDelete id).Coherent := by
  have herased : ∀ r : MlogRegistry, r.Coherent → (r.activeMlogId = mlogNone ∨ r.activeMlogId ≠ id) →
      ({ r with mlogs := Function.update r.mlogs id none, mlogOrder := r.mlogOrder.erase id } : MlogRegistry).Coherent := by
    intro r h hactive
    have hlogs : ∀ id' log, Function.update r.mlogs id none id' = some log → id' ≠ id ∧ r.mlogs id' = some log := by
      intro id' log hlog
      by_cases hid : id' = id
      · subst hid
        rw [Function.update_self] at hlog
        cases hlog
      · rw [Function.update_of_ne hid] at hlog
        exact ⟨hid, hlog⟩
    refine ⟨h.inactive, fun hne => ?_, h.order.erase id, fun id' => ?_, fun id' log hlog => ?_,
      fun id₁ id₂ log h₁ h₂ => ?_⟩
    · obtain ⟨hsome, heq⟩ := h.active hne
      exact ⟨hsome, (Function.update_of_ne (hactive.resolve_left hne) _ _).trans heq⟩
    · change id' ∈ r.mlogOrder.erase id ↔ (Function.update r.mlogs id none id').isSome
      rw [h.order.mem_erase_iff, h.listed]
      by_cases hid : id' = id
      · subst hid
        simp
      · simp [hid]
    · exact h.made id' log (hlogs id' log hlog).2
    · exact h.distinct id₁ id₂ log (hlogs id₁ log h₁).2 (hlogs id₂ log h₂).2
  unfold MlogRegistry.mlogDelete
  split
  next => exact herased _ h.deactivate (Or.inl rfl)
  next hne => exact herased _ h (Or.inr hne)

theorem Coherent.restore (h : r.Coherent) (id : Int) : (r.restore id).2.Coherent := by
  unfold MlogRegistry.restore searchMlog
  split
  next => exact h
  next log hlog =>
    refine ⟨fun heq => ?_, fun hne => ?_, h.order, fun id' => ?_, h.made_update id, h.distinct_update id⟩
    · dsimp only
      rw [h.inactive heq, if_neg nofun]
    · -- the active log is the one that is replaced exactly if it has the id
      obtain ⟨hsome, heq⟩ := h.active hne
      dsimp only
      by_cases hid : r.activeMlogId = id
      · rw [hid] at heq ⊢
        rw [Function.update_self, if_pos (heq.symm.trans hlog)]
        exact ⟨rfl, rfl⟩
      · rw [Function.update_of_ne hid, if_neg fun hsame => hid (h.distinct _ _ log (heq.trans hsame) hlog)]
        exact ⟨hsome, heq⟩
    · change id' ∈ r.mlogOrder ↔ (Function.update r.mlogs id (some r.made) id').isSome
      rw [h.listed]
      by_cases hid : id' = id
      · subst hid
        rw [Function.update_self, hlog]
        exact Iff.rfl
      · rw [Function.update_of_ne hid]

theorem Coherent.step (h : r.Coherent) (op : MlogOp) : (r.step op).2.Coherent := by
  cases op with
  | create id => exact h.create id
  | activate id => exact h.activate id
  | activateRegion id => exact h.activateRegion id
  | beginRegion id => exact (findMlog_snd r id).symm ▸ h
  | sync id => exact (findMlog_snd r id).symm ▸ h
  | delete id => exact h.mlogDelete id
  | restore id => exact h.restore id

/-- To activate the active log again changes nothing. -/
theorem Coherent.activate_self (h : r.Coherent) : r.activate r.activeMlogId = (none, r) := by
  unfold MlogRegistry.activate searchMlog
  by_cases hid : r.activeMlogId = mlogNone
  · rw [if_pos hid]
    have hnone := h.inactive hid
    cases r
    cases hid
    cases hnone
    rfl
  · obtain ⟨hsome, heq⟩ := h.active hid
    obtain ⟨log, hlog⟩ := Option.isSome_iff_exists.mp hsome
    rw [if_neg hid, heq, hlog]
    cases r
    cases hlog
    rfl

/-- The log that was active before is so again, once others may have been. -/
theorem activate_eq {r' : MlogRegistry} (h : r.activate id = (none, r')) : r'.activeMlogId = id := by
  unfold MlogRegistry.activate searchMlog at h
  split at h
  next heq =>
    cases h
    exact heq.symm
  next =>
    split at h
    next => cases h
    next =>
      cases h
      rfl

theorem activate_activeMlogId (r : MlogRegistry) (id : Int) :
    (r.activate id).2.activeMlogId = mlogNone ∨ (r.activate id).2.activeMlogId = id := by
  unfold MlogRegistry.activate searchMlog
  split
  next => exact Or.inl rfl
  next =>
    split
    next => exact Or.inl rfl
    next => exact Or.inr rfl

/-- Other operations leave the active log, or leave none active. -/
theorem step_activeMlogId {op : MlogOp} (h : ¬op.Activates) (r : MlogRegistry) :
    (r.step op).2.activeMlogId = mlogNone ∨ (r.step op).2.activeMlogId = r.activeMlogId := by
  cases op with
  | create id =>
    right
    change (r.create id).2.activeMlogId = _
    unfold MlogRegistry.create
    split
    next => rfl
    next => split <;> rfl
  | activate id =>
    cases not_not.mp h
    exact Or.inl rfl
  | activateRegion id =>
    cases not_not.mp h
    exact Or.inr rfl
  | beginRegion id | sync id => exact Or.inr (congrArg activeMlogId (findMlog_snd r id))
  | delete id =>
    change (r.mlogDelete id).activeMlogId = _ ∨ (r.mlogDelete id).activeMlogId = _
    unfold MlogRegistry.mlogDelete
    split
    next => exact Or.inl rfl
    next => exact Or.inr rfl
  | restore id =>
    right
    change (r.restore id).2.activeMlogId = _
    unfold MlogRegistry.restore
    split <;> rfl

end MlogRegistry

end Fenix
