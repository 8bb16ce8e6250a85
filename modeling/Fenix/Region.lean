import Mathlib.Data.List.Forall2

namespace Fenix

/-- The indices of the messages of one region, from `first` up to `next`. -/
structure MsgRange where
  first : Int := -1
  next : Int := -1
  deriving DecidableEq, Repr

namespace MsgRange

def start (first : Int) : MsgRange := ⟨first, first⟩

def Valid (r : MsgRange) : Prop := 0 ≤ r.first ∧ r.first ≤ r.next

def Empty (r : MsgRange) : Prop := 0 ≤ r.first ∧ r.first = r.next

def Fresh (r : MsgRange) : Prop := 0 = r.first ∧ r.first = r.next

instance (r : MsgRange) : Decidable r.Valid := inferInstanceAs (Decidable (_ ∧ _))

instance (r : MsgRange) : Decidable r.Empty := inferInstanceAs (Decidable (_ ∧ _))

instance (r : MsgRange) : Decidable r.Fresh := inferInstanceAs (Decidable (_ ∧ _))

@[simp] theorem start_first (n : Int) : (start n).first = n := rfl

@[simp] theorem start_next (n : Int) : (start n).next = n := rfl

theorem valid_start {n : Int} (h : 0 ≤ n) : (start n).Valid := ⟨h, Int.le_refl n⟩

end MsgRange

/-- A region of the traffic with one peer. -/
structure Region where
  id : Int := -1
  send : MsgRange := {}
  recv : MsgRange := {}
  deriving DecidableEq, Repr

namespace Region

def Valid (r : Region) : Prop := 0 ≤ r.id ∧ r.send.Valid ∧ r.recv.Valid

def Empty (r : Region) : Prop := 0 ≤ r.id ∧ r.send.Empty ∧ r.recv.Empty

def Fresh (r : Region) : Prop := 0 ≤ r.id ∧ r.send.Fresh ∧ r.recv.Fresh

instance (r : Region) : Decidable r.Valid := inferInstanceAs (Decidable (_ ∧ _))

instance (r : Region) : Decidable r.Empty := inferInstanceAs (Decidable (_ ∧ _))

instance (r : Region) : Decidable r.Fresh := inferInstanceAs (Decidable (_ ∧ _))

def starting (id firstSend firstRecv : Int) : Region := ⟨id, .start firstSend, .start firstRecv⟩

/-- The region that continues the indices of `o`. -/
def following (id : Int) (o : Region) : Region := starting id o.send.next o.recv.next

@[simp] theorem starting_id (id s r : Int) : (starting id s r).id = id := rfl

@[simp] theorem starting_send (id s r : Int) : (starting id s r).send = .start s := rfl

@[simp] theorem starting_recv (id s r : Int) : (starting id s r).recv = .start r := rfl

@[simp] theorem following_id (id : Int) (o : Region) : (following id o).id = id := rfl

@[simp] theorem following_send (id : Int) (o : Region) : (following id o).send = .start o.send.next := rfl

@[simp] theorem following_recv (id : Int) (o : Region) : (following id o).recv = .start o.recv.next := rfl

theorem valid_starting {id s r : Int} (hi : 0 ≤ id) (hs : 0 ≤ s) (hr : 0 ≤ r) :
    (starting id s r).Valid :=
  ⟨hi, MsgRange.valid_start hs, MsgRange.valid_start hr⟩

theorem not_valid_default : ¬({} : Region).Valid := by decide

theorem Valid.oneSent {r : Region} (h : r.Valid) :
    ({ r with send := { r.send with next := r.send.next + 1 } } : Region).Valid :=
  ⟨h.1, ⟨h.2.1.1, Int.le_trans h.2.1.2 (Int.le_of_lt (Int.lt_succ _))⟩, h.2.2⟩

theorem Valid.oneReceived {r : Region} (h : r.Valid) :
    ({ r with recv := { r.recv with next := r.recv.next + 1 } } : Region).Valid :=
  ⟨h.1, h.2.1, h.2.2.1, Int.le_trans h.2.2.2 (Int.le_of_lt (Int.lt_succ _))⟩

end Region

/-- A region of the collectives of the communicator. -/
structure CRegion where
  id : Int := -1
  first : Int := -1
  next : Int := -1
  deriving DecidableEq, Repr

namespace CRegion

def Valid (r : CRegion) : Prop := 0 ≤ r.id ∧ 0 ≤ r.first ∧ 0 ≤ r.next

def Empty (r : CRegion) : Prop := r.Valid ∧ r.first = r.next

def Fresh (r : CRegion) : Prop := r.Empty ∧ r.first = 0

instance (r : CRegion) : Decidable r.Valid := inferInstanceAs (Decidable (_ ∧ _))

instance (r : CRegion) : Decidable r.Empty := inferInstanceAs (Decidable (_ ∧ _))

instance (r : CRegion) : Decidable r.Fresh := inferInstanceAs (Decidable (_ ∧ _))

def starting (id idx : Int) : CRegion := ⟨id, idx, idx⟩

@[simp] theorem starting_id (id idx : Int) : (starting id idx).id = id := rfl

@[simp] theorem starting_first (id idx : Int) : (starting id idx).first = idx := rfl

@[simp] theorem starting_next (id idx : Int) : (starting id idx).next = idx := rfl

end CRegion

end Fenix
