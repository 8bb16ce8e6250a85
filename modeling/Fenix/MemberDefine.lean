import Fenix.IntRange
import Fenix.UserMember

namespace Fenix

/-- Why an update of a member is refused. -/
inductive DefineError where
  | invalidLogicCall
  | invalidDatatype
  | invalidAttributeName
  deriving DecidableEq

/-- How an update ends: an error is raised to the caller, otherwise an assertion fails or a product of
`int`s overflows. -/
inductive DefineOutcome where
  | success
  | raised (e : DefineError)
  | abort
  deriving DecidableEq

/-- An update of an attribute with any value: a datatype may be invalid, and the name unknown. -/
inductive AttrUpdate where
  | buffer (data : Nat)
  | count (n : Int)
  | datatype (dtype : Option Datatype)
  | unknown

/-- A member with the function that serializes it, if there is one. -/
structure DefinedMember extends UserMember where
  serializer : Option Nat

/-- What an application asks of a member that exists. -/
inductive DefineRequest where
  | attr (a : AttrUpdate)
  | define (data : Nat) (count : Int) (dtype : Option Datatype) (serializer : Option Nat)

namespace DefinedMember

/-- The size of a buffer as a `size_t`, the greatest of which stands for none. -/
def toSize (bytes : Int) : Option Nat :=
  if castSize bytes = 18446744073709551615 then none else some (castSize bytes)

/-- The size of a buffer of `count` elements. A count of zero stands for a resizeable one. -/
def bytesFor (count : Int) (extent : Nat) : Option Nat := if count = 0 then none else toSize (count * extent)

/-- The count of elements as an `int`. -/
def countOf (m : UserMember) : Except MemberError Int := m.elmCount.map castInt

/-- A datatype replaces the one before, and its size the element sizes. -/
def withDatatype (m : DefinedMember) (dtype : Datatype) (size : Option Nat) : DefinedMember :=
  { m with
    datatype := dtype
    userData := { m.userData with size := size }
    member := { m.member with
      stageSnapshot := UserMember.setElmSize m.member.stageSnapshot dtype.size
      availSnapshots := m.member.availSnapshots.map fun s => UserMember.setElmSize s dtype.size } }

/-- The count of elements stays, its product with the new size being one of `int`s. -/
def replaceDatatype (m : DefinedMember) (dtype : Datatype) : DefinedMember × DefineOutcome :=
  match countOf m.toUserMember with
  | .error _ => (m, .abort)
  | .ok count =>
    match m.userData.size, toInt MemberError.overrun (count * dtype.size) with
    | none, _ => (m.withDatatype dtype none, .success)
    | some _, .error _ => (m, .abort)
    | some _, .ok bytes => (m.withDatatype dtype (toSize bytes), .success)

/-- `attr_set`, with what it leaves of the member where it raises. -/
def attrSet (m : DefinedMember) : AttrUpdate → DefinedMember × DefineOutcome
  | .buffer data => ({ m with userData := { m.userData with data := data } }, .success)
  | .count n =>
    match countOf m.toUserMember with
    | .error _ => (m, .abort)
    | .ok count =>
      if n ≠ count ∧ m.hasData then (m, .raised .invalidLogicCall)
      else ({ m with userData := { m.userData with size := bytesFor n m.datatype.extent } }, .success)
  | .datatype none => (m, .raised .invalidDatatype)
  | .datatype (some dtype) =>
    if dtype.size ≠ m.datatype.extent ∧ m.hasData then (m, .raised .invalidLogicCall)
    else m.replaceDatatype dtype
  | .unknown => (m, .raised .invalidAttributeName)

/-- What follows an update, unless that has not succeeded. -/
def andThen (r : DefinedMember × DefineOutcome) (next : DefinedMember → DefinedMember × DefineOutcome) :
    DefinedMember × DefineOutcome :=
  match r with
  | (m, .success) => next m
  | (m, outcome) => (m, outcome)

/-- `member_define` of a member that exists: three updates, then the serializer. -/
def define (m : DefinedMember) (data : Nat) (count : Int) (dtype : Option Datatype) (serializer : Option Nat) :
    DefinedMember × DefineOutcome :=
  andThen (m.attrSet (.buffer data)) fun m =>
    andThen (m.attrSet (.count count)) fun m =>
      andThen (m.attrSet (.datatype dtype)) fun m => ({ m with serializer := serializer }, .success)

def perform (m : DefinedMember) : DefineRequest → DefinedMember × DefineOutcome
  | .attr a => m.attrSet a
  | .define data count dtype serializer => m.define data count dtype serializer

/-- The count is an update of a member with data. -/
def CountRefused (m : DefinedMember) (count : Int) : Prop :=
  ∃ c, countOf m.toUserMember = .ok c ∧ count ≠ c ∧ m.hasData = true

/-- The datatype is not valid, or an update of a member with data. -/
def DatatypeRefused (m : DefinedMember) : Option Datatype → Prop
  | none => True
  | some dtype => dtype.size ≠ m.datatype.extent ∧ m.hasData = true

/-- Nothing has been updated when a request is refused: an update is refused before it does anything, and a
definition names the buffer of the member and, where its datatype is refused, the count as well. -/
def RefusedFirst (m : DefinedMember) : DefineRequest → Prop
  | .attr _ => True
  | .define data count dtype _ =>
    (m.CountRefused count → data = m.userData.data) ∧
      ((∃ c, countOf m.toUserMember = .ok c) ∧ ¬m.CountRefused count ∧ m.DatatypeRefused dtype →
        data = m.userData.data ∧ bytesFor count m.datatype.extent = m.userData.size)

variable {m : DefinedMember} {a : AttrUpdate} {e : DefineError} {data : Nat} {count : Int}
  {dtype : Option Datatype} {serializer : Option Nat}

theorem replaceDatatype_not_raised (m : DefinedMember) (dtype : Datatype) (e : DefineError) :
    (m.replaceDatatype dtype).2 ≠ .raised e := by
  unfold replaceDatatype
  split
  next => exact fun h => nomatch h
  next =>
    split
    next => exact fun h => nomatch h
    next => exact fun h => nomatch h
    next => exact fun h => nomatch h

theorem attrSet_count_cases (m : DefinedMember) (n : Int) :
    (¬(∃ c, countOf m.toUserMember = .ok c) ∧ m.attrSet (.count n) = (m, .abort)) ∨
    (m.CountRefused n ∧ m.attrSet (.count n) = (m, .raised .invalidLogicCall)) ∨
    ((∃ c, countOf m.toUserMember = .ok c) ∧ ¬m.CountRefused n ∧ m.attrSet (.count n) =
      ({ m with userData := { m.userData with size := bytesFor n m.datatype.extent } }, .success)) := by
  unfold CountRefused
  simp only [attrSet]
  cases hc : countOf m.toUserMember with
  | error e => exact Or.inl ⟨fun ⟨_, h⟩ => (nomatch h), rfl⟩
  | ok c =>
    dsimp only
    split
    next hrefused => exact Or.inr (Or.inl ⟨⟨c, rfl, hrefused⟩, rfl⟩)
    next haccepted =>
      refine Or.inr (Or.inr ⟨⟨c, rfl⟩, fun ⟨c', h, hne⟩ => ?_, rfl⟩)
      cases Except.ok.inj h
      exact haccepted hne

theorem attrSet_datatype_cases (m : DefinedMember) (dtype : Option Datatype) :
    (m.DatatypeRefused dtype ∧ ∃ e, m.attrSet (.datatype dtype) = (m, .raised e)) ∨
    (¬m.DatatypeRefused dtype ∧ ∀ e, (m.attrSet (.datatype dtype)).2 ≠ .raised e) := by
  cases dtype with
  | none => exact Or.inl ⟨trivial, _, rfl⟩
  | some dtype =>
    simp only [attrSet]
    split
    next hrefused => exact Or.inl ⟨hrefused, _, rfl⟩
    next haccepted => exact Or.inr ⟨haccepted, replaceDatatype_not_raised m dtype⟩

/-- An update of one attribute that is refused has changed nothing. -/
theorem attrSet_raised (h : (m.attrSet a).2 = .raised e) : (m.attrSet a).1 = m := by
  cases a with
  | buffer data => cases h
  | unknown => rfl
  | count n =>
    rcases m.attrSet_count_cases n with ⟨_, heq⟩ | ⟨_, heq⟩ | ⟨_, _, heq⟩
    · rw [heq]
    · rw [heq]
    · rw [heq] at h
      cases h
  | datatype dtype =>
    rcases m.attrSet_datatype_cases dtype with ⟨_, _, heq⟩ | ⟨_, hnot⟩
    · rw [heq]
    · exact absurd h (hnot e)

/-- The serializer comes last and never raises. -/
theorem andThen_serializer (r : DefinedMember × DefineOutcome) (serializer : Option Nat) (e : DefineError) :
    (andThen r fun m => ({ m with serializer := serializer }, .success)).2 = .raised e ↔ r.2 = .raised e := by
  obtain ⟨m, outcome⟩ := r
  cases outcome with
  | success => exact ⟨fun h => (nomatch h), fun h => (nomatch h)⟩
  | raised e => exact Iff.rfl
  | abort => exact Iff.rfl

/-- A definition is refused at its count, gets to its datatype and is refused there, or is not refused. -/
theorem define_cases (m : DefinedMember) (data : Nat) (count : Int) (dtype : Option Datatype)
    (serializer : Option Nat) :
    (m.CountRefused count ∧ m.define data count dtype serializer =
      ({ m with userData := ⟨data, m.userData.size⟩ }, .raised .invalidLogicCall)) ∨
    (((∃ c, countOf m.toUserMember = .ok c) ∧ ¬m.CountRefused count ∧ m.DatatypeRefused dtype) ∧
      ∃ e, m.define data count dtype serializer =
        ({ m with userData := ⟨data, bytesFor count m.datatype.extent⟩ }, .raised e)) ∨
    (¬m.CountRefused count ∧
      ¬((∃ c, countOf m.toUserMember = .ok c) ∧ ¬m.CountRefused count ∧ m.DatatypeRefused dtype) ∧
      ∀ e, (m.define data count dtype serializer).2 ≠ .raised e) := by
  -- neither the count nor the data of a member depends on where its buffer is
  let placed : DefinedMember := { m with userData := ⟨data, m.userData.size⟩ }
  let counted : DefinedMember := { m with userData := ⟨data, bytesFor count m.datatype.extent⟩ }
  have hdefine : m.define data count dtype serializer =
      andThen (placed.attrSet (.count count)) fun m =>
        andThen (m.attrSet (.datatype dtype)) fun m => ({ m with serializer := serializer }, .success) := rfl
  rw [hdefine]
  rcases placed.attrSet_count_cases count with ⟨hnone, heq⟩ | ⟨hrefused, heq⟩ | ⟨hsome, haccepted, heq⟩
  · rw [heq]
    exact Or.inr (Or.inr ⟨fun ⟨c, hc, _⟩ => hnone ⟨c, hc⟩, fun h => hnone h.1, fun e he => nomatch he⟩)
  · rw [heq]
    exact Or.inl ⟨hrefused, rfl⟩
  · rw [heq]
    change _ ∨ _ ∧ (∃ e, andThen (counted.attrSet (.datatype dtype)) _ = _) ∨ _ ∧ _ ∧
      ∀ e, (andThen (counted.attrSet (.datatype dtype)) _).2 ≠ _
    rcases counted.attrSet_datatype_cases dtype with ⟨hrefused, e, hraised⟩ | ⟨hnot, houtcome⟩
    · rw [hraised]
      exact Or.inr (Or.inl ⟨⟨hsome, haccepted, hrefused⟩, e, rfl⟩)
    · refine Or.inr (Or.inr ⟨haccepted, fun h => hnot h.2.2, fun e he => ?_⟩)
      exact houtcome e ((andThen_serializer _ serializer e).mp he)

/-- A refused request leaves the member intact exactly when it is refused before anything is updated. -/
theorem refused_intact_iff (m : DefinedMember) (r : DefineRequest) :
    ((∃ e, (m.perform r).2 = .raised e) → (m.perform r).1 = m) ↔ m.RefusedFirst r := by
  cases r with
  | attr a => exact ⟨fun _ => trivial, fun _ ⟨e, he⟩ => attrSet_raised he⟩
  | define data count dtype serializer =>
    change ((∃ e, (m.define data count dtype serializer).2 = .raised e) →
      (m.define data count dtype serializer).1 = m) ↔ _
    rcases m.define_cases data count dtype serializer with ⟨hrefused, heq⟩ | ⟨hrefused, e, heq⟩ | ⟨hc, hd, hnot⟩
    · rw [heq]
      refine ⟨fun h => ⟨fun _ => ?_, fun h' => absurd hrefused h'.2.1⟩, fun h _ => ?_⟩
      · exact congrArg (fun m : DefinedMember => m.userData.data) (h ⟨_, rfl⟩)
      · rw [h.1 hrefused]
    · rw [heq]
      refine ⟨fun h => ⟨fun h' => absurd h' hrefused.2.1, fun _ => ?_⟩, fun h _ => ?_⟩
      · have hkept := h ⟨_, rfl⟩
        exact ⟨congrArg (fun m : DefinedMember => m.userData.data) hkept,
          congrArg (fun m : DefinedMember => m.userData.size) hkept⟩
      · obtain ⟨hdata, hsize⟩ := h.2 hrefused
        rw [hdata, hsize]
    · exact ⟨fun _ => ⟨fun h => absurd h hc, fun h => absurd h hd⟩, fun _ ⟨e, he⟩ => absurd he (hnot e)⟩

/-- A member of four bytes with one of them staged. -/
def stagedMember : DefinedMember :=
  { member := GroupState.unstoredMember, userData := ⟨100, some 4⟩, datatype := ⟨1, 1⟩, serializer := none }

/-- A definition with another buffer and another count is refused, and the buffer has been replaced. -/
theorem refused_replaces_buffer :
    (stagedMember.perform (.define 200 8 (some ⟨1, 1⟩) none)).2 = .raised .invalidLogicCall ∧
      (stagedMember.perform (.define 200 8 (some ⟨1, 1⟩) none)).1.userData.data = 200 ∧
      stagedMember.userData.data = 100 := by
  refine ⟨?_, ?_, ?_⟩
  · decide
  · decide
  · decide

section Agreement

variable {a : MemberAttr} {m' : UserMember}

/-- An update of the member as a request may name it. -/
def toUpdate : MemberAttr → AttrUpdate
  | .buffer data => .buffer data
  | .count n => .count n
  | .datatype dtype => .datatype (some dtype)

/-- The numbers of an update are of the range of their types. -/
def InRange (m : UserMember) : MemberAttr → Prop
  | .buffer _ => True
  | .count n => (∀ c, m.elmCount = .ok c → c ≤ 2147483647) ∧ n * m.datatype.extent < 18446744073709551615
  | .datatype _ => ∀ c, m.elmCount = .ok c → c ≤ 2147483647

theorem toSize_natCast {n : Nat} (h : n < 18446744073709551615) : toSize n = some n := by
  unfold toSize
  rw [castSize_natCast (by omega), if_neg (by omega)]

theorem countOf_ok {m : UserMember} {c : Nat} (hc : m.elmCount = .ok c) (h : c ≤ 2147483647) :
    countOf m = .ok (c : Int) := by
  unfold countOf
  rw [hc, ← castInt_eq_iff.mpr h]
  rfl

/-- Where no number leaves the range of its type, an update of the member is one without errors. -/
theorem attrSet_agrees (hr : InRange m.toUserMember a) (h : m.toUserMember.attrSet a = .ok m') :
    m.attrSet (toUpdate a) = ({ m with toUserMember := m' }, .success) := by
  cases a with
  | buffer data =>
    cases Except.ok.inj h
    rfl
  | count n =>
    obtain ⟨c, hc, h⟩ := Except.bind_eq_ok_iff.mp h
    split at h
    next => cases h
    next haccepted =>
      cases Except.ok.inj h
      have hcount := countOf_ok hc (hr.1 c hc)
      rcases m.attrSet_count_cases n with ⟨hnone, _⟩ | ⟨⟨c', hc', hne, hdata⟩, _⟩ | ⟨_, _, heq⟩
      · exact absurd ⟨_, hcount⟩ hnone
      · rw [hcount] at hc'
        cases Except.ok.inj hc'
        exact absurd ⟨fun heq => hne (by rw [heq]), hdata⟩ haccepted
      · rw [toUpdate, heq]
        unfold bytesFor UserMember.userBytes
        by_cases hz : n = 0
        · rw [if_pos hz, if_pos (by omega)]
        · rw [if_neg hz, if_neg (by omega), ← Int.natCast_mul, toSize_natCast hr.2]
  | datatype dtype =>
    change (if _ then _ else _) = _ at h
    rw [toUpdate, attrSet]
    split at h
    next => cases h
    next haccepted =>
      obtain ⟨c, hc, h⟩ := Except.bind_eq_ok_iff.mp h
      obtain ⟨size, hresized, h⟩ := Except.bind_eq_ok_iff.mp h
      cases Except.ok.inj h
      obtain ⟨rfl, hproduct⟩ := UserMember.resized_eq_ok hresized
      rw [if_neg haccepted]
      unfold replaceDatatype
      rw [countOf_ok hc (hr c hc)]
      dsimp only
      cases hsize : m.userData.size with
      | none => rfl
      | some n =>
        have hle := hproduct (by rw [hsize]; exact Option.some_ne_none n)
        have hbytes : toInt MemberError.overrun ((c : Int) * dtype.size) = .ok ((c * dtype.size : Nat) : Int) := by
          rw [← Int.natCast_mul]
          exact toInt_ok (by unfold intMax; omega) (by unfold intMax; omega)
        rw [hbytes]
        dsimp only
        rw [toSize_natCast (by omega)]
        rfl

end Agreement

end DefinedMember

end Fenix
