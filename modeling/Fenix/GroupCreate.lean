import Fenix.Cohort
import Fenix.DataGroup

namespace Fenix

/-- A communicator as one of its ranks sees it. -/
structure Communicator where
  size : Int
  rank : Int
  deriving DecidableEq

inductive GroupPolicy where
  | inMemoryRaid (values : CohortPolicy)
  | localOnly

/-- A group as the component keeps it on a rank. -/
structure DataGroup where
  groupid : Int
  comm : Communicator
  commSize : Int
  currentRank : Int
  timestart : Int
  timestamp : Int := -1
  depth : Int
  policy : GroupPolicy
  members : List (Int × DataMember) := []
  timestamps : Finset Int := ∅
  cohort : OrdSet Int := ∅
  cohortSize : Int := -1
  cohortRank : Int := -1

/-- The groups of a rank by id, and their ids in the order of creation. -/
structure DataComponent where
  groups : IndexedSet DataGroup fun g => g.groupid
  groupOrder : List Int

/-- Why a creation is refused. -/
inductive CreateError where
  | invalidTimestart
  | invalidDepth
  | invalidPolicyName
  | invalidPolicyValue
  | commException
  deriving DecidableEq

/-- How a creation ends: an error is raised to the caller, an abort ends the process. -/
inductive CreateOutcome where
  | success
  | raised (e : CreateError)
  | abort
  deriving DecidableEq

/-- The collective calls of an initialisation. -/
inductive InitCall where
  | createComm
  | barrier
  | syncTimestamps
  deriving DecidableEq

/-- What the collective calls of an initialisation bring: the timestamps that each rank of the cohort
holds and, where one of the calls raises, which one. -/
structure InitCalls where
  timestamps : Nat → Finset Int
  interrupted : Option InitCall

/-- The parameters of a creation. Without policy values there is a default. -/
structure GroupArgs where
  groupid : Int
  comm : Communicator
  timestart : Int
  depth : Int
  policyName : Int
  policyValue : Option CohortPolicy

def policyInMemoryRaid : Int := 13

def policyLocal : Int := 14

namespace GroupArgs

/-- The policy values that an in-memory group takes over: the set size of mode 5 only. -/
def imrValues (args : GroupArgs) : CohortPolicy :=
  match args.policyValue with
  | none => ⟨1, args.comm.size.tdiv 2, 0⟩
  | some v => ⟨v.mode, v.rankSeparation, if v.mode = 5 then v.setSizePolicy else 0⟩

def policy (args : GroupArgs) : Option GroupPolicy :=
  if args.policyName = policyInMemoryRaid then some (.inMemoryRaid args.imrValues)
  else if args.policyName = policyLocal then some .localOnly
  else none

def newGroup (args : GroupArgs) (policy : GroupPolicy) : DataGroup :=
  { groupid := args.groupid
    comm := args.comm
    commSize := args.comm.size
    currentRank := args.comm.rank
    timestart := args.timestart
    depth := args.depth
    policy := policy }

end GroupArgs

/-- The cohort of a rank, if the process survives its computation: some values divide by zero. -/
def GroupPolicy.createCohort (policy : GroupPolicy) (comm : Communicator) : Option (OrdSet Int) :=
  match policy with
  | .localOnly => some {comm.rank}
  | .inMemoryRaid p =>
    if (p.mode = 1 ∨ p.mode = 5) ∧ p.rankSeparation = 0 ∨ p.mode = 5 ∧ p.setSizePolicy = 0 then none
    else (p.createCohort comm.size comm.rank).toOption

/-- The cohort is too small for parity. -/
def GroupPolicy.TooSmall (policy : GroupPolicy) (cohortSize : Int) : Prop :=
  match policy with
  | .localOnly => False
  | .inMemoryRaid p => p.mode = 5 ∧ cohortSize < 3

instance (policy : GroupPolicy) (cohortSize : Int) : Decidable (policy.TooSmall cohortSize) :=
  match policy with
  | .localOnly => inferInstanceAs (Decidable False)
  | .inMemoryRaid p => inferInstanceAs (Decidable (p.mode = 5 ∧ cohortSize < 3))

namespace DataGroup

/-- The timestamps of the cohort become those of the group, and its members keep no others. -/
def syncGroup (g : DataGroup) (calls : InitCalls) : DataGroup :=
  let synced := syncTimestamps fun k : Fin g.cohortSize.toNat =>
    if (k : Int) = g.cohortRank then g.timestamps else calls.timestamps k
  { g with
    timestamps := synced
    timestamp := (newestFirst synced).head?.getD (-1)
    members := g.members.map fun m => (m.1, m.2.cleanupTimestamps synced) }

/-- The initialisation that all policies share. A call that raises leaves what was set up before it. -/
def initBase (g : DataGroup) (calls : InitCalls) : DataGroup × CreateOutcome :=
  match g.policy.createCohort g.comm with
  | none => (g, .abort)
  | some cohort =>
    let made := { g with cohort := cohort }
    let sized := { made with cohortSize := cohort.entries.length, cohortRank := cohort.entries.idxOf g.comm.rank }
    match calls.interrupted with
    | some .createComm => (made, .raised .commException)
    | some .barrier => (made, .raised .commException)
    | some .syncTimestamps => (sized, .raised .commException)
    | none => (sized.syncGroup calls, .success)

/-- The initialisation as the policy has it: parity needs a cohort of three. -/
def init (g : DataGroup) (calls : InitCalls) : DataGroup × CreateOutcome :=
  match g.initBase calls with
  | (g, .success) =>
    if g.policy.TooSmall g.cohortSize then (g, .raised .invalidPolicyValue) else (g, .success)
  | (g, outcome) => (g, outcome)

variable {g : DataGroup} {calls : InitCalls}

/-- What the shared initialisation does, call by call. -/
theorem initBase_cases (g : DataGroup) (calls : InitCalls) :
    (g.policy.createCohort g.comm = none ∧ g.initBase calls = (g, .abort)) ∨
    ∃ cohort, g.policy.createCohort g.comm = some cohort ∧
      ((calls.interrupted.isSome ∧ ∃ g' : DataGroup, g'.groupid = g.groupid ∧
          g.initBase calls = (g', .raised .commException)) ∨
        (calls.interrupted = none ∧ ∃ g' : DataGroup, g'.groupid = g.groupid ∧ g'.policy = g.policy ∧
          g'.cohortSize = cohort.entries.length ∧ g.initBase calls = (g', .success))) := by
  unfold initBase
  cases hc : g.policy.createCohort g.comm with
  | none => exact Or.inl ⟨rfl, rfl⟩
  | some cohort =>
    refine Or.inr ⟨cohort, rfl, ?_⟩
    cases hi : calls.interrupted with
    | none =>
      refine Or.inr ⟨rfl, _, ?_, ?_, ?_, rfl⟩
      all_goals rfl
    | some call =>
      cases call with
      | createComm =>
        refine Or.inl ⟨rfl, _, ?_, rfl⟩
        rfl
      | barrier =>
        refine Or.inl ⟨rfl, _, ?_, rfl⟩
        rfl
      | syncTimestamps =>
        refine Or.inl ⟨rfl, _, ?_, rfl⟩
        rfl

/-- An initialisation keeps the id, and raises where one of its calls does or the cohort is too small. -/
theorem init_spec (g : DataGroup) (calls : InitCalls) :
    (g.init calls).1.groupid = g.groupid ∧
      ((∃ e, (g.init calls).2 = .raised e) ↔ ∃ cohort, g.policy.createCohort g.comm = some cohort ∧
        (calls.interrupted.isSome ∨ g.policy.TooSmall cohort.entries.length)) := by
  unfold init
  rcases g.initBase_cases calls with ⟨hc, hb⟩ | ⟨cohort, hc, ⟨hi, g', hid, hb⟩ | ⟨hi, g', hid, hpol, hsize, hb⟩⟩
  · rw [hb, hc]
    refine ⟨rfl, ⟨fun ⟨e, he⟩ => ?_, fun ⟨cohort, h, _⟩ => ?_⟩⟩
    · cases he
    · cases h
  · rw [hb, hc]
    exact ⟨hid, fun _ => ⟨cohort, rfl, Or.inl hi⟩, fun _ => ⟨_, rfl⟩⟩
  · rw [hb, hc]
    dsimp only
    rw [hpol, hsize]
    split
    next hsmall => exact ⟨hid, fun _ => ⟨cohort, rfl, Or.inr hsmall⟩, fun _ => ⟨_, rfl⟩⟩
    next hlarge =>
      refine ⟨hid, ⟨fun ⟨e, he⟩ => ?_, fun ⟨cohort', h, hr⟩ => ?_⟩⟩
      · cases he
      · cases Option.some.inj h
        rw [hi] at hr
        rcases hr with hr | hr
        · cases hr
        · exact absurd hr hlarge

end DataGroup

namespace DataComponent

def searchGroup (c : DataComponent) (id : Int) : Option DataGroup := c.groups.find? id

/-- The group is in the table before it is initialised, and what its initialisation does happens there. -/
def groupCreate (c : DataComponent) (calls : InitCalls) (args : GroupArgs) : DataComponent × CreateOutcome :=
  match c.searchGroup args.groupid with
  | none =>
    match args.policy with
    | none => (c, .raised .invalidPolicyName)
    | some policy =>
      let (g, outcome) := (args.newGroup policy).init calls
      ({ groups := c.groups.insert g, groupOrder := c.groupOrder ++ [args.groupid] }, outcome)
  | some group =>
    let (g, outcome) := { group with comm := args.comm, currentRank := args.comm.rank }.init calls
    ({ c with groups := c.groups.put g }, outcome)

/-- `Fenix_Data_group_create`. -/
def dataGroupCreate (c : DataComponent) (calls : InitCalls) (args : GroupArgs) : DataComponent × CreateOutcome :=
  if args.timestart < 0 then (c, .raised .invalidTimestart)
  else if args.depth < -1 then (c, .raised .invalidDepth)
  else c.groupCreate calls args

/-- What a failed creation should leave: the groups and their order, and the next creation of that id. -/
structure NoTrace (c : DataComponent) (calls : InitCalls) (args : GroupArgs) : Prop where
  groups_eq : (c.dataGroupCreate calls args).1.groups = c.groups
  order_eq : (c.dataGroupCreate calls args).1.groupOrder = c.groupOrder
  later : ∀ (laterCalls : InitCalls) (laterArgs : GroupArgs), laterArgs.groupid = args.groupid →
    (c.dataGroupCreate calls args).1.dataGroupCreate laterCalls laterArgs = c.dataGroupCreate laterCalls laterArgs

/-- The creation of a new group that fails only once the group is in the table: its parameters and its
policy are known, its cohort can be computed, and a collective call raises or parity gets a cohort that is
too small. -/
def RefusedLate (calls : InitCalls) (args : GroupArgs) : Prop :=
  0 ≤ args.timestart ∧ -1 ≤ args.depth ∧ ∃ policy cohort, args.policy = some policy ∧
    policy.createCohort args.comm = some cohort ∧
    (calls.interrupted.isSome ∨ policy.TooSmall cohort.entries.length)

variable {c : DataComponent} {calls : InitCalls} {args : GroupArgs}

theorem NoTrace.of_eq (h : (c.dataGroupCreate calls args).1 = c) : c.NoTrace calls args where
  groups_eq := by rw [h]
  order_eq := by rw [h]
  later := fun _ _ _ => by rw [h]

/-- A creation of a new id either is refused before the group is made, or the group is in the table. -/
theorem create_cases (calls : InitCalls) (hnew : c.searchGroup args.groupid = none) :
    ((args.timestart < 0 ∨ args.depth < -1 ∨ args.policy = none) ∧ (c.dataGroupCreate calls args).1 = c) ∨
    ∃ policy, 0 ≤ args.timestart ∧ -1 ≤ args.depth ∧ args.policy = some policy ∧
      c.dataGroupCreate calls args =
        ({ groups := c.groups.insert ((args.newGroup policy).init calls).1
           groupOrder := c.groupOrder ++ [args.groupid] }, ((args.newGroup policy).init calls).2) := by
  unfold dataGroupCreate
  split
  next hts => exact Or.inl ⟨Or.inl hts, rfl⟩
  next hts =>
    split
    next hd => exact Or.inl ⟨Or.inr (Or.inl hd), rfl⟩
    next hd =>
      unfold groupCreate
      rw [hnew]
      cases hp : args.policy with
      | none => exact Or.inl ⟨Or.inr (Or.inr rfl), rfl⟩
      | some policy => exact Or.inr ⟨policy, by omega, by omega, rfl, rfl⟩

/-- A failed creation of a new group leaves no trace exactly when the group was not made before the
creation failed. -/
theorem failed_create_no_trace_iff (hnew : c.searchGroup args.groupid = none) :
    ((∃ e, (c.dataGroupCreate calls args).2 = .raised e) → c.NoTrace calls args) ↔ ¬RefusedLate calls args := by
  rcases create_cases calls hnew with ⟨hearly, hsame⟩ | ⟨policy, hts, hd, hp, heq⟩
  · refine ⟨fun _ hlate => ?_, fun _ _ => NoTrace.of_eq hsame⟩
    obtain ⟨hts, hd, policy, cohort, hp, _⟩ := hlate
    rcases hearly with h | h | h
    · omega
    · omega
    · rw [h] at hp
      cases hp
  · have hspec := (args.newGroup policy).init_spec calls
    constructor
    · rintro h ⟨_, _, policy', cohort, hp', hlate⟩
      rw [hp] at hp'
      cases Option.some.inj hp'
      have hraised := hspec.2.mpr ⟨cohort, hlate⟩
      have horder := (h (by rw [heq]; exact hraised)).order_eq
      rw [heq] at horder
      exact absurd (congrArg List.length horder) (by simp)
    · intro hlate hraised
      rw [heq] at hraised
      obtain ⟨cohort, h⟩ := hspec.2.mp hraised
      exact absurd ⟨hts, hd, policy, cohort, hp, h⟩ hlate

/-- Four ranks, parity over two of them each. -/
def paritySets (setSize : Int) : GroupArgs :=
  { groupid := 1
    comm := ⟨4, 0⟩
    timestart := 0
    depth := 0
    policyName := policyInMemoryRaid
    policyValue := some ⟨5, 1, setSize⟩ }

/-- The calls of a cohort where nothing has been committed and nothing fails. -/
def quiet : InitCalls := ⟨fun _ => ∅, none⟩

/-- The component of a rank that has created group 2. -/
def withGroup : DataComponent :=
  ((⟨.empty, []⟩ : DataComponent).dataGroupCreate quiet { paritySets 4 with groupid := 2 }).1

/-- The calls where the barrier raises. -/
def cutOff : InitCalls := { quiet with interrupted := some .barrier }

/-- Group 1 is created next to group 2: its barrier raises, and the creation leaves a trace. -/
theorem failed_create_no_trace_iff_barrier : (withGroup.searchGroup 2).isSome ∧
    (withGroup.dataGroupCreate cutOff (paritySets 4)).2 = .raised .commException ∧
      ¬withGroup.NoTrace cutOff (paritySets 4) := by
  refine ⟨by decide, by decide, fun htrace => ?_⟩
  have hlate : RefusedLate cutOff (paritySets 4) := ⟨by decide, by decide, _, _, rfl, rfl, Or.inl rfl⟩
  exact (failed_create_no_trace_iff rfl).mp (fun _ => htrace) hlate

/-- Sets of two are refused, but the group stays and has the values of the refused creation. -/
theorem failed_create_stays :
    let failed := (⟨.empty, []⟩ : DataComponent).dataGroupCreate quiet (paritySets 2)
    failed.2 = .raised .invalidPolicyValue ∧ failed.1.groupOrder = [1] ∧
      (failed.1.dataGroupCreate quiet (paritySets 4)).2 = .raised .invalidPolicyValue ∧
      ((⟨.empty, []⟩ : DataComponent).dataGroupCreate quiet (paritySets 4)).2 = .success := by
  refine ⟨?_, ?_, ?_, ?_⟩
  · decide
  · decide
  · decide
  · decide

end DataComponent

end Fenix
