import Fenix.CommitBarrier
import Mathlib.Data.List.FinRange
import Mathlib.Data.List.Infix

namespace Fenix

/-- How `Fenix_Finalize` is left without success. -/
inductive Exit where
  | longjmp
  | exception
  | cancelled
  deriving DecidableEq

namespace Options

/-- An exception ends the scope of the options of the call, which then resumes as the user has chosen. -/
def exit (user : Options) : CallOutcome → Option Exit
  | .returned => none
  | .jumped => some .longjmp
  | .thrown =>
    match user.resumeApplication with
    | .jumped => some .longjmp
    | .thrown => some .exception
    | .returned => some .cancelled

/-- The options under which the barrier is called. The scoped option is a temporary, which is
destroyed before. -/
def atBarrier (inlineRecovery : Bool) (o : Options) : Options :=
  if inlineRecovery then
    let (scope, set) := ScopedOption.construct .return o
    scope.destroy set
  else o

end Options

/-- Where a rank stands. In the loop it holds its location; in the error handler also the options under
which the call that failed was made, and whether that is the barrier. -/
inductive Standing where
  | application
  | recovering
  | committing
  | finalizing (location : BitVec 32)
  | interrupted (barrier : Bool) (options : Options) (location : BitVec 32)
  | finalized
  | left (exit : Exit)
  | dead
  deriving DecidableEq

/-- What a rank contributes to an agreement on the user world. -/
def Standing.contribution : Standing → Option (BitVec 32)
  | .recovering => some Location.errhandler.bit
  | .committing => some Location.dataCommitBarrier.bit
  | .interrupted .. => some Location.errhandler.bit
  | .finalizing location => some location
  | _ => none

structure FinalizeRank where
  options : Options
  inlineRecovery : Bool
  standing : Standing
  deriving DecidableEq

namespace FinalizeRank

def stand (r : FinalizeRank) (s : Standing) : FinalizeRank := { r with standing := s }

/-- The rest of a pass of the loop after the agreement. The barrier fails, as the user world is revoked. -/
def testLocation (r : FinalizeRank) (location : BitVec 32) : Standing :=
  if location = Location.finalize.bit then .finalized
  else .interrupted true (r.options.defaultRuntime.atBarrier r.inlineRecovery) location

/-- A pass of the loop; an error of the agreement is handled before it comes back. -/
def pass (r : FinalizeRank) (agreed : BitVec 32) (raised : Bool) : Standing :=
  if raised then .interrupted false r.options.defaultRuntime agreed else r.testLocation agreed

/-- How a rank goes on in the loop after the recovery: the location is the one that was agreed on. -/
def resume (r : FinalizeRank) (barrier : Bool) (options : Options) (location : BitVec 32) : Standing :=
  match r.options.exit options.resumeApplication with
  | some exit => .left exit
  | none => if barrier then .finalizing location else r.testLocation location

/-- What an agreement makes of a rank. Those in the error handler go on once all ranks are there. -/
def afterAgree (r : FinalizeRank) (agreed : BitVec 32) (raised : Bool) : Standing :=
  match r.standing with
  | .finalizing _ => r.pass agreed raised
  | .recovering => if agreed = Location.errhandler.bit then .application else .recovering
  | .committing => if agreed = Location.dataCommitBarrier.bit ∧ ¬raised then .application else .recovering
  | .interrupted barrier options location =>
    if agreed = Location.errhandler.bit then r.resume barrier options location
    else .interrupted barrier options location
  | s => s

end FinalizeRank

/-- The ranks of the user world. -/
def FinalizeWorld (n : Nat) : Type := Fin n → FinalizeRank

inductive FinalizeEvent (n : Nat) where
  | choose (i : Fin n) (options : Options) (inlineRecovery : Bool)
  | finalize (i : Fin n)
  | handle (i : Fin n)
  | commit (i : Fin n)
  | fail (i : Fin n)
  | replace (i : Fin n)
  | agreement (raised : Fin n → Bool)

namespace FinalizeWorld

variable {n : Nat}

def set (w : FinalizeWorld n) (i : Fin n) (r : FinalizeRank) : FinalizeWorld n := fun j => if j = i then r else w j

/-- The rank is outside of Fenix. -/
def Outside (w : FinalizeWorld n) (i : Fin n) : Prop :=
  match (w i).standing with
  | .application => True
  | .left _ => True
  | _ => False

instance (w : FinalizeWorld n) (i : Fin n) : Decidable (w.Outside i) := by
  unfold Outside
  split <;> infer_instance

def agreed (w : FinalizeWorld n) : BitVec 32 :=
  agree ((List.finRange n).filterMap fun i => (w i).standing.contribution)

/-- All live ranks have entered an agreement on the user world. -/
def Gathered (w : FinalizeWorld n) : Prop :=
  ∀ i, (w i).standing = .dead ∨ ((w i).standing.contribution).isSome

instance (w : FinalizeWorld n) : Decidable w.Gathered := inferInstanceAs (Decidable (∀ _, _))

/-- What an event does; one that is not possible changes nothing. -/
def step (w : FinalizeWorld n) : FinalizeEvent n → FinalizeWorld n
  | .choose i options inlineRecovery =>
    if w.Outside i then w.set i ⟨options, inlineRecovery, .application⟩ else w
  | .finalize i => if w.Outside i then w.set i ((w i).stand (.finalizing Location.finalize.bit)) else w
  | .handle i => if w.Outside i then w.set i ((w i).stand .recovering) else w
  | .commit i => if w.Outside i then w.set i ((w i).stand .committing) else w
  | .fail i => w.set i ((w i).stand .dead)
  | .replace i => if (w i).standing = .dead then w.set i ((w i).stand .application) else w
  | .agreement raised =>
    if w.Gathered then fun i => (w i).stand ((w i).afterAgree w.agreed (raised i)) else w

def run (w : FinalizeWorld n) (events : List (FinalizeEvent n)) : FinalizeWorld n := events.foldl step w

/-- Every live rank is at the head of the loop. -/
def AtHead (w : FinalizeWorld n) : Prop :=
  ∀ i, (w i).standing = .dead ∨ ∃ location, (w i).standing = .finalizing location

/-- With inline recovery, `Fenix_Finalize` is not left before the ranks have agreed, and they do agree
when no failure interrupts them. -/
structure Survives (w : FinalizeWorld n) : Prop where
  stays : ∀ i exit, (w i).inlineRecovery = true → (w i).standing ≠ .left exit
  agrees : w.AtHead → ∀ i, (w i).standing = .dead ∨
    (w.step (.agreement fun _ => false) i).standing = .finalized

/-- The event ends the recovery from an error that has interrupted a rank in the loop. -/
def RecoversInLoop (w : FinalizeWorld n) : FinalizeEvent n → Prop
  | .agreement _ => w.Gathered ∧ w.agreed = Location.errhandler.bit ∧ ∃ i barrier options location,
    (w i).inlineRecovery = true ∧ (w i).standing = .interrupted barrier options location
  | _ => False

/-- A rank comes to the head of the loop with the location of the loop only, and its calls there throw. -/
def Entered (s : Standing) : Prop :=
  (∀ location, s = .finalizing location → location = Location.finalize.bit) ∧
    ∀ barrier options location, s = .interrupted barrier options location → options.resumeApplication = .thrown

theorem entered_of_ne {s : Standing} (hf : ∀ location, s ≠ .finalizing location)
    (hi : ∀ barrier options location, s ≠ .interrupted barrier options location) : Entered s :=
  ⟨fun location h => absurd h (hf location), fun barrier options location h => absurd h (hi barrier options location)⟩

theorem atBarrier_eq (inlineRecovery : Bool) (o : Options) : o.atBarrier inlineRecovery = o := by
  unfold Options.atBarrier
  split
  next => exact ScopedOption.destroy_construct .return o
  next => rfl

theorem entered_testLocation (r : FinalizeRank) (location : BitVec 32) : Entered (r.testLocation location) := by
  unfold FinalizeRank.testLocation
  split
  next => exact entered_of_ne nofun nofun
  next =>
    rw [atBarrier_eq]
    exact ⟨nofun, fun _ _ _ h => by cases h; rfl⟩

/-- An interrupted rank leaves when the recovery ends. -/
theorem resume_of_thrown (r : FinalizeRank) (barrier : Bool) {options : Options} (location : BitVec 32)
    (h : options.resumeApplication = .thrown) : ∃ exit, r.resume barrier options location = .left exit := by
  unfold FinalizeRank.resume
  rw [h]
  cases hr : r.options.resumeApplication with
  | returned => exact ⟨.cancelled, by simp [Options.exit, hr]⟩
  | thrown => exact ⟨.exception, by simp [Options.exit, hr]⟩
  | jumped => exact ⟨.longjmp, by simp [Options.exit, hr]⟩

theorem Entered.afterAgree {r : FinalizeRank} (h : Entered r.standing) (agreed : BitVec 32) (raised : Bool) :
    Entered (r.afterAgree agreed raised) := by
  unfold FinalizeRank.afterAgree
  cases hs : r.standing with
  | finalizing location =>
    dsimp only
    unfold FinalizeRank.pass
    split
    next => exact ⟨nofun, fun _ _ _ h => by cases h; rfl⟩
    next => exact entered_testLocation r agreed
  | interrupted barrier options location =>
    dsimp only
    have hthrow := h.2 barrier options location hs
    split
    next =>
      obtain ⟨exit, hexit⟩ := resume_of_thrown r barrier location hthrow
      rw [hexit]
      exact entered_of_ne nofun nofun
    next => exact ⟨nofun, fun _ _ _ h => by cases h; exact hthrow⟩
  | recovering =>
    dsimp only
    split
    next => exact entered_of_ne nofun nofun
    next => exact entered_of_ne nofun nofun
  | committing =>
    dsimp only
    split
    next => exact entered_of_ne nofun nofun
    next => exact entered_of_ne nofun nofun
  | application | finalized | left | dead => exact entered_of_ne nofun nofun

theorem step_agreement {w : FinalizeWorld n} (h : w.Gathered) (raised : Fin n → Bool) (i : Fin n) :
    w.step (.agreement raised) i = (w i).stand ((w i).afterAgree w.agreed (raised i)) :=
  congrFun (if_pos h) i

theorem step_agreement_of_not {w : FinalizeWorld n} (h : ¬w.Gathered) (raised : Fin n → Bool) :
    w.step (.agreement raised) = w := if_neg h

theorem entered_set {w : FinalizeWorld n} (h : ∀ i, Entered (w i).standing) (i : Fin n) {r : FinalizeRank}
    (hr : Entered r.standing) (j : Fin n) : Entered (w.set i r j).standing := by
  unfold set
  split
  next => exact hr
  next => exact h j

theorem entered_step {w : FinalizeWorld n} (h : ∀ i, Entered (w i).standing) (event : FinalizeEvent n) (i : Fin n) :
    Entered (w.step event i).standing := by
  have happlication : Entered .application := entered_of_ne nofun nofun
  have hrecovering : Entered .recovering := entered_of_ne nofun nofun
  have hcommitting : Entered .committing := entered_of_ne nofun nofun
  have hdead : Entered .dead := entered_of_ne nofun nofun
  have hfinalizing : Entered (.finalizing Location.finalize.bit) := ⟨fun _ h => by cases h; rfl, nofun⟩
  cases event with
  | choose j =>
    simp only [step]
    split
    next => exact entered_set h j happlication i
    next => exact h i
  | finalize j =>
    simp only [step]
    split
    next => exact entered_set h j hfinalizing i
    next => exact h i
  | handle j =>
    simp only [step]
    split
    next => exact entered_set h j hrecovering i
    next => exact h i
  | commit j =>
    simp only [step]
    split
    next => exact entered_set h j hcommitting i
    next => exact h i
  | fail j => exact entered_set h j hdead i
  | replace j =>
    simp only [step]
    split
    next => exact entered_set h j happlication i
    next => exact h i
  | agreement raised =>
    by_cases hg : w.Gathered
    · rw [step_agreement hg]
      exact (h i).afterAgree w.agreed (raised i)
    · rw [step_agreement_of_not hg]
      exact h i

theorem entered_run {w : FinalizeWorld n} (h : ∀ i, Entered (w i).standing) (events : List (FinalizeEvent n)) :
    ∀ i, Entered (w.run events i).standing := by
  induction events generalizing w with
  | nil => exact h
  | cons event events ih => exact ih (entered_step h event)

/-- Ranks that are all at the head of the loop agree that they are. -/
theorem agreed_of_atHead {w : FinalizeWorld n} (h : ∀ i, Entered (w i).standing) (hhead : w.AtHead) {i : Fin n}
    (hi : (w i).standing ≠ .dead) : w.agreed = Location.finalize.bit := by
  have hlocation : ∀ j, (w j).standing = .dead ∨ (w j).standing = .finalizing Location.finalize.bit := by
    intro j
    rcases hhead j with hj | ⟨location, hj⟩
    · exact Or.inl hj
    · rw [(h j).1 location hj] at hj
      exact Or.inr hj
  refine agree_eq_of_forall ?_ fun x hx => ?_
  · have hmem : Location.finalize.bit ∈ (List.finRange n).filterMap fun i => (w i).standing.contribution := by
      refine List.mem_filterMap.mpr ⟨i, List.mem_finRange i, ?_⟩
      rw [(hlocation i).resolve_left hi]
      rfl
    exact List.ne_nil_of_mem hmem
  · obtain ⟨j, _, hj⟩ := List.mem_filterMap.mp hx
    rcases hlocation j with hs | hs
    · rw [hs] at hj
      cases hj
    · rw [hs] at hj
      exact (Option.some.inj hj).symm

theorem atHead_agrees {w : FinalizeWorld n} (h : ∀ i, Entered (w i).standing) (hhead : w.AtHead) (i : Fin n) :
    (w i).standing = .dead ∨ (w.step (.agreement fun _ => false) i).standing = .finalized := by
  by_cases hi : (w i).standing = .dead
  · exact Or.inl hi
  · obtain ⟨location, hs⟩ := (hhead i).resolve_left hi
    have hgathered : w.Gathered := by
      intro j
      rcases hhead j with hj | ⟨location, hj⟩
      · exact Or.inl hj
      · exact Or.inr (by rw [hj]; rfl)
    refine Or.inr ?_
    rw [step_agreement hgathered, agreed_of_atHead h hhead hi]
    change (w i).afterAgree Location.finalize.bit false = .finalized
    unfold FinalizeRank.afterAgree
    rw [hs]
    change (w i).testLocation Location.finalize.bit = .finalized
    exact if_pos rfl

/-- No rank that recovers inline has left. -/
def Stays (w : FinalizeWorld n) : Prop := ∀ i exit, (w i).inlineRecovery = true → (w i).standing ≠ .left exit

theorem Stays.set {w : FinalizeWorld n} (h : w.Stays) {i : Fin n} {r : FinalizeRank}
    (hr : ∀ exit, r.standing ≠ .left exit) : (w.set i r).Stays := by
  intro j exit hj
  unfold FinalizeWorld.set at hj ⊢
  split
  next => exact hr exit
  next hne =>
    rw [if_neg hne] at hj
    exact h j exit hj

/-- A rank leaves only as the recovery ends from an error by which it has been interrupted. -/
theorem Stays.step {w : FinalizeWorld n} (h : w.Stays) {event : FinalizeEvent n} (hr : ¬w.RecoversInLoop event) :
    (w.step event).Stays := by
  cases event with
  | choose j =>
    simp only [FinalizeWorld.step]
    split
    next => exact h.set nofun
    next => exact h
  | finalize j =>
    simp only [FinalizeWorld.step]
    split
    next => exact h.set nofun
    next => exact h
  | handle j =>
    simp only [FinalizeWorld.step]
    split
    next => exact h.set nofun
    next => exact h
  | commit j =>
    simp only [FinalizeWorld.step]
    split
    next => exact h.set nofun
    next => exact h
  | fail j => exact h.set nofun
  | replace j =>
    simp only [FinalizeWorld.step]
    split
    next => exact h.set nofun
    next => exact h
  | agreement raised =>
    by_cases hg : w.Gathered
    · intro i exit hi
      rw [step_agreement hg] at hi ⊢
      change (w i).afterAgree w.agreed (raised i) ≠ .left exit
      have hstay := h i exit hi
      unfold FinalizeRank.afterAgree
      cases hs : (w i).standing with
      | finalizing location =>
        dsimp only
        unfold FinalizeRank.pass FinalizeRank.testLocation
        split
        next => exact nofun
        next =>
          split
          next => exact nofun
          next => exact nofun
      | interrupted barrier options location =>
        dsimp only
        split
        next hagreed => exact absurd ⟨hg, hagreed, i, barrier, options, location, hi, hs⟩ hr
        next => exact nofun
      | recovering | committing =>
        dsimp only
        split
        next => exact nofun
        next => exact nofun
      | left e =>
        rw [hs] at hstay
        exact hstay
      | application | finalized | dead => exact nofun
    · rw [step_agreement_of_not hg]
      exact h

/-- The recovery takes an interrupted rank out of the loop. -/
theorem left_of_recoversInLoop {w : FinalizeWorld n} (h : ∀ i, Entered (w i).standing) {event : FinalizeEvent n}
    (hr : w.RecoversInLoop event) : ¬(w.step event).Stays := by
  cases event with
  | agreement raised =>
    obtain ⟨hg, hagreed, i, barrier, options, location, hinline, hs⟩ := hr
    obtain ⟨exit, hexit⟩ := resume_of_thrown (w i) barrier location ((h i).2 barrier options location hs)
    intro hstay
    refine hstay i exit ?_ ?_
    · rw [step_agreement hg]
      exact hinline
    · rw [step_agreement hg]
      change (w i).afterAgree w.agreed (raised i) = .left exit
      unfold FinalizeRank.afterAgree
      rw [hs]
      exact (if_pos hagreed).trans hexit
  | choose | finalize | handle | commit | fail | replace => exact hr.elim

theorem run_concat (w : FinalizeWorld n) (events : List (FinalizeEvent n)) (event : FinalizeEvent n) :
    w.run (events ++ [event]) = (w.run events).step event := List.foldl_append

/-- In every run, nobody leaves `Fenix_Finalize` before the ranks have agreed, and they do agree, exactly
when no recovery from an error that has interrupted a rank in the loop is completed. -/
theorem finalize_survives_iff {w : FinalizeWorld n} (h : ∀ i, (w i).standing = .application)
    (events : List (FinalizeEvent n)) : (∀ done, done <+: events → (w.run done).Survives) ↔
      ∀ done event, done ++ [event] <+: events → ¬(w.run done).RecoversInLoop event := by
  have hentered : ∀ done, ∀ i, Entered ((w.run done) i).standing :=
    entered_run fun i => by
      rw [h i]
      exact entered_of_ne nofun nofun
  constructor
  · intro hall done event hpre hr
    have hstay := (hall _ hpre).stays
    rw [run_concat] at hstay
    exact left_of_recoversInLoop (hentered done) hr hstay
  · intro hnone done hpre
    refine ⟨?_, fun hhead => atHead_agrees (hentered done) hhead⟩
    change (w.run done).Stays
    induction done using List.reverseRecOn with
    | nil =>
      intro i exit _
      change (w i).standing ≠ .left exit
      rw [h i]
      exact nofun
    | append_singleton done event ih =>
      rw [run_concat]
      exact (ih ((List.prefix_append done [event]).trans hpre)).step (hnone done event hpre)

/-- Two ranks outside of Fenix that recover inline and let exceptions through. -/
def twoRanks : FinalizeWorld 2 := fun _ => ⟨⟨.throw⟩, true, .application⟩

/-- Rank `j` fails and is replaced before rank `i` or the new process has come to `Fenix_Finalize`. -/
def recovered (i j : Fin 2) : List (FinalizeEvent 2) :=
  [.fail j, .handle i, .replace j, .handle j, .agreement fun _ => false, .finalize i, .finalize j,
    .agreement fun _ => false]

theorem finalize_survives_recovered : (∀ done, done <+: recovered 0 1 → (twoRanks.run done).Survives) ∧
    ∀ i, (twoRanks.run (recovered 0 1) i).standing = .finalized := by
  refine ⟨(finalize_survives_iff (fun _ => rfl) (recovered 0 1)).mpr fun done event hpre hr => ?_, by decide⟩
  have hinit : done ∈ (recovered 0 1).inits := (List.mem_inits _ _).mpr ((List.prefix_append done [event]).trans hpre)
  cases event with
  | agreement raised =>
    obtain ⟨_, _, i, barrier, options, location, _, hs⟩ := hr
    have hall : ∀ done ∈ (recovered 0 1).inits, ∀ i, (twoRanks.run done i).standing ∈
        [.application, .dead, .recovering, .finalizing Location.finalize.bit, .finalized] := by decide
    have hin := hall done hinit i
    rw [hs] at hin
    simp at hin
  | choose => exact hr
  | finalize => exact hr
  | handle => exact hr
  | commit => exact hr
  | fail => exact hr
  | replace => exact hr

/-- A rank fails before the agreement; the other one, which waits in the loop, is thrown out of it. -/
theorem finalize_thrown : (∀ i, (twoRanks i).standing = .application) ∧
    ∃ done, done <+: [.finalize 0, .fail 1, .agreement fun _ => true, .agreement fun _ => false] ∧
      (twoRanks.run done 0).inlineRecovery = true ∧ (twoRanks.run done 0).standing = .left .exception ∧
      ¬(twoRanks.run done).Survives := by
  refine ⟨fun _ => rfl, _, List.prefix_refl _, by decide, by decide, fun h => h.stays 0 .exception ?_ ?_⟩
  · decide
  · decide

end FinalizeWorld

end Fenix
