import Fenix.RuntimeFrames

namespace Fenix

namespace FrameRuntime

variable {rt : FrameRuntime} {f g : Frame FrameRuntime} {act pre post : Nat → Frame FrameRuntime}

/-- An operation on logs has nothing to do with the options. -/
theorem mlogOp_eq (op : MlogOp) (h : rt.initFlag = true) : mlogOp op rt =
    (if (rt.mlogs.step op).1.isNone then .done else .runtimeException, { rt with mlogs := (rt.mlogs.step op).2 }) := by
  unfold mlogOp api scopedDefaultRuntimeOptions Frame.catchComm Frame.guarded
  rw [if_pos h]
  dsimp only
  generalize rt.mlogs.step op = r
  obtain ⟨error, mlogs⟩ := r
  cases error with
  | none =>
    dsimp only
    rw [h]
    rfl
  | some e =>
    dsimp only
    rw [h]
    rfl

theorem mlogOp_of_not_init (op : MlogOp) (h : rt.initFlag = false) : mlogOp op rt = (.runtimeException, rt) := by
  unfold mlogOp api scopedDefaultRuntimeOptions Frame.catchComm Frame.guarded
  rw [h, if_neg nofun]

/-- What a log that is activated at the end of a scope leaves. -/
theorem activate_done {old : Int} {rt' : FrameRuntime} (h : mlogOp (.activate old) rt = (.done, rt')) :
    rt.initFlag = true ∧ rt.mlogs.activate old = (none, rt'.mlogs) ∧ rt' = { rt with mlogs := rt'.mlogs } := by
  rcases Bool.eq_false_or_eq_true rt.initFlag with hinit | hinit
  · rw [mlogOp_eq _ hinit] at h
    change (if (rt.mlogs.activate old).1.isNone then FrameExit.done else .runtimeException,
      ({ rt with mlogs := (rt.mlogs.activate old).2 } : FrameRuntime)) = (.done, rt') at h
    obtain ⟨hexit, rfl⟩ := Prod.mk.inj h
    refine ⟨hinit, ?_, rfl⟩
    split at hexit
    next hnone => exact Prod.ext (Option.isNone_iff_eq_none.mp hnone) rfl
    next => cases hexit
  · rw [mlogOp_of_not_init _ hinit] at h
    cases h

theorem leave_mlog {old rt' : FrameRuntime} (h : leaveMlogScope old rt = some rt') :
    mlogOp (.activate old.activeMlogId) rt = (.done, rt') := by
  unfold leaveMlogScope at h
  generalize mlogOp (.activate old.activeMlogId) rt = r at h ⊢
  obtain ⟨x, s⟩ := r
  cases x with
  | done =>
    cases h
    rfl
  | commException | runtimeException | jumped | terminated => cases h

/-- What happens in the error handler, where no log is active. -/
def handling (countPre countPost : Nat) (pre post : Nat → Frame FrameRuntime) (sync : Frame FrameRuntime) :
    Frame FrameRuntime := fun rt =>
  if rt.settings.recovery = .ignore then (rt.resumeApplication, rt)
  else
    Frame.seq (callbackInvokeAll .preRecovery countPre pre)
      (Frame.seq (FrameRuntime.postinit countPost post sync) fun rt => (rt.resumeApplication, rt)) rt

theorem testMPI_eq (countPre countPost : Nat) (hinit : rt.initFlag = true) :
    testMPI countPre countPost pre post g rt = scopedActiveMlog (handling countPre countPost pre post g) rt := if_pos hinit

/-- What holds of the logs and of the calls so far if a log is only activated again at the end of a scope. -/
structure LogsInvariant (P : MlogRegistry → List CallbackEvent → Prop) : Prop where
  deactivate : ∀ {r calls}, P r calls → P r.deactivate calls
  activate : ∀ {old calls r calls'} {id : Int}, P old calls → P r calls' → id = mlogNone ∨ id = old.activeMlogId →
    P (r.activate id).2 calls'
  called : ∀ {r calls} (call : CallbackEvent), P r calls →
    call.activeMlogId = mlogNone ∨ call.activeMlogId = r.activeMlogId → P r (calls ++ [call])
  empty : ∀ {r calls} (overloadsLinked : Bool), P r calls → P (.empty overloadsLinked) calls

def LogsHave (P : MlogRegistry → List CallbackEvent → Prop) (rt : FrameRuntime) : Prop := P rt.mlogs rt.calls

theorem activeMlogId_cases (rt : FrameRuntime) :
    rt.activeMlogId = mlogNone ∨ rt.activeMlogId = rt.mlogs.activeMlogId := by
  unfold FrameRuntime.activeMlogId
  split
  next => exact Or.inl rfl
  next => exact Or.inr rfl

section Keeps

variable {P : MlogRegistry → List CallbackEvent → Prop}

theorem keeps_defaults (h : f.Keeps (LogsHave P)) : (scopedDefaultRuntimeOptions f).Keeps (LogsHave P) :=
  h.guarded (fun _ hs => hs) fun _ _ _ _ hs' heq => by
    cases heq
    exact hs'

theorem keeps_ignoreAndReturn (h : f.Keeps (LogsHave P)) : (scopedIgnoreAndReturn f).Keeps (LogsHave P) :=
  h.guarded (fun _ hs => hs) fun _ _ _ _ hs' heq => by
    cases heq
    exact hs'

theorem keeps_api (h : f.Keeps (LogsHave P)) : (api f).Keeps (LogsHave P) :=
  (keeps_defaults h).catchComm fun _ hs => hs

theorem keeps_mlogOp {op : MlogOp} (h : ∀ r calls, P r calls → P (r.step op).2 calls) :
    (mlogOp op).Keeps (LogsHave P) := by
  intro rt hrt
  cases hinit : rt.initFlag with
  | false => exact (mlogOp_of_not_init op hinit).symm ▸ hrt
  | true => exact (mlogOp_eq op hinit).symm ▸ h _ _ hrt

theorem keeps_skip : (Frame.skip : Frame FrameRuntime).Keeps (LogsHave P) := fun _ hs => hs

variable (inv : LogsInvariant P)

include inv

theorem keeps_scopedMlog (h : f.Keeps (LogsHave P)) : (scopedActiveMlog f).Keeps (LogsHave P) := by
  refine h.guarded (fun _ hs => inv.deactivate hs) fun s s' s'' hs hs' heq => ?_
  obtain ⟨_, hactivated, hsame⟩ := activate_done (leave_mlog heq)
  have hkept := inv.activate hs hs' (activeMlogId_cases s)
  rw [hactivated] at hkept
  rw [hsame]
  exact hkept

theorem keeps_callbackLoop (loc : CallbackLocation) (layer : Nat) (h : ∀ i, (act i).Keeps (LogsHave P))
    (i count : Nat) : (callbackLoop loc layer act i count).Keeps (LogsHave P) := by
  induction count generalizing i with
  | zero => exact keeps_skip
  | succ count ih =>
    intro rt hrt
    unfold callbackLoop
    split
    next => exact hrt
    next =>
      have hcalled : Frame.Keeps (Frame.modify fun rt : FrameRuntime =>
          { rt with calls := rt.calls ++ [⟨loc, rt.activeMlogId⟩] }) (LogsHave P) :=
        fun s hs => inv.called ⟨loc, s.activeMlogId⟩ hs (activeMlogId_cases s)
      exact (keeps_scopedMlog inv keeps_skip).seq (hcalled.seq ((h i).seq (ih (i + 1)))) rt hrt

omit inv in
theorem leaveCallbacks_logsHave {layer : Nat} (h : LogsHave P rt) : LogsHave P (leaveCallbacks layer rt) := by
  unfold leaveCallbacks
  split <;> exact h

theorem keeps_callLayer (loc : CallbackLocation) (count : Nat) (h : ∀ i, (act i).Keeps (LogsHave P)) :
    (callLayer loc count act).Keeps (LogsHave P) := by
  intro rt hrt
  have hloop := keeps_callbackLoop inv loc rt.callbacksDepth h 0 count
    { rt with callbacksDepth := rt.callbacksDepth + 1 } hrt
  unfold callLayer
  dsimp only
  generalize callbackLoop loc rt.callbacksDepth act 0 count { rt with callbacksDepth := rt.callbacksDepth + 1 } = r
    at hloop ⊢
  obtain ⟨x, s⟩ := r
  cases x with
  | done => exact leaveCallbacks_logsHave hloop
  | commException =>
    dsimp only
    split
    next => exact leaveCallbacks_logsHave hloop
    next => exact leaveCallbacks_logsHave hloop
  | runtimeException | jumped | terminated => exact hloop

theorem keeps_invokeAll (loc : CallbackLocation) (count : Nat) (h : ∀ i, (act i).Keeps (LogsHave P)) :
    (callbackInvokeAll loc count act).Keeps (LogsHave P) :=
  keeps_api (keeps_callLayer inv loc count h)

theorem keeps_postinit (count : Nat) (h : ∀ i, (post i).Keeps (LogsHave P)) (hsync : g.Keeps (LogsHave P)) :
    (postinit count post g).Keeps (LogsHave P) := by
  intro rt hrt
  unfold postinit
  split
  next => exact hrt
  next =>
    refine keeps_scopedMlog inv ((keeps_invokeAll inv _ count h).seq fun s hs => ?_) rt hrt
    split
    next => exact hsync s hs
    next => exact hs

theorem keeps_handling (countPre countPost : Nat) (hpre : ∀ i, (pre i).Keeps (LogsHave P))
    (hpost : ∀ i, (post i).Keeps (LogsHave P)) (hsync : g.Keeps (LogsHave P)) :
    (handling countPre countPost pre post g).Keeps (LogsHave P) := by
  intro rt hrt
  unfold handling
  split
  next => exact hrt
  next =>
    exact (keeps_invokeAll inv _ countPre hpre).seq ((keeps_postinit inv countPost hpost hsync).seq fun _ hs => hs) rt hrt

theorem keeps_testMPI (countPre countPost : Nat) (hpre : ∀ i, (pre i).Keeps (LogsHave P))
    (hpost : ∀ i, (post i).Keeps (LogsHave P)) (hsync : g.Keeps (LogsHave P)) :
    (testMPI countPre countPost pre post g).Keeps (LogsHave P) := by
  intro rt hrt
  cases hinit : rt.initFlag with
  | true =>
    rw [testMPI_eq countPre countPost hinit]
    exact keeps_scopedMlog inv (keeps_handling inv countPre countPost hpre hpost hsync) rt hrt
  | false =>
    unfold testMPI
    rw [hinit]
    exact hrt

theorem keeps_testUnhandled : testUnhandled.Keeps (LogsHave P) := by
  intro rt hrt
  unfold testUnhandled
  split
  next =>
    refine keeps_scopedMlog inv (fun s hs => ?_) rt hrt
    split
    next => exact hs
    next => exact hs
  next => exact hrt

omit inv in
theorem keeps_logged (hf : f.Keeps (LogsHave P)) (hg : g.Keeps (LogsHave P)) : (logged f g).Keeps (LogsHave P) := by
  refine (keeps_defaults hf).catchComm fun s hs => ?_
  split
  next => exact hs
  next => exact hg s hs

theorem keeps_reenter (count : Nat) {again : Frame FrameRuntime} (hf : f.Keeps (LogsHave P))
    (hpost : ∀ i, (post i).Keeps (LogsHave P)) (hsync : g.Keeps (LogsHave P)) (hagain : again.Keeps (LogsHave P)) :
    (reenter f count post g again).Keeps (LogsHave P) := by
  intro rt hrt
  have hbody := hf rt hrt
  unfold reenter
  generalize f rt = r at hbody ⊢
  obtain ⟨x, s⟩ := r
  cases x with
  | jumped => exact (keeps_postinit inv count hpost hsync).seq hagain s hbody
  | done | commException | runtimeException | terminated => exact hbody

omit inv in
theorem keeps_setOption (setting option : Nat) : (setOption setting option).Keeps (LogsHave P) := by
  intro rt hrt
  unfold setOption
  split <;> split <;> exact hrt

end Keeps

end FrameRuntime

namespace FrameCode

open FrameRuntime

/-- The operations on logs in a piece of code, its callbacks included, are of a kind. -/
def LogOps (kind : MlogOp → Prop) : FrameCode → Prop
  | .skip | .throwRuntime | .unhandled | .finalize | .setOption .. => True
  | .mlog op => kind op
  | .api body | .ignoreAndReturn body | .scopedMlog body => body.LogOps kind
  | .seq first next | .catchComm first next | .logged first next => first.LogOps kind ∧ next.LogOps kind
  | .invokeAll _ _ callbacks => ∀ i, (callbacks i).LogOps kind
  | .fails _ _ pre post sync => (∀ i, (pre i).LogOps kind) ∧ (∀ i, (post i).LogOps kind) ∧ sync.LogOps kind
  | .reenter body _ post sync again =>
    body.LogOps kind ∧ (∀ i, (post i).LogOps kind) ∧ sync.LogOps kind ∧ again.LogOps kind

variable {P : MlogRegistry → List CallbackEvent → Prop} {kind : MlogOp → Prop}

/-- Code keeps what all its operations on logs keep. -/
theorem eval_keeps (inv : LogsInvariant P) (hops : ∀ op, kind op → ∀ r calls, P r calls → P (r.step op).2 calls)
    {c : FrameCode} (h : c.LogOps kind) : c.eval.Keeps (LogsHave P) := by
  induction c with
  | skip => exact keeps_skip
  | seq _ _ ih₁ ih₂ => exact (ih₁ h.1).seq (ih₂ h.2)
  | setOption setting option => exact keeps_setOption setting option
  | mlog op => exact keeps_mlogOp (hops op h)
  | throwRuntime => exact fun _ hs => hs
  | api _ ih => exact keeps_api (ih h)
  | ignoreAndReturn _ ih => exact keeps_ignoreAndReturn (ih h)
  | scopedMlog _ ih => exact keeps_scopedMlog inv (ih h)
  | catchComm _ _ ih₁ ih₂ => exact (ih₁ h.1).catchComm (ih₂ h.2)
  | invokeAll loc count _ ih => exact keeps_invokeAll inv loc count fun i => ih i (h i)
  | fails countPre countPost _ _ _ ihpre ihpost ihsync =>
    exact keeps_testMPI inv countPre countPost (fun i => ihpre i (h.1 i)) (fun i => ihpost i (h.2.1 i)) (ihsync h.2.2)
  | unhandled => exact keeps_testUnhandled inv
  | logged _ _ ih₁ ih₂ => exact keeps_logged (ih₁ h.1) (ih₂ h.2)
  | finalize => exact fun rt hs => inv.empty rt.mlogs.overloadsLinked hs
  | reenter _ count _ _ _ ihbody ihpost ihsync ihagain =>
    exact keeps_reenter inv count (ihbody h.1) (fun i => ihpost i (h.2.1 i)) (ihsync h.2.2.1) (ihagain h.2.2.2)

theorem logOps_any (c : FrameCode) : c.LogOps fun _ => True := by
  induction c with
  | skip | setOption _ _ | mlog _ | throwRuntime | unhandled | finalize => exact trivial
  | seq _ _ ih₁ ih₂ | catchComm _ _ ih₁ ih₂ | logged _ _ ih₁ ih₂ => exact ⟨ih₁, ih₂⟩
  | api _ ih | ignoreAndReturn _ ih | scopedMlog _ ih => exact ih
  | invokeAll _ _ _ ih => exact ih
  | fails _ _ _ _ _ ihpre ihpost ihsync => exact ⟨ihpre, ihpost, ihsync⟩
  | reenter _ _ _ _ _ ihbody ihpost ihsync ihagain => exact ⟨ihbody, ihpost, ihsync, ihagain⟩

theorem coherent_invariant : LogsInvariant fun r _ => r.Coherent where
  deactivate h := h.deactivate
  activate _ h _ := h.activate _
  called _ h _ := h
  empty overloadsLinked _ := MlogRegistry.empty_coherent overloadsLinked

theorem eval_coherent (c : FrameCode) {rt : FrameRuntime} (h : rt.mlogs.Coherent) : (c.eval rt).2.mlogs.Coherent :=
  eval_keeps coherent_invariant (fun op _ _ _ hr => hr.step op) c.logOps_any rt h

/-- Whatever an application does after `Fenix_Init`, and however failures, exceptions and jumps cut it off, the active
log is the one with the active id, and the order in which logs are synchronised has each of them once. -/
theorem run_coherent (c : FrameCode) (settings : Settings) (overloadsLinked : Bool) :
    (c.eval (started settings (.empty overloadsLinked))).2.mlogs.Coherent :=
  c.eval_coherent (MlogRegistry.empty_coherent overloadsLinked)

end FrameCode

end Fenix
