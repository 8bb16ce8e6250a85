import Fenix.FrameJumps

namespace Fenix

namespace FrameRuntime

variable {rt rt' rt'' : FrameRuntime} {x y : FrameExit} {f g : Frame FrameRuntime}
  {act pre post : Nat → Frame FrameRuntime}

/-- The library is in use, and its message logs are coherent. -/
structure Live (rt : FrameRuntime) : Prop where
  initFlag : rt.initFlag = true
  finalized : rt.finalized = false
  coherent : rt.mlogs.Coherent

/-- A frame that has nothing to do with message logs: if it is unwound they are as before, else none may be active. The
callbacks in it find the active log, or none. -/
structure LeftAlone (rt : FrameRuntime) (x : FrameExit) (rt' : FrameRuntime) : Prop where
  live : rt'.Live
  mlogs : rt'.mlogs = rt.mlogs ∨ x.unwinds = false ∧ rt'.mlogs = rt.mlogs.deactivate
  calls : ∃ calls, rt'.calls = rt.calls ++ calls ∧
    ∀ call ∈ calls, call.activeMlogId = mlogNone ∨ call.activeMlogId = rt.mlogs.activeMlogId

def LeavesLogs (f : Frame FrameRuntime) : Prop := ∀ rt : FrameRuntime, rt.Live → LeftAlone rt (f rt).1 (f rt).2

theorem Live.activeMlogId (h : rt.Live) : rt.activeMlogId = rt.mlogs.activeMlogId :=
  if_neg (Bool.eq_false_iff.mp h.finalized)

theorem LeftAlone.refl (h : rt.Live) (x : FrameExit) : LeftAlone rt x rt :=
  ⟨h, Or.inl rfl, [], (List.append_nil _).symm, fun _ hc => absurd hc List.not_mem_nil⟩

/-- What does not concern logs does not matter. -/
theorem LeftAlone.of_eq {s : FrameRuntime} (h : LeftAlone s x rt') (hmlogs : s.mlogs = rt.mlogs)
    (hcalls : s.calls = rt.calls) : LeftAlone rt x rt' := by
  obtain ⟨calls, heq, hfound⟩ := h.calls
  exact ⟨h.live, hmlogs ▸ h.mlogs, calls, hcalls ▸ heq, hmlogs ▸ hfound⟩

theorem LeftAlone.to_eq {s : FrameRuntime} (h : LeftAlone rt x rt') (hinit : s.initFlag = rt'.initFlag)
    (hfinal : s.finalized = rt'.finalized) (hmlogs : s.mlogs = rt'.mlogs) (hcalls : s.calls = rt'.calls) :
    LeftAlone rt x s :=
  ⟨⟨hinit.trans h.live.initFlag, hfinal.trans h.live.finalized, hmlogs ▸ h.live.coherent⟩, hmlogs ▸ h.mlogs,
    hcalls ▸ h.calls⟩

theorem LeftAlone.exit (h : LeftAlone rt x rt') (hx : x.unwinds = true) (y : FrameExit) : LeftAlone rt y rt' :=
  ⟨h.live, h.mlogs.imp_right fun hno => absurd (hno.1.symm.trans hx) nofun, h.calls⟩

theorem LeftAlone.trans (h : LeftAlone rt x rt') (hx : x.unwinds = true) (h' : LeftAlone rt' y rt'') :
    LeftAlone rt y rt'' := by
  have hsame : rt'.mlogs = rt.mlogs := h.mlogs.resolve_right fun hno => absurd (hno.1.symm.trans hx) nofun
  obtain ⟨calls, heq, hfound⟩ := h.calls
  obtain ⟨calls', heq', hfound'⟩ := h'.calls
  refine ⟨h'.live, hsame ▸ h'.mlogs, calls ++ calls', by rw [heq', heq, List.append_assoc], fun call hc => ?_⟩
  rcases List.mem_append.mp hc with hc | hc
  · exact hfound call hc
  · exact hsame ▸ hfound' call hc

theorem leavesLogs_throw (x : FrameExit) : LeavesLogs (Frame.throw x) := fun _ h => .refl h x

theorem leavesLogs_exit (x : FrameRuntime → FrameExit) : LeavesLogs fun rt => (x rt, rt) := fun _ h => .refl h _

theorem LeavesLogs.seq (hf : LeavesLogs f) (hg : LeavesLogs g) : LeavesLogs (Frame.seq f g) := by
  intro rt h
  have hfirst := hf rt h
  rcases Frame.seq_cases f g rt with ⟨hdone, heq⟩ | ⟨_, heq⟩
  · rw [heq]
    rw [hdone] at hfirst
    exact hfirst.trans rfl (hg _ hfirst.live)
  · exact heq ▸ hfirst

theorem LeavesLogs.catchComm (hf : LeavesLogs f) (hg : LeavesLogs g) : LeavesLogs (Frame.catchComm f g) := by
  intro rt h
  have hfirst := hf rt h
  rcases Frame.catchComm_cases f g rt with ⟨hcomm, heq⟩ | ⟨_, heq⟩
  · rw [heq]
    rw [hcomm] at hfirst
    exact hfirst.trans rfl (hg _ hfirst.live)
  · exact heq ▸ hfirst

/-- A scope that sets options. -/
theorem LeavesLogs.options (hf : LeavesLogs f) {enter : FrameRuntime → FrameRuntime}
    {leave : FrameRuntime → FrameRuntime → FrameRuntime}
    (henter : ∀ rt, enter rt = { rt with settings := (enter rt).settings })
    (hleave : ∀ old rt, leave old rt = { rt with settings := (leave old rt).settings }) :
    LeavesLogs (Frame.guarded FrameRuntime.initFlag enter (fun old rt => some (leave old rt)) f) := by
  intro rt h
  have hentered : (enter rt).Live ∧ (enter rt).mlogs = rt.mlogs ∧ (enter rt).calls = rt.calls := by
    rw [henter rt]
    exact ⟨⟨h.initFlag, h.finalized, h.coherent⟩, rfl, rfl⟩
  have hbody := (hf _ hentered.1).of_eq hentered.2.1 hentered.2.2
  rcases Frame.guarded_cases FrameRuntime.initFlag enter (fun old rt => some (leave old rt)) f rt with
    ⟨_, heq⟩ | ⟨_, ⟨_, heq⟩ | ⟨_, _, ⟨s', hs', heq⟩ | ⟨hno, _⟩⟩⟩
  · exact heq ▸ .refl h _
  · exact heq ▸ hbody
  · rw [heq]
    cases hs'
    rw [hleave rt]
    exact hbody.to_eq rfl rfl rfl rfl
  · cases hno

theorem LeavesLogs.defaults (hf : LeavesLogs f) : LeavesLogs (scopedDefaultRuntimeOptions f) :=
  hf.options (fun _ => rfl) fun _ _ => rfl

theorem LeavesLogs.ignoreAndReturn (hf : LeavesLogs f) : LeavesLogs (scopedIgnoreAndReturn f) :=
  hf.options (fun _ => rfl) fun _ _ => rfl

theorem LeavesLogs.api (hf : LeavesLogs f) : LeavesLogs (api f) := hf.defaults.catchComm (leavesLogs_exit _)

theorem deactivate_activate {r : MlogRegistry} (h : r.Coherent) : r.deactivate.activate r.activeMlogId = (none, r) :=
  h.activate_self

/-- The old log is found again at the end of a scope. -/
theorem leave_eq (h : rt.Live) (hinit : rt'.initFlag = true) (hmlogs : rt'.mlogs = rt.mlogs.deactivate) :
    leaveMlogScope rt rt' = some { rt' with mlogs := rt.mlogs } := by
  have hstep : rt'.mlogs.step (.activate rt.activeMlogId) = (none, rt.mlogs) := by
    rw [hmlogs, h.activeMlogId]
    exact deactivate_activate h.coherent
  unfold leaveMlogScope
  rw [mlogOp_eq _ hinit, hstep]
  rfl

theorem scope_left (h : rt.Live) (hs : LeftAlone (enterMlogScope rt) x rt')
    (hx : x.unwinds = true) : leaveMlogScope rt rt' = some { rt' with mlogs := rt.mlogs } :=
  leave_eq h hs.live.initFlag (hs.mlogs.resolve_right fun hno => absurd (hno.1.symm.trans hx) nofun)

/-- In a scope in which no log is active callbacks find none. -/
theorem scopedMlog_alone (hf : LeavesLogs f) (h : rt.Live) :
    LeftAlone rt (scopedActiveMlog f rt).1 (scopedActiveMlog f rt).2 ∧
      (∃ calls, (scopedActiveMlog f rt).2.calls = rt.calls ++ calls ∧
        ∀ call ∈ calls, call.activeMlogId = mlogNone) ∧
      ((scopedActiveMlog f rt).1.unwinds = false → (scopedActiveMlog f rt).2.mlogs = rt.mlogs.deactivate) := by
  have hinner : (enterMlogScope rt).Live := ⟨h.initFlag, h.finalized, h.coherent.deactivate⟩
  have hbody := hf _ hinner
  have hcalls : ∃ calls, (f (enterMlogScope rt)).2.calls = rt.calls ++ calls ∧
      ∀ call ∈ calls, call.activeMlogId = mlogNone := by
    obtain ⟨calls, heq, hfound⟩ := hbody.calls
    exact ⟨calls, heq, fun call hc => (hfound call hc).elim id id⟩
  have houter : ∀ {x : FrameExit} {s : FrameRuntime}, s.Live →
      (s.mlogs = rt.mlogs ∨ x.unwinds = false ∧ s.mlogs = rt.mlogs.deactivate) →
      s.calls = (f (enterMlogScope rt)).2.calls → LeftAlone rt x s := by
    intro x s hlive hmlogs heq
    obtain ⟨calls, hsame, hfound⟩ := hcalls
    exact ⟨hlive, hmlogs, calls, heq.trans hsame, fun call hc => Or.inl (hfound call hc)⟩
  unfold scopedActiveMlog
  rcases Frame.guarded_cases FrameRuntime.initFlag enterMlogScope leaveMlogScope f rt with
    ⟨hno, _⟩ | ⟨_, ⟨hrun, heq⟩ | ⟨hunwinds, _, ⟨s', hs', heq⟩ | ⟨hno, _⟩⟩⟩
  · rw [h.initFlag] at hno
    cases hno
  · rw [heq]
    rw [hbody.live.initFlag, Bool.and_true] at hrun
    have hdeactivated : (f (enterMlogScope rt)).2.mlogs = rt.mlogs.deactivate :=
      hbody.mlogs.elim id fun hno => hno.2
    exact ⟨houter hbody.live (Or.inr ⟨hrun, hdeactivated⟩) rfl, hcalls, fun _ => hdeactivated⟩
  · rw [heq]
    rw [scope_left h hbody hunwinds] at hs'
    cases hs'
    exact ⟨houter ⟨hbody.live.initFlag, hbody.live.finalized, h.coherent⟩ (Or.inl rfl) rfl, hcalls,
      fun hno => absurd (hno.symm.trans hunwinds) nofun⟩
  · rw [scope_left h hbody hunwinds] at hno
    cases hno

theorem LeavesLogs.scopedMlog (hf : LeavesLogs f) : LeavesLogs (scopedActiveMlog f) :=
  fun _ h => (scopedMlog_alone hf h).1

/-- A temporary scope leaves no trace. -/
theorem scopedMlog_skip (h : rt.Live) : scopedActiveMlog Frame.skip rt = (.done, rt) := by
  have hinner : (enterMlogScope rt).Live := ⟨h.initFlag, h.finalized, h.coherent.deactivate⟩
  have hrun : (FrameExit.done.unwinds && (enterMlogScope rt).initFlag) = true := hinner.initFlag
  unfold scopedActiveMlog Frame.guarded Frame.skip
  rw [if_pos h.initFlag]
  dsimp only
  rw [if_pos hrun, scope_left h (.refl hinner .done) rfl]
  rfl

theorem callbackLoop_succ (loc : CallbackLocation) (layer i count : Nat) (h : rt.Live)
    (hdepth : rt.callbacksDepth = layer + 1) : callbackLoop loc layer act i (count + 1) rt =
      Frame.seq (act i) (callbackLoop loc layer act (i + 1) count)
        { rt with calls := rt.calls ++ [⟨loc, rt.mlogs.activeMlogId⟩] } := by
  refine (if_neg fun hne => hne hdepth).trans ?_
  rw [Frame.seq_done (scopedMlog_skip h), Frame.seq_modify, h.activeMlogId]

theorem LeavesLogs.callbackLoop (loc : CallbackLocation) (layer : Nat) (hact : ∀ i, LeavesLogs (act i)) (i count : Nat) :
    LeavesLogs (callbackLoop loc layer act i count) := by
  induction count generalizing i with
  | zero => exact leavesLogs_throw .done
  | succ count ih =>
    intro rt h
    by_cases hdepth : rt.callbacksDepth = layer + 1
    · rw [callbackLoop_succ loc layer i count h hdepth]
      have hcalled : LeftAlone rt .done { rt with calls := rt.calls ++ [⟨loc, rt.mlogs.activeMlogId⟩] } := by
        refine ⟨⟨h.initFlag, h.finalized, h.coherent⟩, Or.inl rfl, _, rfl, fun call hc => Or.inr ?_⟩
        rw [List.mem_singleton.mp hc]
      exact hcalled.trans rfl ((hact i).seq (ih (i + 1)) _ hcalled.live)
    · unfold FrameRuntime.callbackLoop
      rw [if_pos hdepth]
      exact .refl h _

theorem LeftAlone.leaveCallbacks (h : LeftAlone rt x rt') (layer : Nat) : LeftAlone rt x (leaveCallbacks layer rt') := by
  unfold FrameRuntime.leaveCallbacks
  split
  next => exact h.to_eq rfl rfl rfl rfl
  next => exact h

theorem LeavesLogs.invokeAll (loc : CallbackLocation) (count : Nat) (hact : ∀ i, LeavesLogs (act i)) :
    LeavesLogs (callbackInvokeAll loc count act) := by
  apply LeavesLogs.api
  intro rt h
  have hloop : LeftAlone rt _ _ := (LeavesLogs.callbackLoop loc rt.callbacksDepth hact 0 count
    { rt with callbacksDepth := rt.callbacksDepth + 1 } ⟨h.initFlag, h.finalized, h.coherent⟩).of_eq rfl rfl
  unfold callLayer
  dsimp only
  generalize FrameRuntime.callbackLoop loc rt.callbacksDepth act 0 count
    { rt with callbacksDepth := rt.callbacksDepth + 1 } = r at hloop ⊢
  obtain ⟨x, s⟩ := r
  cases x with
  | done => exact hloop.leaveCallbacks _
  | commException =>
    dsimp only
    split
    next => exact hloop.leaveCallbacks _
    next => exact (hloop.leaveCallbacks _).exit rfl _
  | runtimeException | jumped | terminated => exact hloop

theorem LeavesLogs.postinit (count : Nat) (hpost : ∀ i, LeavesLogs (post i)) (hsync : LeavesLogs g) :
    LeavesLogs (postinit count post g) := by
  intro rt h
  unfold FrameRuntime.postinit
  split
  next => exact .refl h _
  next =>
    refine ((LeavesLogs.invokeAll _ count hpost).seq fun s hs => ?_).scopedMlog rt h
    split
    next => exact hsync s hs
    next => exact .refl hs _

theorem LeavesLogs.handling (countPre countPost : Nat) (hpre : ∀ i, LeavesLogs (pre i))
    (hpost : ∀ i, LeavesLogs (post i)) (hsync : LeavesLogs g) :
    LeavesLogs (handling countPre countPost pre post g) := by
  intro rt h
  unfold FrameRuntime.handling
  split
  next => exact .refl h _
  next =>
    exact (LeavesLogs.invokeAll _ countPre hpre).seq ((LeavesLogs.postinit countPost hpost hsync).seq
      (leavesLogs_exit _)) rt h

theorem LeavesLogs.testMPI (countPre countPost : Nat) (hpre : ∀ i, LeavesLogs (pre i))
    (hpost : ∀ i, LeavesLogs (post i)) (hsync : LeavesLogs g) : LeavesLogs (testMPI countPre countPost pre post g) := by
  intro rt h
  rw [testMPI_eq _ _ h.initFlag]
  exact (LeavesLogs.handling countPre countPost hpre hpost hsync).scopedMlog rt h

theorem LeavesLogs.testUnhandled : LeavesLogs testUnhandled := by
  intro rt h
  unfold FrameRuntime.testUnhandled
  rw [if_pos h.initFlag]
  refine LeavesLogs.scopedMlog (fun s hs => ?_) rt h
  split
  next => exact .refl hs _
  next => exact .refl hs _

theorem LeavesLogs.logged (hf : LeavesLogs f) (hg : LeavesLogs g) : LeavesLogs (logged f g) := by
  refine hf.defaults.catchComm fun s hs => ?_
  split
  next => exact .refl hs _
  next => exact hg s hs

theorem LeavesLogs.setOption (setting option : Nat) : LeavesLogs (setOption setting option) := by
  intro rt h
  unfold FrameRuntime.setOption
  rw [if_pos h.initFlag]
  split
  next => exact (LeftAlone.refl h .done).to_eq rfl rfl rfl rfl
  next => exact .refl h _

end FrameRuntime

namespace FrameCode

open FrameRuntime

/-- Code that does nothing with message logs, and ends neither the library nor a jump. -/
def LogFree : FrameCode → Prop
  | .skip | .throwRuntime | .unhandled | .setOption .. => True
  | .mlog _ | .finalize | .reenter .. => False
  | .api body | .ignoreAndReturn body | .scopedMlog body => body.LogFree
  | .seq first next | .catchComm first next | .logged first next => first.LogFree ∧ next.LogFree
  | .invokeAll _ _ callbacks => ∀ i, (callbacks i).LogFree
  | .fails _ _ pre post sync => (∀ i, (pre i).LogFree) ∧ (∀ i, (post i).LogFree) ∧ sync.LogFree

theorem eval_leavesLogs {c : FrameCode} (h : c.LogFree) : LeavesLogs c.eval := by
  induction c with
  | skip => exact leavesLogs_throw .done
  | seq _ _ ih₁ ih₂ => exact (ih₁ h.1).seq (ih₂ h.2)
  | setOption setting option => exact .setOption setting option
  | mlog _ => exact h.elim
  | throwRuntime => exact leavesLogs_throw .runtimeException
  | api _ ih => exact (ih h).api
  | ignoreAndReturn _ ih => exact (ih h).ignoreAndReturn
  | scopedMlog _ ih => exact (ih h).scopedMlog
  | catchComm _ _ ih₁ ih₂ => exact (ih₁ h.1).catchComm (ih₂ h.2)
  | invokeAll loc count _ ih => exact .invokeAll loc count fun i => ih i (h i)
  | fails countPre countPost _ _ _ ihpre ihpost ihsync =>
    exact .testMPI countPre countPost (fun i => ihpre i (h.1 i)) (fun i => ihpost i (h.2.1 i)) (ihsync h.2.2)
  | unhandled => exact .testUnhandled
  | logged _ _ ih₁ ih₂ => exact (ih₁ h.1).logged (ih₂ h.2)
  | finalize => exact h.elim
  | reenter => exact h.elim

variable {rt : FrameRuntime} {countPre countPost : Nat} {pre post : Nat → FrameCode} {sync : FrameCode}

/-- Whatever the callbacks of a recovery do, a failure that is left by an exception or a return leaves the log active
that was so before. One that is left by a jump leaves none active, if they do nothing with logs. -/
theorem failure_mlog (h : rt.Live) :
    (((FrameCode.fails countPre countPost pre post sync).eval rt).1.unwinds = true →
      ((FrameCode.fails countPre countPost pre post sync).eval rt).2.initFlag = true →
      ((FrameCode.fails countPre countPost pre post sync).eval rt).2.mlogs.activeMlogId = rt.mlogs.activeMlogId) ∧
    ((FrameCode.fails countPre countPost pre post sync).LogFree →
      (((FrameCode.fails countPre countPost pre post sync).eval rt).2.mlogs.activeMlogId = rt.mlogs.activeMlogId ↔
        ((FrameCode.fails countPre countPost pre post sync).eval rt).1.unwinds = true ∨
          rt.mlogs.activeMlogId = mlogNone) ∧
      (((FrameCode.fails countPre countPost pre post sync).eval rt).1.unwinds = false →
        ((FrameCode.fails countPre countPost pre post sync).eval rt).2.mlogs.activeMlogId = mlogNone)) := by
  generalize hr : (FrameCode.fails countPre countPost pre post sync).eval rt = r
  have heval : scopedActiveMlog (handling countPre countPost (fun i => (pre i).eval) (fun i => (post i).eval) sync.eval)
      rt = r := (testMPI_eq countPre countPost h.initFlag).symm.trans hr
  constructor
  · intro hunwinds hthere
    unfold scopedActiveMlog at heval
    rcases Frame.guarded_cases FrameRuntime.initFlag enterMlogScope leaveMlogScope
        (handling countPre countPost (fun i => (pre i).eval) (fun i => (post i).eval) sync.eval) rt with
      ⟨hno, _⟩ | ⟨_, ⟨hrun, heq⟩ | ⟨_, _, ⟨s', hs', heq⟩ | ⟨_, heq⟩⟩⟩
    · rw [h.initFlag] at hno
      cases hno
    · cases heval.symm.trans heq
      rw [hunwinds, hthere] at hrun
      cases hrun
    · cases heval.symm.trans heq
      obtain ⟨_, hactivated, _⟩ := activate_done (leave_mlog hs')
      rw [← h.activeMlogId]
      exact MlogRegistry.activate_eq hactivated
    · cases heval.symm.trans heq
      cases hunwinds
  · intro hfree
    have hleft := eval_leavesLogs hfree rt h
    obtain ⟨_, _, hdeactivated⟩ := scopedMlog_alone (LeavesLogs.handling countPre countPost
      (fun i => eval_leavesLogs (hfree.1 i)) (fun i => eval_leavesLogs (hfree.2.1 i)) (eval_leavesLogs hfree.2.2)) h
    rw [hr] at hleft
    rw [heval] at hdeactivated
    cases hunwinds : r.1.unwinds with
    | true =>
      have hsame : r.2.mlogs = rt.mlogs :=
        hleft.mlogs.resolve_right fun hno => absurd (hno.1.symm.trans hunwinds) nofun
      rw [hsame]
      exact ⟨⟨fun _ => Or.inl rfl, fun _ => rfl⟩, nofun⟩
    | false =>
      rw [hdeactivated hunwinds]
      exact ⟨⟨fun heq => Or.inr heq.symm, fun hor => (hor.resolve_left nofun).symm⟩, fun _ => rfl⟩

theorem started_live {settings : Settings} {mlogs : MlogRegistry} (h : mlogs.Coherent) :
    (started settings mlogs).Live :=
  ⟨rfl, rfl, h⟩

/-- A jump loses the active log, an exception does not. -/
theorem failure_mlog_pair :
    ((FrameCode.fails 1 1 (fun _ => .skip) (fun _ => .skip) .skip).eval
      (started { resume := .jump } (((MlogRegistry.empty true).create 5).2.activate 5).2)).2.mlogs.activeMlogId ≠ 5 ∧
    ((FrameCode.fails 1 1 (fun _ => .skip) (fun _ => .skip) .skip).eval
      (started { resume := .throw } (((MlogRegistry.empty true).create 5).2.activate 5).2)).2.mlogs.activeMlogId = 5 := by
  have hlogs : (((MlogRegistry.empty true).create 5).2.activate 5).2.Coherent :=
    ((MlogRegistry.empty_coherent true).create 5).activate 5
  have hfree : (FrameCode.fails 1 1 (fun _ => .skip) (fun _ => .skip) .skip).LogFree :=
    ⟨fun _ => trivial, fun _ => trivial, trivial⟩
  constructor
  · intro heq
    rcases ((failure_mlog (started_live hlogs)).2 hfree).1.mp heq with hunwinds | hnone
    · exact absurd hunwinds (by decide +kernel)
    · exact absurd hnone (by decide +kernel)
  · exact ((failure_mlog (started_live hlogs)).2 hfree).1.mpr (Or.inl (by decide +kernel))

theorem api_calls {f : Frame FrameRuntime} (hinit : rt.initFlag = true) : (FrameRuntime.api f rt).2.calls =
    (f { rt with settings := { rt.settings with resume := .throw, unhandled := .abort } }).2.calls := by
  have hscope : (scopedDefaultRuntimeOptions f rt).2.calls =
      (f { rt with settings := { rt.settings with resume := .throw, unhandled := .abort } }).2.calls := by
    unfold scopedDefaultRuntimeOptions
    rcases Frame.guarded_cases FrameRuntime.initFlag
        (fun rt => { rt with settings := { rt.settings with resume := .throw, unhandled := .abort } })
        (fun old rt => some { rt with settings := { rt.settings with
          resume := old.settings.resume, unhandled := old.settings.unhandled } }) f rt with
      ⟨hno, _⟩ | ⟨_, ⟨_, heq⟩ | ⟨_, _, ⟨s', hs', heq⟩ | ⟨hno, _⟩⟩⟩
    · rw [hinit] at hno
      cases hno
    · rw [heq]
    · rw [heq]
      cases hs'
      rfl
    · cases hno
  rcases api_cases f rt with ⟨_, heq⟩ | ⟨_, heq⟩
  · exact heq ▸ hscope
  · exact heq ▸ hscope

theorem leaveCallbacks_calls (layer : Nat) (rt : FrameRuntime) : (leaveCallbacks layer rt).calls = rt.calls := by
  unfold leaveCallbacks
  split <;> rfl

/-- What callbacks that are invoked find is what their loop says. -/
theorem invokeAll_calls (loc : CallbackLocation) (count : Nat) (act : Nat → Frame FrameRuntime)
    (hinit : rt.initFlag = true) : (FrameRuntime.callbackInvokeAll loc count act rt).2.calls =
      (callbackLoop loc rt.callbacksDepth act 0 count { rt with
        settings := { rt.settings with resume := .throw, unhandled := .abort }
        callbacksDepth := rt.callbacksDepth + 1 }).2.calls := by
  unfold FrameRuntime.callbackInvokeAll
  rw [api_calls hinit]
  unfold callLayer
  dsimp only
  generalize callbackLoop loc rt.callbacksDepth act 0 count { rt with
    settings := { rt.settings with resume := .throw, unhandled := .abort }
    callbacksDepth := rt.callbacksDepth + 1 } = r
  obtain ⟨x, s⟩ := r
  cases x with
  | done => exact leaveCallbacks_calls _ _
  | commException =>
    dsimp only
    split
    next => exact leaveCallbacks_calls _ _
    next => exact leaveCallbacks_calls _ _
  | runtimeException | jumped | terminated => rfl

/-- Callbacks find no log active, or the one with an id, where no log is activated but at the end of scopes. -/
theorem found_invariant (id : Int) (before : List CallbackEvent) :
    LogsInvariant fun r calls => (r.activeMlogId = mlogNone ∨ r.activeMlogId = id) ∧ ∃ later, calls = before ++ later ∧
      ∀ call ∈ later, call.activeMlogId = mlogNone ∨ call.activeMlogId = id where
  deactivate h := ⟨Or.inl rfl, h.2⟩
  activate {old _ r _ next} hold h hnext := by
    refine ⟨?_, h.2⟩
    rcases r.activate_activeMlogId next with hnone | heq
    · exact Or.inl hnone
    · rw [heq]
      rcases hnext with hnone | rfl
      · exact Or.inl hnone
      · exact hold.1
  called call h hcall := by
    obtain ⟨hactive, later, rfl, hlater⟩ := h
    refine ⟨hactive, later ++ [call], List.append_assoc _ _ _, fun other hin => ?_⟩
    rcases List.mem_append.mp hin with hin | hin
    · exact hlater other hin
    · rw [List.mem_singleton.mp hin]
      rcases hcall with hnone | heq
      · exact Or.inl hnone
      · exact heq ▸ hactive
  empty _ h := ⟨Or.inl rfl, h.2⟩

/-- Code that does not activate a log itself. -/
def ActivatesNone (c : FrameCode) : Prop := c.LogOps fun op => ¬op.Activates

theorem eval_found {id : Int} {before : List CallbackEvent} {c : FrameCode} (h : c.ActivatesNone) : c.eval.Keeps
    (LogsHave fun r calls => (r.activeMlogId = mlogNone ∨ r.activeMlogId = id) ∧ ∃ later, calls = before ++ later ∧
      ∀ call ∈ later, call.activeMlogId = mlogNone ∨ call.activeMlogId = id) := by
  refine eval_keeps (found_invariant id before) (fun op hop r calls hr => ⟨?_, hr.2⟩) h
  rcases MlogRegistry.step_activeMlogId hop r with hnone | heq
  · exact Or.inl hnone
  · exact heq ▸ hr.1

/-- The end of a scope calls no callbacks. -/
theorem scopedMlog_calls {f : Frame FrameRuntime} (hinit : rt.initFlag = true) :
    (scopedActiveMlog f rt).2.calls = (f (enterMlogScope rt)).2.calls := by
  unfold scopedActiveMlog
  rcases Frame.guarded_cases FrameRuntime.initFlag enterMlogScope leaveMlogScope f rt with
    ⟨hno, _⟩ | ⟨_, ⟨_, heq⟩ | ⟨_, _, ⟨s', hs', heq⟩ | ⟨_, heq⟩⟩⟩
  · rw [hinit] at hno
    cases hno
  · rw [heq]
  · rw [heq]
    change s'.calls = _
    rw [(activate_done (leave_mlog hs')).2.2]
  · rw [heq]

/-- In a recovery each callback finds no log active, as is documented. Callbacks that the application has invoked do so
only if no log was active anyway, since the scope that should deactivate it has ended before they are called. -/
theorem callbacks_deactivated (h : rt.Live) :
    ((FrameCode.fails countPre countPost pre post sync).ActivatesNone →
      ∃ calls, ((FrameCode.fails countPre countPost pre post sync).eval rt).2.calls = rt.calls ++ calls ∧
        ∀ call ∈ calls, call.activeMlogId = mlogNone) ∧
    ∀ loc count callbacks, (FrameCode.invokeAll loc (count + 1) callbacks).ActivatesNone →
      ((∃ calls, ((FrameCode.invokeAll loc (count + 1) callbacks).eval rt).2.calls = rt.calls ++ calls ∧
        ∀ call ∈ calls, call.activeMlogId = mlogNone) ↔ rt.mlogs.activeMlogId = mlogNone) := by
  constructor
  · intro hnone
    have heval : (FrameCode.fails countPre countPost pre post sync).eval rt = _ := testMPI_eq countPre countPost h.initFlag
    rw [heval, scopedMlog_calls h.initFlag]
    have hkept := keeps_handling (found_invariant mlogNone rt.calls) countPre countPost (fun i => eval_found (hnone.1 i))
      (fun i => eval_found (hnone.2.1 i)) (eval_found hnone.2.2) (enterMlogScope rt)
      ⟨Or.inl rfl, [], (List.append_nil _).symm, fun _ hc => absurd hc List.not_mem_nil⟩
    obtain ⟨_, calls, heq, hfound⟩ := hkept
    exact ⟨calls, heq, fun call hc => (hfound call hc).elim id id⟩
  · intro loc count callbacks hnone
    constructor
    · rintro ⟨calls, heq, hinactive⟩
      let entered : FrameRuntime := { rt with
        settings := { rt.settings with resume := .throw, unhandled := .abort }
        callbacksDepth := rt.callbacksDepth + 1 }
      have hentered : entered.Live := ⟨h.initFlag, h.finalized, h.coherent⟩
      have hinvoked := invokeAll_calls loc (count + 1) (fun i => (callbacks i).eval) h.initFlag
      rw [callbackLoop_succ loc rt.callbacksDepth 0 count hentered rfl] at hinvoked
      have hinv := found_invariant rt.mlogs.activeMlogId (rt.calls ++ [⟨loc, rt.mlogs.activeMlogId⟩])
      -- what follows the first call only adds to it
      obtain ⟨_, others, hothers, _⟩ := ((eval_found (hnone 0)).seq
        (keeps_callbackLoop hinv loc rt.callbacksDepth (fun i => eval_found (hnone i)) 1 count))
        { entered with calls := rt.calls ++ [⟨loc, rt.mlogs.activeMlogId⟩] }
        ⟨Or.inr rfl, [], (List.append_nil _).symm, fun _ hc => absurd hc List.not_mem_nil⟩
      have hcalls : calls = ⟨loc, rt.mlogs.activeMlogId⟩ :: others := by
        have hsame := heq.symm.trans (hinvoked.trans hothers)
        rw [List.append_assoc] at hsame
        exact List.append_cancel_left hsame
      exact hinactive _ (hcalls ▸ List.mem_cons_self)
    · intro hinactive
      obtain ⟨_, calls, heq, hfound⟩ := (eval_found hnone : Frame.Keeps _ (LogsHave _)) rt
        ⟨Or.inl hinactive, [], (List.append_nil rt.calls).symm, fun _ hc => absurd hc List.not_mem_nil⟩
      exact ⟨calls, heq, fun call hc => (hfound call hc).elim id id⟩

/-- Callbacks that make a log and synchronise one find none active in a recovery. If the application invokes them they
find its log active. -/
theorem callbacks_deactivated_pair :
    (∃ calls, ((FrameCode.fails 1 1 (fun _ => .mlog (.sync 5)) (fun _ => .mlog (.create 6)) .skip).eval
        (started { resume := .throw } (((MlogRegistry.empty true).create 5).2.activate 5).2)).2.calls = [] ++ calls ∧
      ∀ call ∈ calls, call.activeMlogId = mlogNone) ∧
    ¬∃ calls, ((FrameCode.invokeAll .postRecovery 1 fun _ => .mlog (.sync 5)).eval
        (started { resume := .throw } (((MlogRegistry.empty true).create 5).2.activate 5).2)).2.calls = [] ++ calls ∧
      ∀ call ∈ calls, call.activeMlogId = mlogNone := by
  have hlogs : (((MlogRegistry.empty true).create 5).2.activate 5).2.Coherent :=
    ((MlogRegistry.empty_coherent true).create 5).activate 5
  have hlive : (started { resume := .throw } (((MlogRegistry.empty true).create 5).2.activate 5).2).Live :=
    started_live hlogs
  have hdeactivated := @callbacks_deactivated _ 1 1 (fun _ => .mlog (.sync 5)) (fun _ => .mlog (.create 6)) .skip hlive
  refine ⟨hdeactivated.1 ⟨fun _ => not_false, fun _ => not_false, trivial⟩, fun hnone => ?_⟩
  have hinactive := (hdeactivated.2 .postRecovery 0 (fun _ => .mlog (.sync 5)) fun _ => not_false).mp hnone
  exact absurd hinactive (by decide +kernel)

end FrameCode

end Fenix
