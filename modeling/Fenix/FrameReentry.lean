import Fenix.FrameRecovery

namespace Fenix

namespace FrameRuntime

variable {rt rt' : FrameRuntime} {f g : Frame FrameRuntime} {act pre post : Nat → Frame FrameRuntime} {x : FrameExit}

/-- Code that comes back to its caller and has nothing to do with the library. -/
def Idle (f : Frame FrameRuntime) : Prop := ∀ rt, f rt = (.done, rt)

/-- A scope in which no log is active, around code that only calls callbacks. -/
theorem scopedMlog_eq (h : rt.Live) (hbody : f (enterMlogScope rt) = (x, rt')) (hinit : rt'.initFlag = true)
    (hmlogs : rt'.mlogs = rt.mlogs.deactivate) :
    scopedActiveMlog f rt = (x, if x.unwinds then { rt' with mlogs := rt.mlogs } else rt') := by
  unfold scopedActiveMlog
  rcases Frame.guarded_cases FrameRuntime.initFlag enterMlogScope leaveMlogScope f rt with
    ⟨hno, _⟩ | ⟨_, ⟨hrun, heq⟩ | ⟨hunwinds, _, ⟨s', hs', heq⟩ | ⟨hno, _⟩⟩⟩
  · rw [h.initFlag] at hno
    cases hno
  · rw [hbody, hinit, Bool.and_true] at hrun
    rw [heq, hbody, if_neg (Bool.eq_false_iff.mp hrun)]
  · rw [hbody] at hs' hunwinds
    rw [leave_eq h hinit hmlogs] at hs'
    rw [heq, hbody, if_pos hunwinds, Option.some.inj hs']
  · rw [hbody, leave_eq h hinit hmlogs] at hno
    cases hno

theorem api_done (hinit : rt.initFlag = true)
    (hbody : f { rt with settings := { rt.settings with resume := .throw, unhandled := .abort } } = (.done, rt'))
    (hthere : rt'.initFlag = true) : api f rt = (.done, { rt' with settings := { rt'.settings with
      resume := rt.settings.resume, unhandled := rt.settings.unhandled } }) := by
  unfold api scopedDefaultRuntimeOptions Frame.catchComm Frame.guarded
  rw [if_pos hinit]
  dsimp only
  rw [hbody]
  dsimp only
  rw [hthere]
  rfl

/-- Callbacks have been called. -/
def called (rt : FrameRuntime) (events : List CallbackEvent) : FrameRuntime := { rt with calls := rt.calls ++ events }

theorem Live.called (h : rt.Live) (events : List CallbackEvent) : (rt.called events).Live :=
  ⟨h.initFlag, h.finalized, h.coherent⟩

theorem called_called (rt : FrameRuntime) (events events' : List CallbackEvent) :
    (rt.called events).called events' = rt.called (events ++ events') := by
  unfold FrameRuntime.called
  rw [List.append_assoc]

theorem callbackLoop_idle (loc : CallbackLocation) (layer i count : Nat) (hact : ∀ i, Idle (act i)) (h : rt.Live)
    (hdepth : rt.callbacksDepth = layer + 1) : callbackLoop loc layer act i count rt =
      (.done, rt.called (List.replicate count ⟨loc, rt.mlogs.activeMlogId⟩)) := by
  induction count generalizing i rt with
  | zero =>
    unfold FrameRuntime.called
    rw [List.replicate_zero, List.append_nil]
    rfl
  | succ count ih =>
    rw [callbackLoop_succ loc layer i count h hdepth, Frame.seq_done (hact i _)]
    refine (ih (i + 1) (h.called [⟨loc, rt.mlogs.activeMlogId⟩]) hdepth).trans ?_
    rw [called_called]
    rfl

/-- Callbacks that come back are each called once when they are invoked. -/
theorem invokeAll_idle (loc : CallbackLocation) (count : Nat) (hact : ∀ i, Idle (act i)) (h : rt.Live)
    (hdepth : rt.callbacksDepth = 0) : callbackInvokeAll loc count act rt =
      (.done, rt.called (List.replicate count ⟨loc, rt.mlogs.activeMlogId⟩)) := by
  let entered : FrameRuntime := { rt with
    settings := { rt.settings with resume := .throw, unhandled := .abort }
    callbacksDepth := rt.callbacksDepth + 1 }
  have hloop := callbackLoop_idle loc rt.callbacksDepth 0 count hact (show entered.Live from
    ⟨h.initFlag, h.finalized, h.coherent⟩) rfl
  have hbody : callLayer loc count act { rt with settings := { rt.settings with resume := .throw, unhandled := .abort } } =
      (.done, { entered.called (List.replicate count ⟨loc, rt.mlogs.activeMlogId⟩) with callbacksDepth := 0 }) := by
    unfold callLayer
    dsimp only
    rw [hloop]
    exact congrArg (Prod.mk FrameExit.done) (if_pos hdepth)
  refine (api_done h.initFlag hbody h.initFlag).trans ?_
  obtain ⟨_, _, _, _, _, _, _⟩ := rt
  cases hdepth
  rfl

theorem postinit_idle (count : Nat) (hpost : ∀ i, Idle (post i)) (hsync : Idle g) (h : rt.Live)
    (hdepth : rt.callbacksDepth = 0) : postinit count post g rt =
      (.done, rt.called (List.replicate count ⟨.postRecovery, mlogNone⟩)) := by
  have hinner : (enterMlogScope rt).Live := ⟨h.initFlag, h.finalized, h.coherent.deactivate⟩
  unfold postinit
  rw [if_neg (Bool.eq_false_iff.mp h.finalized)]
  have hbody : Frame.seq (callbackInvokeAll .postRecovery count post)
      (fun rt => if rt.settings.mlogRecovery = .inlineAutosync then g rt else (.done, rt)) (enterMlogScope rt) =
      (.done, (enterMlogScope rt).called (List.replicate count ⟨.postRecovery, mlogNone⟩)) := by
    rw [Frame.seq_done (invokeAll_idle _ count hpost hinner hdepth)]
    split
    next => exact hsync _
    next => rfl
  exact scopedMlog_eq h hbody h.initFlag rfl

/-- What a recovery comes to if the callbacks come back. -/
theorem testMPI_idle (countPre countPost : Nat) (hpre : ∀ i, Idle (pre i)) (hpost : ∀ i, Idle (post i)) (hsync : Idle g)
    (h : rt.Live) (hdepth : rt.callbacksDepth = 0) (hrecovery : rt.settings.recovery ≠ .ignore) :
    testMPI countPre countPost pre post g rt = (rt.resumeApplication,
      { rt.called (List.replicate countPre ⟨.preRecovery, mlogNone⟩ ++
          List.replicate countPost ⟨.postRecovery, mlogNone⟩) with
        mlogs := if rt.resumeApplication.unwinds then rt.mlogs else rt.mlogs.deactivate }) := by
  have hinner : (enterMlogScope rt).Live := ⟨h.initFlag, h.finalized, h.coherent.deactivate⟩
  have hbody : handling countPre countPost pre post g (enterMlogScope rt) = (rt.resumeApplication,
      (enterMlogScope rt).called (List.replicate countPre ⟨.preRecovery, mlogNone⟩ ++
        List.replicate countPost ⟨.postRecovery, mlogNone⟩)) := by
    unfold FrameRuntime.handling
    rw [if_neg (show (enterMlogScope rt).settings.recovery ≠ _ from hrecovery),
      Frame.seq_done (invokeAll_idle _ countPre hpre hinner hdepth),
      Frame.seq_done (postinit_idle countPost hpost hsync (hinner.called _) hdepth), called_called]
    rfl
  rw [testMPI_eq countPre countPost h.initFlag, scopedMlog_eq h hbody h.initFlag rfl]
  cases rt.resumeApplication.unwinds <;> rfl

end FrameRuntime

namespace FrameCode

open FrameRuntime

variable {rt : FrameRuntime} {countPre countPost : Nat} {pre post : Nat → FrameCode} {sync : FrameCode}

/-- The callbacks of a recovery are called once, before and after the repair, unless a jump goes back to the start: the
block there calls those for after the repair once more, before the application goes on with no log active. -/
theorem reenter_calls (again : FrameCode) (hpre : ∀ i, Idle (pre i).eval) (hpost : ∀ i, Idle (post i).eval)
    (hsync : Idle sync.eval) (h : rt.Live) (hdepth : rt.callbacksDepth = 0) (hrecovery : rt.settings.recovery ≠ .ignore) :
    (rt.settings.resume = .jump →
      (FrameCode.reenter (.fails countPre countPost pre post sync) countPost post sync again).eval rt =
        again.eval { rt with
          mlogs := rt.mlogs.deactivate
          calls := rt.calls ++ List.replicate countPre ⟨.preRecovery, mlogNone⟩ ++
            List.replicate (2 * countPost) ⟨.postRecovery, mlogNone⟩ }) ∧
    (rt.settings.resume ≠ .jump →
      (FrameCode.reenter (.fails countPre countPost pre post sync) countPost post sync again).eval rt =
        (rt.resumeApplication, { rt with
          calls := rt.calls ++ List.replicate countPre ⟨.preRecovery, mlogNone⟩ ++
            List.replicate countPost ⟨.postRecovery, mlogNone⟩ })) := by
  have hrecovered := testMPI_idle countPre countPost hpre hpost hsync h hdepth hrecovery
  have hresume : rt.resumeApplication = .jumped ↔ rt.settings.resume = .jump := by
    constructor
    · intro heq
      rcases resumeApplication_cases rt with hx | ⟨_, hmode⟩ | ⟨hx, _⟩
      · exact absurd (hx.symm.trans heq) nofun
      · exact hmode
      · exact absurd (hx.symm.trans heq) nofun
    · intro hmode
      unfold FrameRuntime.resumeApplication Options.resumeApplication
      rw [h.initFlag, h.finalized, hmode]
      rfl
  change (_ → FrameRuntime.reenter (testMPI countPre countPost (fun i => (pre i).eval) (fun i => (post i).eval)
      sync.eval) countPost (fun i => (post i).eval) sync.eval again.eval rt = _) ∧
    (_ → FrameRuntime.reenter (testMPI countPre countPost (fun i => (pre i).eval) (fun i => (post i).eval)
      sync.eval) countPost (fun i => (post i).eval) sync.eval again.eval rt = _)
  unfold FrameRuntime.reenter
  rw [hrecovered]
  constructor
  · intro hmode
    let jumped : FrameRuntime := { rt with
      mlogs := rt.mlogs.deactivate
      calls := rt.calls ++ List.replicate countPre ⟨.preRecovery, mlogNone⟩ ++
        List.replicate countPost ⟨.postRecovery, mlogNone⟩ }
    have hlive : jumped.Live := ⟨h.initFlag, h.finalized, h.coherent.deactivate⟩
    have hpostinit := postinit_idle countPost hpost hsync hlive hdepth
    rw [hresume.mpr hmode]
    unfold FrameRuntime.called at hpostinit ⊢
    rw [← List.append_assoc]
    change Frame.seq _ again.eval jumped = _
    rw [Frame.seq_done hpostinit, Nat.two_mul, List.replicate_add, ← List.append_assoc]
  · intro hmode
    have hne : rt.resumeApplication ≠ .jumped := fun heq => hmode (hresume.mp heq)
    have hunwinds : rt.resumeApplication.unwinds = true := by
      rcases resumeApplication_cases rt with hx | ⟨hx, _⟩ | ⟨hx, _⟩
      · rw [hx]
        rfl
      · exact absurd hx hne
      · rw [hx]
        rfl
    unfold FrameRuntime.called
    rw [hunwinds, ← List.append_assoc]
    generalize rt.resumeApplication = x at hne
    cases x with
    | jumped => exact absurd rfl hne
    | done | commException | runtimeException | terminated => rfl

theorem reenter_calls_pair :
    ((FrameCode.reenter (.fails 1 1 (fun _ => .skip) (fun _ => .skip) .skip) 1 (fun _ => .skip) .skip .skip).eval
      (started { resume := .jump } (.empty true))).2.calls =
      [⟨.preRecovery, mlogNone⟩, ⟨.postRecovery, mlogNone⟩, ⟨.postRecovery, mlogNone⟩] := by
  have hlive : (started { resume := .jump } (.empty true)).Live := started_live (MlogRegistry.empty_coherent true)
  have hidle : ∀ _ : Nat, Idle FrameCode.skip.eval := fun _ _ => rfl
  have hcalls := @reenter_calls _ 1 1 (fun _ => .skip) (fun _ => .skip) .skip .skip hidle hidle (hidle 0) hlive rfl (by decide)
  exact (congrArg (fun r => r.2.calls) (hcalls.1 rfl)).trans rfl

end FrameCode

end Fenix
