import Fenix.FrameLogs

namespace Fenix

namespace Settings

variable {s s' : Settings} {setting option : Nat}

theorem setOptEnum_map {α : Type} {modes : List α} {f : α → Settings} (h : (setOptEnum modes option).map f = .ok s') :
    ∃ mode, modes[option]? = some mode ∧ s' = f mode := by
  unfold setOptEnum at h
  split at h
  next mode hmode =>
    cases h
    exact ⟨mode, hmode, rfl⟩
  next => cases h

/-- An option other than that to jump is no option to jump. -/
theorem setOption_resume (h : s.setOption setting option = .ok s') (hne : ¬(setting = 1 ∧ option = 0))
    (hs : s.resume ≠ .jump) : s'.resume ≠ .jump := by
  unfold setOption at h
  split at h
  next => obtain ⟨_, _, rfl⟩ := setOptEnum_map h; exact hs
  next =>
    obtain ⟨mode, hmode, rfl⟩ := setOptEnum_map h
    match option with
    | 0 => exact absurd ⟨rfl, rfl⟩ hne
    | 1 => cases hmode; exact nofun
    | 2 => cases hmode; exact nofun
    | _ + 3 => cases hmode
  next => obtain ⟨_, _, rfl⟩ := setOptEnum_map h; exact hs
  next => obtain ⟨_, _, rfl⟩ := setOptEnum_map h; exact hs
  next => obtain ⟨_, _, rfl⟩ := setOptEnum_map h; exact hs
  next => obtain ⟨_, _, rfl⟩ := setOptEnum_map h; exact hs
  next => obtain ⟨_, _, rfl⟩ := setOptEnum_map h; exact hs
  next => cases h

end Settings

namespace FrameRuntime

variable {rt : FrameRuntime} {f g : Frame FrameRuntime} {act pre post : Nat → Frame FrameRuntime}

/-- Errors are not left by a jump. -/
def Jumpless (rt : FrameRuntime) : Prop := rt.settings.resume ≠ .jump

theorem resumeApplication_cases (rt : FrameRuntime) : rt.resumeApplication = .done ∨
    rt.resumeApplication = .jumped ∧ rt.settings.resume = .jump ∨
    rt.resumeApplication = .commException ∧ rt.settings.resume = .throw := by
  unfold resumeApplication
  split
  next => exact Or.inl rfl
  next =>
    unfold Options.resumeApplication
    cases rt.settings.resume with
    | jump => exact Or.inr (Or.inl ⟨rfl, rfl⟩)
    | throw => exact Or.inr (Or.inr ⟨rfl, rfl⟩)
    | «return» => exact Or.inl rfl

theorem resumeApplication_ne_jumped (h : rt.Jumpless) : rt.resumeApplication ≠ .jumped := by
  rcases resumeApplication_cases rt with heq | ⟨_, hmode⟩ | ⟨heq, _⟩
  · exact heq ▸ nofun
  · exact absurd hmode h
  · exact heq ▸ nofun

theorem stays_resume : Frame.Stays (fun rt : FrameRuntime => (rt.resumeApplication, rt)) Jumpless :=
  fun _ h => ⟨resumeApplication_ne_jumped h, h⟩

/-- Inside of the library nothing jumps, and at the end of a call the options are as before. -/
theorem defaults_restore (h : f.Stays Jumpless) (hinit : rt.initFlag = true) :
    (scopedDefaultRuntimeOptions f rt).1 ≠ .jumped ∧
    ((scopedDefaultRuntimeOptions f rt).1 ≠ .terminated → (scopedDefaultRuntimeOptions f rt).2.initFlag = true →
      (scopedDefaultRuntimeOptions f rt).2.settings.resume = rt.settings.resume ∧
        (scopedDefaultRuntimeOptions f rt).2.settings.unhandled = rt.settings.unhandled) := by
  unfold scopedDefaultRuntimeOptions
  obtain ⟨hjump, _⟩ := h { rt with settings := { rt.settings with resume := .throw, unhandled := .abort } } nofun
  rcases Frame.guarded_cases initFlag
      (fun rt => { rt with settings := { rt.settings with resume := .throw, unhandled := .abort } })
      (fun old rt => some { rt with settings := { rt.settings with
        resume := old.settings.resume, unhandled := old.settings.unhandled } }) f rt with
    ⟨hno, _⟩ | ⟨_, ⟨hrun, heq⟩ | ⟨_, _, ⟨s', hs', heq⟩ | ⟨hno, _⟩⟩⟩
  · rw [hinit] at hno
    cases hno
  · rw [heq]
    refine ⟨hjump, fun hne hthere => ?_⟩
    rw [hthere, Bool.and_true] at hrun
    generalize (f { rt with settings := { rt.settings with resume := .throw, unhandled := .abort } }).1 = x
      at hrun hne hjump
    cases x with
    | jumped => exact absurd rfl hjump
    | terminated => exact absurd rfl hne
    | done | commException | runtimeException => cases hrun
  · rw [heq]
    cases hs'
    exact ⟨hjump, fun _ _ => ⟨rfl, rfl⟩⟩
  · cases hno

theorem api_cases (f : Frame FrameRuntime) (rt : FrameRuntime) :
    (scopedDefaultRuntimeOptions f rt).1 = .commException ∧
      api f rt = ((scopedDefaultRuntimeOptions f rt).2.resumeApplication, (scopedDefaultRuntimeOptions f rt).2) ∨
    (scopedDefaultRuntimeOptions f rt).1 ≠ .commException ∧ api f rt = scopedDefaultRuntimeOptions f rt :=
  Frame.catchComm_cases _ _ rt

theorem stays_defaults (h : f.Stays Jumpless) : (scopedDefaultRuntimeOptions f).Stays Jumpless := by
  refine Frame.Stays.guarded h (fun _ _ => nofun) (fun s s' s'' hs _ heq => ?_) fun _ _ _ hs' => hs'
  cases heq
  exact hs

theorem stays_ignoreAndReturn (h : f.Stays Jumpless) : (scopedIgnoreAndReturn f).Stays Jumpless := by
  refine Frame.Stays.guarded h (fun _ _ => nofun) (fun s s' s'' hs _ heq => ?_) fun _ _ _ hs' => hs'
  cases heq
  exact hs

theorem stays_api (h : f.Stays Jumpless) : (api f).Stays Jumpless := (stays_defaults h).catchComm stays_resume

theorem stays_mlogOp (op : MlogOp) : (mlogOp op).Stays Jumpless := by
  intro rt h
  cases hinit : rt.initFlag with
  | false => exact (mlogOp_of_not_init op hinit).symm ▸ ⟨nofun, h⟩
  | true =>
    rw [mlogOp_eq op hinit]
    refine ⟨?_, h⟩
    dsimp only
    split <;> exact nofun

theorem stays_scopedMlog (h : f.Stays Jumpless) : (scopedActiveMlog f).Stays Jumpless := by
  refine Frame.Stays.guarded h (fun _ hs => hs) (fun s s' s'' _ hs' heq => ?_) fun _ _ _ hs' => hs'
  have hkept := (stays_mlogOp (.activate s.activeMlogId) s' hs').2
  rw [leave_mlog heq] at hkept
  exact hkept

theorem done_ne_jumped : FrameExit.done ≠ .jumped := nofun

theorem stays_skip : (Frame.skip : Frame FrameRuntime).Stays Jumpless := fun _ h => ⟨nofun, h⟩

theorem stays_callbackLoop (loc : CallbackLocation) (layer : Nat) (h : ∀ i, (act i).Stays Jumpless) (i count : Nat) :
    (callbackLoop loc layer act i count).Stays Jumpless := by
  induction count generalizing i with
  | zero => exact stays_skip
  | succ count ih =>
    intro rt hrt
    unfold callbackLoop
    split
    next => exact ⟨done_ne_jumped, hrt⟩
    next =>
      have hcalled : Frame.Stays (Frame.modify fun rt : FrameRuntime =>
          { rt with calls := rt.calls ++ [⟨loc, rt.activeMlogId⟩] }) Jumpless := fun _ hs => ⟨done_ne_jumped, hs⟩
      exact (stays_scopedMlog stays_skip).seq (hcalled.seq ((h i).seq (ih (i + 1)))) rt hrt

theorem leaveCallbacks_settings (layer : Nat) (rt : FrameRuntime) :
    (leaveCallbacks layer rt).settings = rt.settings := by
  unfold leaveCallbacks
  split <;> rfl

theorem stays_invokeAll (loc : CallbackLocation) (count : Nat) (h : ∀ i, (act i).Stays Jumpless) :
    (callbackInvokeAll loc count act).Stays Jumpless := by
  apply stays_api
  intro rt hrt
  have hloop := stays_callbackLoop loc rt.callbacksDepth h 0 count
    { rt with callbacksDepth := rt.callbacksDepth + 1 } hrt
  unfold callLayer
  dsimp only
  generalize callbackLoop loc rt.callbacksDepth act 0 count { rt with callbacksDepth := rt.callbacksDepth + 1 } = r
    at hloop ⊢
  obtain ⟨x, s⟩ := r
  have hleft : Jumpless (leaveCallbacks rt.callbacksDepth s) := by
    unfold Jumpless
    rw [leaveCallbacks_settings]
    exact hloop.2
  cases x with
  | done => exact ⟨nofun, hleft⟩
  | commException =>
    dsimp only
    split
    next => exact ⟨nofun, hleft⟩
    next => exact ⟨nofun, hleft⟩
  | runtimeException | jumped | terminated => exact hloop

theorem stays_postinit (count : Nat) (h : ∀ i, (post i).Stays Jumpless) (hsync : g.Stays Jumpless) :
    (postinit count post g).Stays Jumpless := by
  intro rt hrt
  unfold postinit
  split
  next => exact ⟨nofun, hrt⟩
  next =>
    refine stays_scopedMlog ((stays_invokeAll _ count h).seq fun s hs => ?_) rt hrt
    split
    next => exact hsync s hs
    next => exact ⟨nofun, hs⟩

theorem stays_testMPI (countPre countPost : Nat) (hpre : ∀ i, (pre i).Stays Jumpless)
    (hpost : ∀ i, (post i).Stays Jumpless) (hsync : g.Stays Jumpless) :
    (testMPI countPre countPost pre post g).Stays Jumpless := by
  intro rt hrt
  unfold testMPI
  split
  next =>
    refine stays_scopedMlog (fun s hs => ?_) rt hrt
    split
    next => exact stays_resume s hs
    next => exact (stays_invokeAll _ countPre hpre).seq ((stays_postinit countPost hpost hsync).seq stays_resume) s hs
  next => exact ⟨nofun, hrt⟩

theorem stays_testUnhandled : testUnhandled.Stays Jumpless := by
  intro rt hrt
  unfold testUnhandled
  split
  next =>
    refine stays_scopedMlog (fun s hs => ?_) rt hrt
    split
    next => exact ⟨nofun, hs⟩
    next => exact ⟨nofun, hs⟩
  next => exact ⟨nofun, hrt⟩

theorem stays_logged (hf : f.Stays Jumpless) (hg : g.Stays Jumpless) : (logged f g).Stays Jumpless := by
  refine (stays_defaults hf).catchComm fun s hs => ?_
  split
  next => exact stays_resume s hs
  next => exact hg s hs

theorem stays_reenter (count : Nat) {again : Frame FrameRuntime} (hf : f.Stays Jumpless) :
    (reenter f count post g again).Stays Jumpless := by
  intro rt hrt
  have hbody := hf rt hrt
  unfold reenter
  generalize f rt = r at hbody ⊢
  obtain ⟨x, s⟩ := r
  cases x with
  | jumped => exact absurd rfl hbody.1
  | done | commException | runtimeException | terminated => exact hbody

theorem stays_setOption {setting option : Nat} (hne : ¬(setting = 1 ∧ option = 0)) :
    (setOption setting option).Stays Jumpless := by
  intro rt hrt
  unfold setOption
  split
  next =>
    split
    next hset => exact ⟨nofun, Settings.setOption_resume hset hne hrt⟩
    next => exact ⟨nofun, hrt⟩
  next =>
    split
    next => exact ⟨nofun, hrt⟩
    next => exact ⟨nofun, hrt⟩

end FrameRuntime

namespace FrameCode

open FrameRuntime

/-- Code that does not set the option to jump. -/
def Tame : FrameCode → Prop
  | .skip | .mlog _ | .throwRuntime | .unhandled | .finalize => True
  | .setOption setting option => ¬(setting = 1 ∧ option = 0)
  | .api body | .ignoreAndReturn body | .scopedMlog body | .reenter body .. => body.Tame
  | .seq first next | .catchComm first next | .logged first next => first.Tame ∧ next.Tame
  | .invokeAll _ _ callbacks => ∀ i, (callbacks i).Tame
  | .fails _ _ pre post sync => (∀ i, (pre i).Tame) ∧ (∀ i, (post i).Tame) ∧ sync.Tame

variable {c : FrameCode} {rt : FrameRuntime}

theorem eval_stays (h : c.Tame) : c.eval.Stays Jumpless := by
  induction c with
  | skip => exact stays_skip
  | seq _ _ ih₁ ih₂ => exact (ih₁ h.1).seq (ih₂ h.2)
  | setOption setting option => exact stays_setOption h
  | mlog op => exact stays_mlogOp op
  | throwRuntime => exact fun _ hs => ⟨nofun, hs⟩
  | api _ ih => exact stays_api (ih h)
  | ignoreAndReturn _ ih => exact stays_ignoreAndReturn (ih h)
  | scopedMlog _ ih => exact stays_scopedMlog (ih h)
  | catchComm _ _ ih₁ ih₂ => exact (ih₁ h.1).catchComm (ih₂ h.2)
  | invokeAll loc count _ ih => exact stays_invokeAll loc count fun i => ih i (h i)
  | fails countPre countPost _ _ _ ihpre ihpost ihsync =>
    exact stays_testMPI countPre countPost (fun i => ihpre i (h.1 i)) (fun i => ihpost i (h.2.1 i)) (ihsync h.2.2)
  | unhandled => exact stays_testUnhandled
  | logged _ _ ih₁ ih₂ => exact stays_logged (ih₁ h.1) (ih₂ h.2)
  | finalize => exact fun _ hs => ⟨nofun, hs⟩
  | reenter _ count _ _ _ ihbody _ _ _ => exact stays_reenter count (ihbody h)

/-- However a call of the library ends, whatever fails in it and in the callbacks of the recoveries, the user has the
options that decide how errors are left as before, and only these decide whether it ends with a jump or with an
exception. -/
theorem api_restores (h : c.Tame) (hinit : rt.initFlag = true)
    (hrunning : ((FrameCode.api c).eval rt).1 ≠ .terminated) (hthere : ((FrameCode.api c).eval rt).2.initFlag = true) :
    ((FrameCode.api c).eval rt).2.settings.resume = rt.settings.resume ∧
      ((FrameCode.api c).eval rt).2.settings.unhandled = rt.settings.unhandled ∧
      (((FrameCode.api c).eval rt).1 = .jumped → rt.settings.resume = .jump) ∧
      (((FrameCode.api c).eval rt).1 = .commException → rt.settings.resume = .throw) := by
  change (FrameRuntime.api c.eval rt).1 ≠ _ at hrunning
  change (FrameRuntime.api c.eval rt).2.initFlag = true at hthere
  change (FrameRuntime.api c.eval rt).2.settings.resume = _ ∧ (FrameRuntime.api c.eval rt).2.settings.unhandled = _ ∧
    ((FrameRuntime.api c.eval rt).1 = _ → _) ∧ ((FrameRuntime.api c.eval rt).1 = _ → _)
  obtain ⟨hjump, hrestore⟩ := defaults_restore (eval_stays h) hinit
  rcases api_cases c.eval rt with ⟨hcomm, heq⟩ | ⟨hcomm, heq⟩
  · rw [heq] at hthere ⊢
    obtain ⟨hresume, hunhandled⟩ := hrestore (by rw [hcomm]; exact nofun) hthere
    refine ⟨hresume, hunhandled, fun hleft => ?_, fun hleft => ?_⟩
    all_goals rcases resumeApplication_cases (scopedDefaultRuntimeOptions c.eval rt).2 with hx | ⟨hx, hmode⟩ | ⟨hx, hmode⟩
    · exact absurd (hx.symm.trans hleft) nofun
    · exact hresume ▸ hmode
    · exact absurd (hx.symm.trans hleft) nofun
    · exact absurd (hx.symm.trans hleft) nofun
    · exact absurd (hx.symm.trans hleft) nofun
    · exact hresume ▸ hmode
  · rw [heq] at hrunning hthere ⊢
    obtain ⟨hresume, hunhandled⟩ := hrestore hrunning hthere
    exact ⟨hresume, hunhandled, fun hleft => absurd hleft hjump, fun hleft => absurd hleft hcomm⟩

/-- A callback of the recovery sets how errors are left, and the user's option to jump is followed nevertheless. -/
theorem api_restores_pair :
    ((FrameCode.api (.fails 1 1 (fun _ => .setOption 1 1) (fun _ => .skip) .skip)).eval
      (started { resume := .jump } (.empty true))).1 = .jumped ∧
    ((FrameCode.api (.fails 1 1 (fun _ => .setOption 1 1) (fun _ => .skip) .skip)).eval
      (started { resume := .jump } (.empty true))).2.settings.resume = .jump := by
  have htame : (FrameCode.fails 1 1 (fun _ => .setOption 1 1) (fun _ => .skip) .skip).Tame :=
    ⟨fun _ => nofun, fun _ => trivial, trivial⟩
  exact ⟨by decide +kernel, (api_restores htame rfl (by decide +kernel) (by decide +kernel)).1⟩

end FrameCode

end Fenix
