import Fenix.Callbacks
import Fenix.MlogRegistry
import Fenix.RuntimeOptions
import Fenix.ScopeGuard

namespace Fenix

inductive RecoveryMode where
  | ignore
  | noop
  | repair
  | spawn
  deriving DecidableEq

inductive MlogRecoveryMode where
  | manual
  | inline
  | inlineAutosync
  deriving DecidableEq

inductive UnhandledMode where
  | silent
  | print
  | abort
  deriving DecidableEq

inductive SpareWaitMode where
  | busy
  | yield
  | sleep
  deriving DecidableEq

inductive SpareFinalizeMode where
  | release
  | exit
  deriving DecidableEq

inductive SettingError where
  | invalidSettingName
  | invalidSettingOption
  deriving DecidableEq

structure Settings extends Options where
  recovery : RecoveryMode := .repair
  cbException : CallbackExceptionMode := .squash
  unhandled : UnhandledMode := .abort
  mlogRecovery : MlogRecoveryMode := .manual
  spareWait : SpareWaitMode := .yield
  spareFinalize : SpareFinalizeMode := .exit
  deriving DecidableEq

/-- The option with a number, of those of a setting. -/
def setOptEnum {α : Type} (modes : List α) (option : Nat) : Except SettingError α :=
  match modes[option]? with
  | some mode => .ok mode
  | none => .error .invalidSettingOption

namespace Settings

def setOption (s : Settings) (setting option : Nat) : Except SettingError Settings :=
  match setting with
  | 0 => (setOptEnum [.ignore, .noop, .repair, .spawn] option).map fun m => { s with recovery := m }
  | 1 => (setOptEnum [.jump, .return, .throw] option).map fun m => { s with resume := m }
  | 2 => (setOptEnum [.silent, .print, .abort] option).map fun m => { s with unhandled := m }
  | 3 => (setOptEnum [.rethrow, .squash] option).map fun m => { s with cbException := m }
  | 4 => (setOptEnum [.manual, .inline, .inlineAutosync] option).map fun m => { s with mlogRecovery := m }
  | 5 => (setOptEnum [.busy, .yield, .sleep] option).map fun m => { s with spareWait := m }
  | 6 => (setOptEnum [.release, .exit] option).map fun m => { s with spareFinalize := m }
  | _ => .error .invalidSettingName

end Settings

/-- A callback is called, and finds a log active or none. -/
structure CallbackEvent where
  location : CallbackLocation
  activeMlogId : Int
  deriving DecidableEq

/-- What the frames of the library use of the runtime, with the calls of callbacks so far. -/
structure FrameRuntime where
  initFlag : Bool
  finalized : Bool
  settings : Settings
  defaultSettings : Settings
  mlogs : MlogRegistry
  callbacksDepth : Nat
  calls : List CallbackEvent

namespace FrameRuntime

def activeMlogId (rt : FrameRuntime) : Int := if rt.finalized then mlogNone else rt.mlogs.activeMlogId

def resumeApplication (rt : FrameRuntime) : FrameExit :=
  if !rt.initFlag || rt.finalized then .done
  else
    match rt.settings.resumeApplication with
    | .jumped => .jumped
    | .thrown => .commException
    | .returned => .done

def setOption (setting option : Nat) : Frame FrameRuntime := fun rt =>
  if rt.initFlag then
    match rt.settings.setOption setting option with
    | .ok settings => (.done, { rt with settings := settings })
    | .error _ => (.runtimeException, rt)
  else
    match rt.defaultSettings.setOption setting option with
    | .ok settings => (.done, { rt with defaultSettings := settings })
    | .error _ => (.runtimeException, rt)

/-- How errors are handled inside of the library. -/
def scopedDefaultRuntimeOptions : Frame FrameRuntime → Frame FrameRuntime :=
  Frame.guarded initFlag
    (fun rt => { rt with settings := { rt.settings with resume := .throw, unhandled := .abort } })
    fun old rt => some { rt with settings := { rt.settings with
      resume := old.settings.resume, unhandled := old.settings.unhandled } }

def scopedIgnoreAndReturn : Frame FrameRuntime → Frame FrameRuntime :=
  Frame.guarded initFlag
    (fun rt => { rt with settings := { rt.settings with recovery := .ignore, resume := .return } })
    fun old rt => some { rt with settings := { rt.settings with
      recovery := old.settings.recovery, resume := old.settings.resume } }

/-- `FENIX_CPP_API_BEGIN` and `FENIX_CPP_API_END` around a body. -/
def api (body : Frame FrameRuntime) : Frame FrameRuntime :=
  Frame.catchComm (scopedDefaultRuntimeOptions body) fun rt => (rt.resumeApplication, rt)

def mlogOp (op : MlogOp) : Frame FrameRuntime :=
  api fun rt =>
    match rt.mlogs.step op with
    | (none, mlogs) => (.done, { rt with mlogs := mlogs })
    | (some _, mlogs) => (.runtimeException, { rt with mlogs := mlogs })

/-- The constructor and the destructor of the object that has no log active in a scope. -/
def enterMlogScope (rt : FrameRuntime) : FrameRuntime := { rt with mlogs := rt.mlogs.deactivate }

def leaveMlogScope (old rt : FrameRuntime) : Option FrameRuntime :=
  match mlogOp (.activate old.activeMlogId) rt with
  | (.done, rt) => some rt
  | _ => none

def scopedActiveMlog : Frame FrameRuntime → Frame FrameRuntime := Frame.guarded initFlag enterMlogScope leaveMlogScope

/-- The loop over the callbacks, of which `act` has those that are left. -/
def callbackLoop (loc : CallbackLocation) (layer : Nat) (act : Nat → Frame FrameRuntime) :
    Nat → Nat → Frame FrameRuntime
  | _, 0 => Frame.skip
  | i, count + 1 => fun rt =>
    if rt.callbacksDepth ≠ layer + 1 then (.done, rt)
    else
      -- the scope is a temporary, which has ended before the callback is called
      Frame.seq (scopedActiveMlog Frame.skip)
        (Frame.seq (Frame.modify fun rt => { rt with calls := rt.calls ++ [⟨loc, rt.activeMlogId⟩] })
          (Frame.seq (act i) (callbackLoop loc layer act (i + 1) count))) rt

def leaveCallbacks (layer : Nat) (rt : FrameRuntime) : FrameRuntime :=
  if layer = 0 then { rt with callbacksDepth := 0 } else rt

/-- The body of `callback_invoke_all`. -/
def callLayer (loc : CallbackLocation) (count : Nat) (act : Nat → Frame FrameRuntime) : Frame FrameRuntime := fun rt =>
  let layer := rt.callbacksDepth
  match callbackLoop loc layer act 0 count { rt with callbacksDepth := layer + 1 } with
  | (.done, rt) => (.done, leaveCallbacks layer rt)
  | (.commException, rt) =>
    match rt.settings.cbException with
    | .rethrow => (.commException, leaveCallbacks layer rt)
    | .squash => (.done, leaveCallbacks layer rt)
  | r => r

def callbackInvokeAll (loc : CallbackLocation) (count : Nat) (act : Nat → Frame FrameRuntime) : Frame FrameRuntime :=
  api (callLayer loc count act)

/-- `__fenix_postinit` on a rank that has been through a recovery, `sync` being the synchronisation of the logs. -/
def postinit (count : Nat) (post : Nat → Frame FrameRuntime) (sync : Frame FrameRuntime) : Frame FrameRuntime := fun rt =>
  if rt.finalized then (.done, rt)
  else
    scopedActiveMlog (Frame.seq (callbackInvokeAll .postRecovery count post) fun rt =>
      if rt.settings.mlogRecovery = .inlineAutosync then sync rt else (.done, rt)) rt

/-- The error handler, for a failure of processes. -/
def testMPI (countPre countPost : Nat) (pre post : Nat → Frame FrameRuntime) (sync : Frame FrameRuntime) :
    Frame FrameRuntime := fun rt =>
  if rt.initFlag then
    scopedActiveMlog (fun rt =>
      if rt.settings.recovery = .ignore then (rt.resumeApplication, rt)
      else
        Frame.seq (callbackInvokeAll .preRecovery countPre pre)
          (Frame.seq (postinit countPost post sync) fun rt => (rt.resumeApplication, rt)) rt) rt
  else (.done, rt)

/-- The error handler, for an error that the library does not handle. -/
def testUnhandled : Frame FrameRuntime := fun rt =>
  if rt.initFlag then
    scopedActiveMlog (fun rt => if rt.settings.unhandled = .abort then (.terminated, rt) else (.done, rt)) rt
  else (.done, rt)

/-- A logged call, which is tried again after a failure if recovery is inline. -/
def logged (attempt retry : Frame FrameRuntime) : Frame FrameRuntime :=
  Frame.catchComm (scopedDefaultRuntimeOptions attempt) fun rt =>
    if rt.settings.mlogRecovery = .manual then (rt.resumeApplication, rt) else retry rt

/-- The end of `Fenix_Finalize`. How errors are left has no value then, and nothing reads it before the next start. -/
def reset (rt : FrameRuntime) : FrameRuntime :=
  { rt with
    initFlag := false
    finalized := true
    settings := { resume := rt.settings.resume }
    mlogs := .empty rt.mlogs.overloadsLinked }

/-- After `Fenix_Init`, once logs have been made. -/
def started (settings : Settings) (mlogs : MlogRegistry) : FrameRuntime := ⟨true, false, settings, settings, mlogs, 0, []⟩

/-- The block that `Fenix_Init` begins: a jump comes back to it, and the application goes on from there. -/
def reenter (body : Frame FrameRuntime) (count : Nat) (post : Nat → Frame FrameRuntime) (sync again : Frame FrameRuntime) :
    Frame FrameRuntime := fun rt =>
  match body rt with
  | (.jumped, rt) => Frame.seq (postinit count post sync) again rt
  | r => r

end FrameRuntime

/-- What an application and the library do, as far as it concerns settings, logs, callbacks and how errors are left. A
failure of processes comes with what the callbacks do then. -/
inductive FrameCode where
  | skip
  | seq (first next : FrameCode)
  | setOption (setting option : Nat)
  | mlog (op : MlogOp)
  | throwRuntime
  | api (body : FrameCode)
  | ignoreAndReturn (body : FrameCode)
  | scopedMlog (body : FrameCode)
  | catchComm (body handler : FrameCode)
  | invokeAll (loc : CallbackLocation) (count : Nat) (callbacks : Nat → FrameCode)
  | fails (countPre countPost : Nat) (pre post : Nat → FrameCode) (sync : FrameCode)
  | unhandled
  | logged (attempt retry : FrameCode)
  | finalize
  | reenter (body : FrameCode) (count : Nat) (post : Nat → FrameCode) (sync again : FrameCode)

namespace FrameCode

open FrameRuntime

def eval : FrameCode → Frame FrameRuntime
  | .skip => Frame.skip
  | .seq first next => Frame.seq first.eval next.eval
  | .setOption setting option => FrameRuntime.setOption setting option
  | .mlog op => mlogOp op
  | .throwRuntime => Frame.throw .runtimeException
  | .api body => FrameRuntime.api body.eval
  | .ignoreAndReturn body => scopedIgnoreAndReturn body.eval
  | .scopedMlog body => scopedActiveMlog body.eval
  | .catchComm body handler => Frame.catchComm body.eval handler.eval
  | .invokeAll loc count callbacks => FrameRuntime.callbackInvokeAll loc count fun i => (callbacks i).eval
  | .fails countPre countPost pre post sync =>
    testMPI countPre countPost (fun i => (pre i).eval) (fun i => (post i).eval) sync.eval
  | .unhandled => testUnhandled
  | .logged attempt retry => FrameRuntime.logged attempt.eval retry.eval
  | .finalize => Frame.modify reset
  | .reenter body count post sync again =>
    FrameRuntime.reenter body.eval count (fun i => (post i).eval) sync.eval again.eval

end FrameCode

end Fenix
