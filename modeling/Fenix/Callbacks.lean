import Mathlib.Data.List.Infix

namespace Fenix

inductive CallbackLocation where
  | preRecovery
  | postRecovery
  deriving DecidableEq

inductive CallbackExceptionMode where
  | rethrow
  | squash
  deriving DecidableEq

inductive CallbackCode where
  | success
  | uninitialized
  | callbackNotRegistered
  deriving DecidableEq

/-- What the callbacks of a process need of the runtime. A callback is known by the number of those that
were registered before it, `depth` is the counter of the invocations. -/
structure CallbackRuntime where
  initFlag : Bool
  callbacks : CallbackLocation → List Nat
  registered : Nat
  depth : Nat

/-- What a call of a callback does: it returns, or a failure in it has a recovery invoke the callbacks before
and after the repair, which react in their turn. The exception that ends the recovery is caught in the
callback, which goes on, or leaves it. -/
inductive Reaction where
  | returns
  | recovers (pre post : Nat → Reaction) (caught : Bool) (next : Reaction)

/-- An invocation of the callbacks registered at a location: those it called, in order, and whether
callbacks were invoked anew during the call. -/
structure Invocation where
  location : CallbackLocation
  registered : List Nat
  calls : List (Nat × Bool)
  deriving DecidableEq

/-- What a part of a recovery leaves: the invocations so far, the counter, and whether an exception is on
its way. -/
structure Outcome where
  log : List Invocation
  depth : Nat
  thrown : Bool

/-- The loop over the callbacks, `act` telling what a call does from its position and the counter. -/
def callCallbacks (layer : Nat) (act : Nat → Nat → Outcome) : Nat → List Nat → Nat → List (Nat × Bool) × Outcome
  | _, [], depth => ([], ⟨[], depth, false⟩)
  | i, cb :: rest, depth =>
    if depth ≠ layer + 1 then ([], ⟨[], depth, false⟩)
    else
      let o := act i depth
      let call := (cb, !o.log.isEmpty)
      if o.thrown then ([call], o)
      else
        let (calls, last) := callCallbacks layer act (i + 1) rest o.depth
        (call :: calls, { last with log := o.log ++ last.log })

section Invoke

variable (mode : CallbackExceptionMode) (callbacks : CallbackLocation → List Nat)

def callbackInvokeAll (loc : CallbackLocation) (act : Nat → Nat → Outcome) (depth : Nat) : Outcome :=
  let layer := depth
  let (calls, o) := callCallbacks layer act 0 (callbacks loc) (depth + 1)
  { log := ⟨loc, callbacks loc, calls⟩ :: o.log
    depth := if layer = 0 then 0 else o.depth
    thrown := o.thrown && mode == .rethrow }

/-- A recovery, up to where control goes back to the application. -/
def recover (pre post : Nat → Nat → Outcome) (depth : Nat) : Outcome :=
  let before := callbackInvokeAll mode callbacks .preRecovery pre depth
  if before.thrown then before
  else
    let after := callbackInvokeAll mode callbacks .postRecovery post before.depth
    { after with log := before.log ++ after.log }

def react : Reaction → Nat → Outcome
  | .returns, depth => ⟨[], depth, false⟩
  | .recovers pre post caught next, depth =>
    let o := recover mode callbacks (fun i => react (pre i)) (fun i => react (post i)) depth
    if caught then
      let last := react next o.depth
      { last with log := o.log ++ last.log }
    else { o with thrown := true }

end Invoke

namespace CallbackRuntime

def callbackRegister (rt : CallbackRuntime) (loc : CallbackLocation) : CallbackCode × CallbackRuntime :=
  if !rt.initFlag then (.uninitialized, rt)
  else (.success, { rt with callbacks := Function.update rt.callbacks loc (rt.callbacks loc ++ [rt.registered])
                            registered := rt.registered + 1 })

def callbackPop (rt : CallbackRuntime) (loc : CallbackLocation) : CallbackCode × CallbackRuntime :=
  if !rt.initFlag then (.uninitialized, rt)
  else if (rt.callbacks loc).isEmpty then (.callbackNotRegistered, rt)
  else (.success, { rt with callbacks := Function.update rt.callbacks loc (rt.callbacks loc).dropLast })

/-- What an application does with the callbacks, a failure that has a recovery run them included. -/
inductive Op where
  | register (loc : CallbackLocation)
  | pop (loc : CallbackLocation)
  | recover (mode : CallbackExceptionMode) (pre post : Nat → Reaction)

/-- One step of an application, with the invocations it causes. -/
def step (rt : CallbackRuntime) : Op → List Invocation × CallbackRuntime
  | .register loc => ([], (rt.callbackRegister loc).2)
  | .pop loc => ([], (rt.callbackPop loc).2)
  | .recover mode pre post =>
    if !rt.initFlag then ([], rt)
    else
      let o := Fenix.recover mode rt.callbacks (fun i => react mode rt.callbacks (pre i))
        (fun i => react mode rt.callbacks (post i)) rt.depth
      (o.log, { rt with depth := o.depth })

/-- The invocations of a whole run. -/
def run : CallbackRuntime → List Op → List Invocation
  | _, [] => []
  | rt, op :: ops =>
    let (log, next) := rt.step op
    log ++ run next ops

/-- After `Fenix_Init`. -/
def start : CallbackRuntime := ⟨true, fun _ => [], 0, 0⟩

end CallbackRuntime

end Fenix
