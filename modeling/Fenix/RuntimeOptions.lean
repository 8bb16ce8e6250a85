namespace Fenix

/-- How a rank goes on once an error has been handled. -/
inductive ResumeMode where
  | jump
  | throw
  | return
  deriving DecidableEq

/-- The options that decide how an error is left. -/
structure Options where
  resume : ResumeMode
  deriving DecidableEq

/-- What an option was before the scope in which it is set. -/
structure ScopedOption where
  old : ResumeMode
  deriving DecidableEq

namespace ScopedOption

def construct (new : ResumeMode) (o : Options) : ScopedOption × Options := (⟨o.resume⟩, { o with resume := new })

def destroy (scope : ScopedOption) (o : Options) : Options := { o with resume := scope.old }

/-- An option is as before once its scope has ended. -/
@[simp] theorem destroy_construct (new : ResumeMode) (o : Options) :
    (construct new o).1.destroy (construct new o).2 = o := rfl

end ScopedOption

/-- How a call comes back from an error that has been handled. -/
inductive CallOutcome where
  | returned
  | thrown
  | jumped
  deriving DecidableEq

namespace Options

def resumeApplication (o : Options) : CallOutcome :=
  match o.resume with
  | .jump => .jumped
  | .throw => .thrown
  | .return => .returned

/-- The options inside of the library, whatever the user has chosen. -/
def defaultRuntime (user : Options) : Options := (ScopedOption.construct .throw user).2

@[simp] theorem resumeApplication_defaultRuntime (user : Options) : user.defaultRuntime.resumeApplication = .thrown := rfl

end Options

end Fenix
