import Risc32.Fault
import Risc32.Compiled.Error

/-!
# Execution

Guest code changes a state and may stop early. What it had changed until then stays changed, so
an execution that stops still has a state. Loops of guest code run on fuel: an execution that
uses it up says so, which is neither success nor a fault, and more fuel takes it further.

The same kind of execution serves for memory, for the processor, for the processor with its host
and for the whole machine. Each of these has a function that runs an execution of the part before
it.
-/

set_option autoImplicit false

namespace Risc32

/-- Why an execution stopped before its end. -/
inductive Halt where
  | fault (reason : Fault)
  /-- The program has no compiled form, so nothing of it was run. -/
  | uncompilable (reason : CompileError)
  | outOfFuel
deriving DecidableEq, Repr

/-- An execution on the state `s`. -/
abbrev Exec (s α : Type) := EStateM Halt s α

namespace Exec

variable {s α : Type}

/-- Stops with a fault and changes nothing. -/
def raise (reason : Fault) : Exec s α :=
  throw (.fault reason)

/-- Goes on with a value, or stops with the fault that stands in its place. -/
def ofExcept : Except Fault α → Exec s α
  | .ok a => pure a
  | .error reason => raise reason

end Exec

end Risc32
