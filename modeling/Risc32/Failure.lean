import Risc32.Assembly.Error
import Risc32.Exec

/-!
# Failures

Everything that can go wrong between a source text and the end of its run, with the text it is
reported by.
-/

set_option autoImplicit false

namespace Risc32

inductive Failure where
  | assembly (reason : Assembly.Error)
  | halt (reason : Halt)
  | duplicateSystemCall (name : String) (address : Word)
deriving DecidableEq, Repr

def Halt.message : Halt → String
  | .fault reason => "runtime fault: " ++ reason.message
  | .uncompilable reason => "JIT compilation failed: " ++ reason.message
  | .outOfFuel => "the run has not ended within its fuel"

def Failure.message : Failure → String
  | .assembly reason => "assembler error: " ++ reason.message
  | .halt reason => reason.message
  | .duplicateSystemCall name address =>
    "system call `" ++ name ++ "` or address " ++ Text.hexWord address
      ++ " is already registered"

end Risc32
