import Risc32.Text.Hex

/-!
# Compile errors

Why a piece of guest code has no compiled form. Instructions are named by their index, counted
from the first instruction of the program or, for a function compiled on its own, of the
function.
-/

set_option autoImplicit false

namespace Risc32

inductive CompileError where
  /-- There is no compiled form for the instruction. -/
  | noForm (index : Nat) (instruction : String)
  | undecodable (index : Nat) (word : Word)
  /-- A branch leaves the code that is compiled with it. -/
  | unresolvedBranch (index : Nat) (target : Int)
  /-- No return follows the entry point. -/
  | missingReturn (entry : Word)
  /-- A call that is neither to a function nor to a system call. -/
  | unknownCallTarget (index : Nat) (address : Word)
  /-- The program begins in the middle of a function. -/
  | entryInsideFunction (entry : Word)
deriving DecidableEq, Repr

def CompileError.message : CompileError → String
  | .noForm index instruction =>
    "no emitter for instruction " ++ instruction ++ " at index " ++ toString index
  | .undecodable index word =>
    "undecodable word " ++ Text.hexWord word ++ " at index " ++ toString index
  | .unresolvedBranch index target =>
    "branch at index " ++ toString index ++ " targets index " ++ toString target
      ++ ", which is outside of the unit"
  | .missingReturn entry =>
    "no `ret` found after entry point " ++ Text.hexWord entry
  | .unknownCallTarget index address =>
    "call at index " ++ toString index ++ " targets " ++ Text.hexWord address
      ++ ", which is neither a function nor a system call"
  | .entryInsideFunction entry =>
    "entry point " ++ Text.hexWord entry ++ " lies inside a function body"

end Risc32
