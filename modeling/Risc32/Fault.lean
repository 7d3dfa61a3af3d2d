import Risc32.Text.Hex

/-!
# Faults

A fault stops guest code. It names the instruction that raised it and the program counter at the
time, which is already past that instruction.
-/

set_option autoImplicit false

namespace Risc32

/-- Who makes a memory access or a jump: it only names the fault that may come of it. -/
structure Site where
  instruction : String
  pc : Word
deriving DecidableEq, Repr

/-- Why guest code cannot go on. -/
inductive Fault where
  /-- A word access or a jump to an address that is no multiple of four. -/
  | misaligned (site : Site) (address : Word)
  /-- An access that reaches past the end of memory. -/
  | outOfBounds (site : Site) (address : Word)
  /-- A word that means nothing, where the machine is strict about such words. -/
  | illegalInstruction (pc : Word) (word : Word)
deriving DecidableEq, Repr

def Fault.message : Fault → String
  | .misaligned site address =>
    site.instruction ++ ": misaligned address " ++ Text.hexWord address
      ++ " (pc = " ++ Text.hexWord site.pc ++ ")"
  | .outOfBounds site address =>
    site.instruction ++ ": address " ++ Text.hexWord address
      ++ " is outside of memory (pc = " ++ Text.hexWord site.pc ++ ")"
  | .illegalInstruction pc word =>
    "illegal instruction " ++ Text.hexWord word ++ " (pc = " ++ Text.hexWord pc ++ ")"

end Risc32
