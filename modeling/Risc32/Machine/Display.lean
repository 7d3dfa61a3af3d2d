import Risc32.Machine.Basic
import Risc32.Text.Grid

/-!
# The display of a machine

The program counter, the last instruction word and all registers, each in decimal and in
hexadecimal, in two halves side by side.
-/

set_option autoImplicit false

namespace Risc32

namespace RegisterFile

def displayRow (index : Nat) (value : Word) : List Text.Cell :=
  [.right ("r" ++ toString index ++ " ="),
    .left (toString value.toInt ++ " (" ++ Text.hexWord value ++ ")")]

/-- Some registers as a grid, the first of which has the given index. -/
def displayHalf (first : Nat) (values : List Word) : Text.Cell where
  side := .left
  lines := Text.Grid.lines {
    titles := [.right "Register", .left "Contents"]
    rows := values.zipIdx.map fun (value, i) => displayRow (first + i) value }

def display (file : RegisterFile) : Text.Grid where
  titles := [.left "Registers", .left ""]
  rows := [[displayHalf 0 (file.toList.take 16), displayHalf 16 (file.toList.drop 16)]]

end RegisterFile

/-- The machine as text, which ends with a line break. -/
def Machine.display {σ : Type} (m : Machine σ) : String :=
  "PC: " ++ Text.hexWord m.cpu.pc ++ "\tIR: " ++ Text.hexWord m.cpu.ir
    ++ "\tJIT: " ++ (if m.config.compileOnDemand then "on" else "off") ++ "\n"
    ++ String.join (m.cpu.registers.display.lines.map (· ++ "\n"))

end Risc32
