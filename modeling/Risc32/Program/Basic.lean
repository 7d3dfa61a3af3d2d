import Risc32.Program.StaticData
import Risc32.Program.Functions
import Risc32.Names

/-!
# Programs

An assembled program: its instructions, its data, and what the machine and the compilers have to
know about them. Instructions begin at address zero and data follows them.
-/

set_option autoImplicit false

namespace Risc32

structure Program where
  words : List Word
  data : StaticData
  symbols : LabelTable
  functions : Functions

namespace Program

/-- Where the instructions of every program begin. -/
def textStart : Word := 0

/-- Where a program without data would have it: right behind `count` instructions. -/
def noData (count : Nat) : StaticData :=
  ⟨4 * count, []⟩

/-- The label at which a program begins, if it has it. -/
def entrySymbol : String := "main"

/-- The first address past the instructions. A run that gets there is over. -/
def textEnd (p : Program) : Nat :=
  4 * p.words.length

/-- Where a program begins: at its entry symbol, or else at its first instruction. -/
def entryPoint (p : Program) : Nat :=
  (p.symbols.address? entrySymbol).getD 0

/-- The program as memory holds it. -/
def image (p : Program) : List Byte :=
  p.words.flatMap Word.bytes ++ p.data.bytes

end Program

end Risc32
