import Risc32.Assembly.Draft
import Risc32.Assembly.Instructions
import Risc32.Program.Basic
import Risc32.Text.Blank

/-!
# Assembling

A program is assembled in two passes. The first reads the lines and settles where every label is;
the second makes an instruction of each statement, which can now name any label. If lines are
wrong in several ways, what the first pass finds is reported, then labels of data that are bound
twice, and only then what the second pass finds.
-/

set_option autoImplicit false

namespace Risc32

namespace Assembly

/-- The instructions for statements, the first of which has the given index. -/
def instructionsFrom (labels : LabelTable) (index : Nat) :
    List Statement → Except Error (List Instruction)
  | [] => .ok []
  | s :: rest =>
    match instructionOf ⟨labels, index⟩ s.toCommand with
    | .error cause => .error (s.error cause)
    | .ok i => do
      let is ← instructionsFrom labels (index + 1) rest
      return i :: is

/-- Finds the functions of a program. A function is open from its entry to the next `ret`, and
while one is open no other begins. -/
def functionsFrom (entries : List Nat) (index : Nat) (opened : Option Extent)
    (found : Functions) : List Statement → Functions
  | [] => found
  | s :: rest =>
    let opened :=
      match opened with
      | some x => some x
      | none => if entries.contains (4 * index) then some ⟨4 * index, 0⟩ else none
    match opened with
    | none => functionsFrom entries (index + 1) none found rest
    | some x =>
      let x := { x with size := x.size + 1 }
      if s.mnemonic = "ret" then functionsFrom entries (index + 1) none (found.insert x) rest
      else functionsFrom entries (index + 1) (some x) found rest

def Draft.toProgram (d : Draft) : Except Error Program := do
  let labels ← d.allLabels
  let statements := d.statements.toList
  let instructions ← instructionsFrom labels 0 statements
  return {
    words := instructions.map Instruction.encode
    data := d.data.area d.address
    symbols := labels
    functions := functionsFrom d.entries 0 none .empty statements }

end Assembly

/-- Assembles lines of source. The labels of the program are added to the seed, which is where
the names of system calls come from. -/
def Program.ofLines (lines : List String) (seed : LabelTable) :
    Except Assembly.Error Program := do
  let draft ← (Assembly.Draft.new seed).addLines 0 lines
  draft.toProgram

def Program.ofText (text : String) (seed : LabelTable) : Except Assembly.Error Program :=
  ofLines (Text.lines text) seed

end Risc32
