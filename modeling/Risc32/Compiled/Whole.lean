import Risc32.Compiled.Steps
import Risc32.Program.Basic

/-!
# Compiling a whole program

Every function of the program becomes a routine of its own, and everything that lies in no
function becomes the main routine. Calls between them are resolved when they are compiled, so a
compiled program never needs the interpreter.
-/

set_option autoImplicit false

namespace Risc32

/-- The instructions of a function, by index. -/
structure IndexRange where
  first : Nat
  stop : Nat
deriving DecidableEq, Repr

namespace IndexRange

def contains (r : IndexRange) (index : Nat) : Bool :=
  r.first ≤ index && index < r.stop

/-- The part of a list that lies in the range. -/
def slice {α : Type} (r : IndexRange) (l : List α) : List α :=
  (l.drop r.first).take (r.stop - r.first)

end IndexRange

/-- The functions of a program as ranges of its `count` instructions. -/
def Functions.ranges (t : Functions) (count : Nat) : List IndexRange :=
  t.extents.map fun x => ⟨x.entry / 4, min (x.entry / 4 + x.size) count⟩

structure CompiledProgram where
  main : Routine
  units : Array Routine
  /-- The step of the main routine at which the program begins. -/
  start : Nat
deriving DecidableEq, Repr

namespace CompiledProgram

def compileUnit (linkage : Linkage) (words : List Word) (r : IndexRange) :
    Except CompileError Routine := do
  let b ← (Builder.new Program.textStart .toCaller linkage).addWords r.first (r.slice words)
  b.toRoutine (Program.textStart + BitVec.ofNat 32 (4 * r.first))

/-- Appends the words of a program that lie in none of its functions. -/
def addOutside (ranges : List IndexRange) (b : Builder) (index : Nat) :
    List Word → Except CompileError Builder
  | [] => .ok (b.bind index)
  | w :: ws =>
    if ranges.any (·.contains index) then addOutside ranges b (index + 1) ws
    else do
      let b ← b.addWord index w
      addOutside ranges b (index + 1) ws

/-- Compiles a program. Its calls go to its functions or to one of the given system calls. -/
def compile (p : Program) (systemCalls : List Word) : Except CompileError CompiledProgram := do
  let ranges := p.functions.ranges p.words.length
  let linkage := .units (ranges.zipIdx.map fun (r, unit) => (r.first, unit)) systemCalls
  let units ← ranges.mapM (compileUnit linkage p.words)
  let b ← addOutside ranges (Builder.new Program.textStart .toCaller linkage) 0 p.words
  let entry := BitVec.ofNat 32 p.entryPoint
  match b.position? (p.entryPoint / 4) with
  | none => .error (.entryInsideFunction entry)
  | some start =>
    let main ← b.toRoutine entry
    return ⟨main, units.toArray, start⟩

/-- Runs a compiled program from its entry point. -/
def run {σ : Type} (c : CompiledProgram) (calls : SystemCalls σ) (fuel : Nat) :
    Exec (Guest σ) Unit :=
  c.main.runFrom calls c.units fuel c.start

end CompiledProgram

end Risc32
