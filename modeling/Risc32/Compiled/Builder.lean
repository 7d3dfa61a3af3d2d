import Risc32.Compiled.Routine
import Risc32.Encoding.Form

/-!
# Building a routine

A routine is built one instruction after the other. A branch may go to an instruction that has
not been seen yet, so it is given a label, and labels are resolved to step positions at the end.

Instructions are known by their index. `enter` says which instruction comes next and binds its
index to the next step; `labelFor` asks for a label for an index, and gives the same one to all
who ask. `toRoutine` fails if somebody asked for an index that was never bound.
-/

set_option autoImplicit false

namespace Risc32

/-- How a return leaves the code that is being built. -/
inductive Exit where
  /-- To the interpreter, with the program counter at the return address. -/
  | toInterpreter
  /-- To the routine that called. -/
  | toCaller
deriving DecidableEq, Repr

/-- Where a call can go. -/
inductive Linkage where
  /-- Calls have no compiled form. -/
  | none
  /-- To the routine of a function, found by the index of its first instruction, or to a system
  call. Of two functions with one index the later one counts. -/
  | units (functions : List (Nat × Nat)) (systemCalls : List Word)
deriving DecidableEq, Repr

def Linkage.unitAt? (functions : List (Nat × Nat)) (index : Nat) : Option Nat :=
  functions.reverse.lookup index

/-- A target that some branch has asked a label for. -/
structure LabelRequest where
  target : Nat
  /-- The number of the label. -/
  label : Nat
  /-- The index of the first instruction that asked. -/
  referrer : Nat
deriving DecidableEq, Repr

/-- A routine under construction. -/
structure Builder where
  /-- The address of the instruction with index zero. -/
  base : Word
  exit : Exit
  linkage : Linkage
  index : Nat
  steps : Array Step
  /-- One request for each target that has a label. -/
  labels : Array LabelRequest
  /-- Step positions by index, the latest binding first. -/
  bindings : List (Nat × Nat)

namespace Builder

def new (base : Word) (exit : Exit) (linkage : Linkage) : Builder where
  base := base
  exit := exit
  linkage := linkage
  index := 0
  steps := #[]
  labels := #[]
  bindings := []

/-- The program counter while the current instruction executes, which is already past it. -/
def nextAddress (b : Builder) : Word :=
  b.base + BitVec.ofNat 32 (4 * (b.index + 1))

def push (b : Builder) (step : Step) : Builder :=
  { b with steps := b.steps.push step }

/-- Binds an index to the position of the next step. -/
def bind (b : Builder) (index : Nat) : Builder :=
  { b with bindings := (index, b.steps.size) :: b.bindings }

/-- Makes `index` the current instruction, which the next step belongs to. -/
def enter (b : Builder) (index : Nat) : Builder :=
  { b.bind index with index := index }

def position? (b : Builder) (index : Nat) : Option Nat :=
  b.bindings.lookup index

/-- The number of the label for an index, which is created when first asked for. Its number is how
many there are already. -/
def labelFor (b : Builder) (target : Int) : Except CompileError (Nat × Builder) :=
  match target with
  | .ofNat target =>
    match b.labels.find? (·.target == target) with
    | some request => .ok (request.label, b)
    | none =>
      let request : LabelRequest := ⟨target, b.labels.size, b.index⟩
      .ok (request.label, { b with labels := b.labels.push request })
  | .negSucc _ => .error (.unresolvedBranch b.index target)

def resolve (b : Builder) (request : LabelRequest) : Except CompileError Nat :=
  match b.position? request.target with
  | some position => .ok position
  | none => .error (.unresolvedBranch request.referrer request.target)

/-- Puts the position of a target into the table of labels. -/
def place (b : Builder) (targets : Array Nat) (request : LabelRequest) :
    Except CompileError (Array Nat) := do
  let position ← b.resolve request
  return targets.setIfInBounds request.label position

/-- The routine, with a table that is as long as there are labels. -/
def toRoutine (b : Builder) (entry : Word) : Except CompileError Routine := do
  let targets ← b.labels.toList.foldlM b.place (Array.replicate b.labels.size 0)
  return ⟨entry, b.steps, targets⟩

end Builder

end Risc32
