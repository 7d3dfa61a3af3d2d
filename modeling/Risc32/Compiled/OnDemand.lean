import Risc32.Compiled.Steps
import Risc32.Memory

/-!
# Functions compiled on demand

The machine asks for a function when it first calls it. The function is whatever stands in memory
from the address called up to the first return. If it can be compiled, later calls run the
routine; if not, they are interpreted, and nobody tries again.
-/

set_option autoImplicit false

namespace Risc32

/-- At most `count` words from `address` on, up to and including the first return. -/
def Memory.wordsToReturn? (m : Memory) : Nat → Nat → Option (List Word)
  | 0, _ => none
  | count + 1, address =>
    let site : Site := ⟨"compile", BitVec.ofNat 32 address⟩
    match m.readWord site (BitVec.ofNat 32 address) with
    | .error _ => none
    | .ok w =>
      if (Instruction.decode w).any (·.isReturn) then some [w]
      else (m.wordsToReturn? count (address + 4)).map (w :: ·)

/-- The function at `entry`: the words below `stop` up to and including the first return. -/
def Memory.functionAt (m : Memory) (entry stop : Word) : Except CompileError (List Word) :=
  match m.wordsToReturn? ((stop.toNat - entry.toNat + 3) / 4) entry.toNat with
  | some body => .ok body
  | none => .error (.missingReturn entry)

/-- The function at `entry` as a routine. Its instructions are counted from `entry`. -/
def Routine.ofFunction (m : Memory) (entry stop : Word) : Except CompileError Routine := do
  let body ← m.functionAt entry stop
  let b ← (Builder.new entry .toInterpreter .none).addWords 0 body
  b.toRoutine entry

/-- What came of the one attempt to compile a function. -/
inductive Verdict where
  | compiled (r : Routine)
  | failed
deriving DecidableEq, Repr

/-- The verdicts so far, by entry address. -/
structure RoutineCache where
  verdicts : List (Word × Verdict)
deriving DecidableEq, Repr

namespace RoutineCache

def empty : RoutineCache :=
  ⟨[]⟩

def verdict? (c : RoutineCache) (entry : Word) : Option Verdict :=
  c.verdicts.lookup entry

def routine? (c : RoutineCache) (entry : Word) : Option Routine :=
  match c.verdict? entry with
  | some (.compiled r) => some r
  | _ => none

/-- Compiles the function at `entry`, unless that was tried before. -/
def consider (c : RoutineCache) (entry : Word) (m : Memory) (stop : Word) : RoutineCache :=
  match c.verdict? entry with
  | some _ => c
  | none =>
    match Routine.ofFunction m entry stop with
    | .ok r => ⟨(entry, .compiled r) :: c.verdicts⟩
    | .error _ => ⟨(entry, .failed) :: c.verdicts⟩

end RoutineCache

end Risc32
