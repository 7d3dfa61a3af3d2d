import Risc32.SystemCalls

/-!
# Compiled routines

Compiled code is a list of steps, one for each instruction. A step has everything worked out that
does not depend on registers or memory: which function it computes, which operand an immediate
stands for, where a branch goes, what the program counter would be. Running a step changes the
guest and says where to go on, and nothing but `Step.run` gives a step its meaning.

Steps do not keep the program counter up to date. They set it when they raise a fault and when a
return leaves for the interpreter, so that in both cases it is what the interpreter would have.
-/

set_option autoImplicit false

namespace Risc32

variable {σ : Type}

/-- Where a routine goes on after a step. -/
inductive Successor where
  | next
  /-- To the position of a label. -/
  | jump (label : Nat)
  /-- Through another routine of the program and then to the next step. -/
  | call (unit : Nat)
  | leave
deriving DecidableEq, Repr

inductive Step where
  /-- `rC ← f(rA, rB)` -/
  | compute (f : Arithmetic.Function) (c a b : Byte)
  /-- `rB ← f(rA, operand)` -/
  | computeWith (f : Arithmetic.Function) (b a : Byte) (operand : Word)
  /-- Moves a value between `rB` and the memory at `rA + offset`. -/
  | access (kind : MemoryAccess) (site : Site) (b a : Byte) (offset : Word)
  /-- Goes to the label if the condition holds of `rA` and `rB`. -/
  | branch (condition : Arithmetic.Condition) (a b : Byte) (label : Nat)
  /-- A branch to a misaligned address, which faults if it is taken. -/
  | misalignedBranch (condition : Arithmetic.Condition) (a b : Byte) (site : Site) (address : Word)
  | callUnit (link : Word) (unit : Nat)
  | callSystem (link : Word) (address : Word)
  /-- Moves the program counter to the return address and leaves. -/
  | returnTo (site : Site)
  /-- Only goes somewhere else. -/
  | transfer (flow : Successor)
deriving DecidableEq, Repr

namespace Step

/-- A fault leaves the program counter behind the instruction that raised it, where the
interpreter has it. -/
def faultingAt {α : Type} (pc : Word) (x : Exec Processor α) : Exec Processor α := fun cpu =>
  match x cpu with
  | .ok a cpu => .ok a cpu
  | .error halt cpu => .error halt { cpu with pc := pc }

/-- What a step does and where it leads. -/
def run (calls : SystemCalls σ) : Step → Exec (Guest σ) Successor
  | .compute f c a b => Guest.onProcessor do
    modify fun cpu => cpu.setRegister c (f.apply (cpu.register a) (cpu.register b))
    return .next
  | .computeWith f b a operand => Guest.onProcessor do
    modify fun cpu => cpu.setRegister b (f.apply (cpu.register a) operand)
    return .next
  | .access kind site b a offset => Guest.onProcessor do
    let address := (← get).register a + offset
    faultingAt site.pc (Processor.access kind site b address)
    return .next
  | .branch condition a b label => Guest.onProcessor do
    let cpu ← get
    return if condition.holds (cpu.register a) (cpu.register b) then .jump label else .next
  | .misalignedBranch condition a b site address => Guest.onProcessor do
    let cpu ← get
    if condition.holds (cpu.register a) (cpu.register b) then
      faultingAt site.pc (Exec.raise (.misaligned site address))
    return .next
  | .callUnit link unit => Guest.onProcessor do
    modify (·.link link)
    return .call unit
  | .callSystem link address => do
    Guest.onProcessor (modify (·.link link))
    modify fun g => (calls.invoke? address g).getD g
    return .next
  | .returnTo site => Guest.onProcessor do
    let target := (← get).registers.read .returnAddress
    modify ({ · with pc := site.pc })
    Processor.jump site.instruction target
    return .leave
  | .transfer flow => return flow

end Step

/-- A compiled unit: its steps, and the position of each label. -/
structure Routine where
  /-- The address of the guest code it was compiled from. -/
  entry : Word
  steps : Array Step
  targets : Array Nat
deriving DecidableEq, Repr

namespace Routine

def size (r : Routine) : Nat :=
  r.steps.size

def target (r : Routine) (label : Nat) : Nat :=
  r.targets.getD label 0

/-- A one line summary of the routine. -/
def summary (r : Routine) : String :=
  "Routine \x7b entry: " ++ toString r.entry.toNat ++ ", steps: " ++ toString r.steps.size
    ++ ", labels: " ++ toString r.targets.size ++ " \x7d"

/-- Runs a routine from a step position on, until a step leaves or there is no next step. Every
step takes one unit of fuel, and a routine that is called has as much as its caller has left. -/
def runFrom (calls : SystemCalls σ) (units : Array Routine) :
    Nat → Routine → Nat → Exec (Guest σ) Unit
  | 0, _, _ => throw .outOfFuel
  | fuel + 1, r, position =>
    match r.steps[position]? with
    | none => return ()
    | some step => do
      match ← step.run calls with
      | .next => runFrom calls units fuel r (position + 1)
      | .jump label => runFrom calls units fuel r (r.target label)
      | .call unit =>
        if let some callee := units[unit]? then
          runFrom calls units fuel callee 0
        runFrom calls units fuel r (position + 1)
      | .leave => return ()

def run (calls : SystemCalls σ) (units : Array Routine) (fuel : Nat) (r : Routine) :
    Exec (Guest σ) Unit :=
  r.runFrom calls units fuel 0

end Routine

end Risc32
