import Risc32.Compiled.OnDemand
import Risc32.Compiled.Whole

/-!
# The machine

A machine interprets a loaded program one instruction at a time: it fetches the word at the
program counter and executes it. With compilation on demand enabled, the first call of a function
compiles it and every later call runs the routine instead of interpreting the body. A program can
also be compiled as a whole and run without any interpretation.

The machine keeps its loaded program only as bytes in memory; what it remembers of it otherwise
is where it begins and where it ends.
-/

set_option autoImplicit false

namespace Risc32

structure Config where
  memorySize : Nat := 8 * 1024 * 1024
  /-- Whether functions are compiled when they are called. -/
  compileOnDemand : Bool := false
  /-- Whether a word that means nothing is a fault instead of being passed over. -/
  strictDecoding : Bool := false
  /-- Whether the machine begins with the default system calls. -/
  defaultSystemCalls : Bool := true
deriving DecidableEq, Repr

structure Machine (σ : Type) extends Guest σ where
  calls : SystemCalls σ
  cache : RoutineCache
  config : Config
  /-- Where the loaded program begins. -/
  entryPoint : Word
  /-- The first address past the instructions of the loaded program. -/
  programEnd : Word

namespace Machine

variable {σ α : Type}

/-- A machine with no program, everything zero. -/
def new [Console σ] (config : Config) (host : σ) : Machine σ where
  cpu := .zero config.memorySize
  host := host
  calls := if config.defaultSystemCalls then .defaults else .empty
  cache := .empty
  config := config
  entryPoint := 0
  programEnd := 0

/-- Works on the guest and leaves the rest of the machine alone. -/
@[inline] def onGuest (x : Exec (Guest σ) α) : Exec (Machine σ) α
  | ⟨guest, calls, cache, config, entryPoint, programEnd⟩ =>
    match x guest with
    | .ok a guest => .ok a ⟨guest, calls, cache, config, entryPoint, programEnd⟩
    | .error halt guest => .error halt ⟨guest, calls, cache, config, entryPoint, programEnd⟩

/-- Works on the processor and leaves the rest of the machine alone. -/
@[inline] def onProcessor (x : Exec Processor α) : Exec (Machine σ) α :=
  onGuest (Guest.onProcessor x)

/-! ## Fetching and executing -/

/-- Loads the word at the program counter and moves the program counter behind it. -/
def fetch : Exec (Machine σ) Unit := onProcessor do
  let pc := (← get).pc
  let word ← Exec.ofExcept ((← get).memory.readWord ⟨"fetch", pc⟩ pc)
  modify ({ · with pc := pc + 4, ir := word })

/-- What happens to a word that means nothing. -/
def passOver (word : Word) : Exec (Machine σ) Unit := do
  let m ← get
  if m.config.strictDecoding then
    Exec.raise (.illegalInstruction (m.cpu.pc - 4) word)

/-- Transfers control to `target` and notes where to return to. A system call runs in place. A
function that is compiled runs to its end, and its return leaves the program counter behind the
call. Anything else is a jump, and may be compiled for the next call. -/
def call (fuel : Nat) (instruction : String) (target : Word) : Exec (Machine σ) Unit := do
  let m ← get
  let pc := m.cpu.pc
  if m.calls.contains target then
    onProcessor (modify (·.link pc))
    onGuest (modify fun g => (m.calls.invoke? target g).getD g)
  else
    match if m.config.compileOnDemand then m.cache.routine? target else none with
    | some routine =>
      onProcessor (modify (·.link pc))
      onGuest (routine.run m.calls #[] fuel)
    | none =>
      Exec.ofExcept (checkAligned ⟨instruction, pc⟩ target)
      onProcessor (modify fun cpu => { cpu.link pc with pc := target })
      if m.config.compileOnDemand then
        modify fun m => { m with cache := m.cache.consider target m.cpu.memory m.programEnd }

def performImmediate (op : Opcode) (f : ImmediateForm) : Exec (Machine σ) Unit := do
  match op.role with
  | .compute g => onProcessor do
    modify fun cpu =>
      cpu.setRegister f.b (g.apply (cpu.register f.a) (op.operand f.immediate))
  | .branch condition => onProcessor do
    let cpu ← get
    if condition.holds (cpu.register f.a) (cpu.register f.b) then
      Processor.jump op.name (cpu.pc + f.signed)
  | .access kind => onProcessor do
    let cpu ← get
    Processor.access kind ⟨op.name, cpu.pc⟩ f.b (cpu.register f.a + f.signed)
  | .call | .registers => passOver (← get).cpu.ir

def performRegister (fuel : Nat) (op : ExtendedOpcode) (f : RegisterForm) :
    Exec (Machine σ) Unit := do
  match op.role with
  | .compute g => onProcessor do
    modify fun cpu => cpu.setRegister f.c (g.apply (cpu.register f.a) (cpu.register f.b))
  | .shift g => onProcessor do
    modify fun cpu => cpu.setRegister f.c (g.apply (cpu.register f.a) f.amount)
  | .callRegister =>
    let target := (← get).cpu.register f.a
    call fuel op.name target
  | .ret => onProcessor do
    let target := (← get).registers.read .returnAddress
    Processor.jump op.name target

def performJump (fuel : Nat) (op : Opcode) (f : JumpForm) : Exec (Machine σ) Unit := do
  match op.role with
  | .call =>
    let target := f.target (← get).cpu.pc
    call fuel op.name target
  | _ => passOver (← get).cpu.ir

/-- Executes the word that was fetched last. Only a call of a compiled function takes fuel. -/
def execute (fuel : Nat) : Exec (Machine σ) Unit := do
  let word := (← get).cpu.ir
  match Instruction.decode word with
  | none => passOver word
  | some (.immediate op f) => performImmediate op f
  | some (.register op f) => performRegister fuel op f
  | some (.jump op f) => performJump fuel op f

/-- Executes a word as if it had been fetched. The program counter does not move first, so
offsets count from where it is. -/
def executeWord (fuel : Nat) (word : Word) : Exec (Machine σ) Unit := do
  onProcessor (modify ({ · with ir := word }))
  execute fuel

def step (fuel : Nat) : Exec (Machine σ) Unit := do
  fetch
  execute fuel

/-! ## Programs -/

/-- Copies a program into memory and notes where it begins and ends. Routines of the program
before it are forgotten. -/
def load (p : Program) : Exec (Machine σ) Unit := do
  onProcessor (Processor.onMemory (Memory.load Program.textStart p.image))
  modify fun m => { m with
    entryPoint := BitVec.ofNat 32 p.entryPoint
    programEnd := BitVec.ofNat 32 p.textEnd
    cache := .empty }

def setPc (pc : Word) : Exec (Machine σ) Unit :=
  onProcessor (modify ({ · with pc := pc }))

def restart : Exec (Machine σ) Unit := do
  setPc (← get).entryPoint

/-- Moves the program counter to where the program ends, so that a run is over at once. -/
def stop : Exec (Machine σ) Unit := do
  setPc (← get).programEnd

/-- Runs from the program counter on, until it leaves the program. Every instruction takes one
unit of fuel, and a compiled function has as much as is left when it is called. -/
def resume : Nat → Exec (Machine σ) Unit
  | 0 => throw .outOfFuel
  | fuel + 1 => do
    let m ← get
    if m.cpu.pc < m.programEnd then
      step fuel
      resume fuel

def run (fuel : Nat) : Exec (Machine σ) Unit := do
  restart
  resume fuel

def runProgram (fuel : Nat) (p : Program) : Exec (Machine σ) Unit := do
  load p
  run fuel

/-- Loads a program, compiles it as a whole and runs what came of it. -/
def runCompiled (fuel : Nat) (p : Program) : Exec (Machine σ) Unit := do
  load p
  let calls := (← get).calls
  match CompiledProgram.compile p calls.symbols.addresses with
  | .error reason => throw (.uncompilable reason)
  | .ok compiled =>
    restart
    onGuest (compiled.run calls fuel)
    stop

/-! ## Settings -/

/-- Clears the processor and forgets all routines. The loaded program is still known, but it is
no longer in memory. -/
def reset (m : Machine σ) : Machine σ :=
  { m with cpu := m.cpu.clear, cache := .empty }

/-- Adds a system call, unless its name or its address is taken. -/
def addSystemCall? (m : Machine σ) (c : SystemCall σ) : Option (Machine σ) :=
  (m.calls.add? c).map fun calls => { m with calls := calls }

/-- Turns compilation on demand on or off. What was compiled before is kept. -/
def setCompileOnDemand (m : Machine σ) (on : Bool) : Machine σ :=
  { m with config := { m.config with compileOnDemand := on } }

end Machine

end Risc32
