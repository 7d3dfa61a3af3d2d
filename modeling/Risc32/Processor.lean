import Risc32.Register.File
import Risc32.Memory
import Risc32.Encoding.Opcode

/-!
# Processor state

Everything an instruction can observe or change. The interpreter and compiled routines work on
the same state, which is what lets execution switch between them in the middle of a program.
-/

set_option autoImplicit false

namespace Risc32

structure Processor where
  registers : RegisterFile
  memory : Memory
  pc : Word
  /-- The word fetched last. -/
  ir : Word
deriving DecidableEq

namespace Processor

/-- A processor with `size` bytes of memory and everything zero. -/
def zero (size : Nat) : Processor where
  registers := .zero
  memory := .zero size
  pc := 0
  ir := 0

def clear (cpu : Processor) : Processor :=
  zero cpu.memory.size

/-! ## Registers -/

/-- The value of the register that an instruction field names. -/
def register (cpu : Processor) (index : Byte) : Word :=
  cpu.registers.get index

def setRegister (cpu : Processor) (index : Byte) (value : Word) : Processor :=
  { cpu with registers := cpu.registers.set index value }

/-- The processor after a call noted where to return to. -/
def link (cpu : Processor) (address : Word) : Processor :=
  { cpu with registers := cpu.registers.write .returnAddress address }

/-! ## Memory and control -/

/-- Works on memory and leaves the rest of the processor alone. -/
@[inline] def onMemory {α : Type} (x : Exec Memory α) : Exec Processor α
  | ⟨registers, memory, pc, ir⟩ =>
    match x memory with
    | .ok a memory => .ok a ⟨registers, memory, pc, ir⟩
    | .error halt memory => .error halt ⟨registers, memory, pc, ir⟩

/-- Moves a value between register `b` and the memory at `address`. Bytes are loaded with or
without their sign, and stores take the low bytes of the register. -/
def access (kind : MemoryAccess) (site : Site) (b : Byte) (address : Word) :
    Exec Processor Unit := do
  match kind with
  | .loadWord =>
    let value ← Exec.ofExcept ((← get).memory.readWord site address)
    modify (·.setRegister b value)
  | .loadByte =>
    let value ← Exec.ofExcept ((← get).memory.readByte site address)
    modify (·.setRegister b (value.signExtend 32))
  | .loadByteUnsigned =>
    let value ← Exec.ofExcept ((← get).memory.readByte site address)
    modify (·.setRegister b (value.setWidth 32))
  | .storeWord =>
    let value := (← get).register b
    onMemory (Memory.writeWord site address value)
  | .storeByte =>
    let value := (← get).register b
    onMemory (Memory.writeByte site address (value.setWidth 8))

/-- Moves the program counter to `target`, which has to be a multiple of four. -/
def jump (instruction : String) (target : Word) : Exec Processor Unit := do
  let pc := (← get).pc
  Exec.ofExcept (checkAligned ⟨instruction, pc⟩ target)
  modify ({ · with pc := target })

end Processor

end Risc32
