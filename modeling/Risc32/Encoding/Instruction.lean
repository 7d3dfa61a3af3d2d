import Risc32.Encoding.Form
import Risc32.Encoding.Opcode
import Risc32.Text.Hex

/-!
# Instructions

An instruction pairs an operation with the fields of its word. `Instruction.decode` gives a word
its meaning, if it has one, and `Instruction.encode` writes the word again.
-/

set_option autoImplicit false

namespace Risc32

/-- An operation together with the fields of its word. -/
inductive Instruction where
  | immediate (op : Opcode) (form : ImmediateForm)
  | register (op : ExtendedOpcode) (form : RegisterForm)
  | jump (op : Opcode) (form : JumpForm)
deriving DecidableEq, Repr

namespace Instruction

/-! ## Building -/

def ofImmediate (op : Opcode) (a b : Byte) (immediate : BitVec 16) : Instruction :=
  .immediate op ⟨op.code, a, b, immediate⟩

def ofRegisters (op : ExtendedOpcode) (a b c : Byte) : Instruction :=
  .register op ⟨Opcode.registers.code, op.code, a, b, c⟩

/-- A shift by a constant, whose amount goes into the low bits of the extended opcode. -/
def ofShift (op : ExtendedOpcode) (a c amount : Byte) : Instruction :=
  .register op
    ⟨Opcode.registers.code, op.code ||| (amount.setWidth 5).setWidth 16, a, 0, c⟩

def ofJump (op : Opcode) (immediate : Word) : Instruction :=
  .jump op ⟨op.code, immediate⟩

/-! ## Words -/

def encode : Instruction → Word
  | immediate _ form => form.encode
  | register _ form => form.encode
  | jump _ form => form.encode

/-- The instruction a word stands for: none if its opcode, or in the register layout its extended
opcode, names no operation. -/
def decode (w : Word) : Option Instruction := do
  let op ← Opcode.ofCode? (opcodeField w)
  match op.layout with
  | .immediate => return immediate op (ImmediateForm.decode w)
  | .jump => return jump op (JumpForm.decode w)
  | .register =>
    let form := RegisterForm.decode w
    let extended ← ExtendedOpcode.ofCode? form.opx
    return register extended form

/-- Whether the instruction is a return, which is where a function ends. -/
def isReturn : Instruction → Bool
  | register op _ => op == .ret
  | _ => false

/-! ## Text -/

def name : Instruction → String
  | immediate op _ => op.name
  | register op _ => op.name
  | jump op _ => op.name

/-- The operation and its fields, as listings and compile errors show them. -/
def text : Instruction → String
  | immediate op f =>
    op.name ++ "(A=" ++ toString f.a.toNat ++ ", B=" ++ toString f.b.toNat
      ++ ", imm=" ++ toString f.signed.toInt ++ ")"
  | register op f =>
    op.name ++ "(A=" ++ toString f.a.toNat ++ ", B=" ++ toString f.b.toNat
      ++ ", C=" ++ toString f.c.toNat ++ ", opx=" ++ Text.hex f.opx.toNat ++ ")"
  | jump op f =>
    op.name ++ "(" ++ Text.hex (f.immediate <<< 2).toNat ++ ")"

end Instruction

end Risc32
