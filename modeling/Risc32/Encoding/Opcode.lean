import Risc32.Arithmetic

/-!
# Operations

The opcode of a word names its operation, except that all instructions with the register layout
share one opcode and are told apart by their extended opcode.

Besides its code and its name, each operation has a role: what it does with its fields. The role
carries everything the interpreter and the compiler need to know, so that neither has a list of
operations of its own.
-/

set_option autoImplicit false

namespace Risc32

inductive Layout where
  | immediate
  | register
  | jump
deriving DecidableEq, Repr

inductive MemoryAccess where
  | loadWord
  | loadByte
  | loadByteUnsigned
  | storeWord
  | storeByte
deriving DecidableEq, Repr

/-- How a 16 bit immediate becomes an operand of 32 bits. -/
inductive Extension where
  /-- The sign is repeated in the upper half. -/
  | signed
  /-- The upper half is zero. -/
  | zero
  /-- The immediate is the upper half and the lower half is zero. -/
  | upper
deriving DecidableEq, Repr

/-- The operand that a 16 bit immediate stands for. -/
def Extension.extend : Extension → BitVec 16 → Word
  | .signed, i => i.signExtend 32
  | .zero, i => i.setWidth 32
  | .upper, i => i ++ 0#16

/-! ## Primary opcodes -/

/-- The operations that the low six bits of a word can name. -/
inductive Opcode where
  | call
  | ldbu
  | addi
  | stb
  | br
  | ldb
  | cmpgei
  | andi
  | bge
  | cmplti
  | ori
  | stw
  | blt
  | ldw
  | cmpnei
  | xori
  | bne
  | cmpeqi
  | beq
  | andhi
  | orhi
  /-- The opcode that all instructions with the register layout share. -/
  | registers
  | xorhi
deriving DecidableEq, Repr

inductive Opcode.Role where
  /-- `rB ← f(rA, immediate)` -/
  | compute (f : Arithmetic.Function)
  /-- Moves the program counter if the condition holds of `rA` and `rB`. -/
  | branch (condition : Arithmetic.Condition)
  /-- Moves a value between `rB` and memory. -/
  | access (kind : MemoryAccess)
  | call
  | registers
deriving DecidableEq, Repr

namespace Opcode

def all : List Opcode :=
  [call, ldbu, addi, stb, br, ldb, cmpgei, andi, bge, cmplti, ori, stw, blt, ldw, cmpnei, xori,
    bne, cmpeqi, beq, andhi, orhi, registers, xorhi]

def code : Opcode → Byte
  | call => 0x00
  | ldbu => 0x03
  | addi => 0x04
  | stb => 0x05
  | br => 0x06
  | ldb => 0x07
  | cmpgei => 0x08
  | andi => 0x0C
  | bge => 0x0E
  | cmplti => 0x10
  | ori => 0x14
  | stw => 0x15
  | blt => 0x16
  | ldw => 0x17
  | cmpnei => 0x18
  | xori => 0x1C
  | bne => 0x1E
  | cmpeqi => 0x20
  | beq => 0x26
  | andhi => 0x2C
  | orhi => 0x34
  | registers => 0x3A
  | xorhi => 0x3C

/-- The mnemonic. The shared opcode of the register layout has a name that no source line can
contain. -/
def name : Opcode → String
  | call => "call"
  | ldbu => "ldbu"
  | addi => "addi"
  | stb => "stb"
  | br => "br"
  | ldb => "ldb"
  | cmpgei => "cmpgei"
  | andi => "andi"
  | bge => "bge"
  | cmplti => "cmplti"
  | ori => "ori"
  | stw => "stw"
  | blt => "blt"
  | ldw => "ldw"
  | cmpnei => "cmpnei"
  | xori => "xori"
  | bne => "bne"
  | cmpeqi => "cmpeqi"
  | beq => "beq"
  | andhi => "andhi"
  | orhi => "orhi"
  | registers => "<r-type>"
  | xorhi => "xorhi"

def role : Opcode → Role
  | call => .call
  | ldbu => .access .loadByteUnsigned
  | addi => .compute .add
  | stb => .access .storeByte
  | br => .branch .always
  | ldb => .access .loadByte
  | cmpgei => .compute .greaterEqual
  | andi => .compute .and
  | bge => .branch .greaterEqual
  | cmplti => .compute .less
  | ori => .compute .or
  | stw => .access .storeWord
  | blt => .branch .less
  | ldw => .access .loadWord
  | cmpnei => .compute .notEqual
  | xori => .compute .xor
  | bne => .branch .notEqual
  | cmpeqi => .compute .equal
  | beq => .branch .equal
  | andhi => .compute .and
  | orhi => .compute .or
  | registers => .registers
  | xorhi => .compute .xor

/-- Logic reads its immediate without a sign, the `hi` forms of it read an upper half, and all
else reads a signed number. -/
def extension : Opcode → Extension
  | andi | ori | xori => .zero
  | andhi | orhi | xorhi => .upper
  | _ => .signed

def ofCode? (c : Byte) : Option Opcode :=
  all.find? (·.code == c)

/-- The operation with the given name, which is spelled in lower case. -/
def ofName? (s : String) : Option Opcode :=
  all.find? (·.name == s)

def layout (op : Opcode) : Layout :=
  match op.role with
  | .call => .jump
  | .registers => .register
  | _ => .immediate

/-- What `rB ← f(rA, immediate)` computes, for the operations of that shape. -/
def function? (op : Opcode) : Option Arithmetic.Function :=
  match op.role with
  | .compute f => some f
  | _ => none

/-- When the branch is taken, for branches. -/
def condition? (op : Opcode) : Option Arithmetic.Condition :=
  match op.role with
  | .branch c => some c
  | _ => none

def isBranch (op : Opcode) : Bool :=
  op.condition?.isSome

def isMemory (op : Opcode) : Bool :=
  match op.role with
  | .access _ => true
  | _ => false

/-- The immediate as this operation reads it. -/
def operand (op : Opcode) (immediate : BitVec 16) : Word :=
  op.extension.extend immediate

end Opcode

/-! ## Extended opcodes -/

/-- Places a pattern of six bits at the top of the 11 bit extended opcode. The five bits below
are left for the amount of a shift. -/
def extendedCode (pattern : BitVec 16) : BitVec 16 :=
  (pattern.setWidth 6 ++ 0#5).setWidth 16

inductive ExtendedOpcode where
  | add
  | sub
  | and
  | or
  | xor
  | nor
  | sll
  | srl
  | slli
  | srli
  | cmpeq
  | cmpne
  | cmpge
  | cmplt
  | callr
  | ret
deriving DecidableEq, Repr

inductive ExtendedOpcode.Role where
  /-- `rC ← f(rA, rB)` -/
  | compute (f : Arithmetic.Function)
  /-- `rC ← f(rA, amount)` -/
  | shift (f : Arithmetic.Function)
  /-- Calls the address in `rA`. -/
  | callRegister
  | ret
deriving DecidableEq, Repr

namespace ExtendedOpcode

def all : List ExtendedOpcode :=
  [add, sub, and, or, xor, nor, sll, srl, slli, srli, cmpeq, cmpne, cmpge, cmplt, callr, ret]

/-- The extended opcode, with no shift amount in its low bits. -/
def code : ExtendedOpcode → BitVec 16
  | add => extendedCode 0b110001
  | sub => extendedCode 0b111001
  | and => extendedCode 0b001110
  | or => extendedCode 0b010110
  | xor => extendedCode 0b011110
  | nor => extendedCode 0b000110
  | sll => extendedCode 0b010011
  | srl => extendedCode 0b011011
  | slli => extendedCode 0b010010
  | srli => extendedCode 0b011010
  | cmpeq => extendedCode 0b100000
  | cmpne => extendedCode 0b011000
  | cmpge => extendedCode 0b001000
  | cmplt => extendedCode 0b010000
  | callr => extendedCode 0b011101
  | ret => extendedCode 0b000101

def name : ExtendedOpcode → String
  | add => "add"
  | sub => "sub"
  | and => "and"
  | or => "or"
  | xor => "xor"
  | nor => "nor"
  | sll => "sll"
  | srl => "srl"
  | slli => "slli"
  | srli => "srli"
  | cmpeq => "cmpeq"
  | cmpne => "cmpne"
  | cmpge => "cmpge"
  | cmplt => "cmplt"
  | callr => "callr"
  | ret => "ret"

def role : ExtendedOpcode → Role
  | add => .compute .add
  | sub => .compute .sub
  | and => .compute .and
  | or => .compute .or
  | xor => .compute .xor
  | nor => .compute .nor
  | sll => .compute .shiftLeft
  | srl => .compute .shiftRight
  | slli => .shift .shiftLeft
  | srli => .shift .shiftRight
  | cmpeq => .compute .equal
  | cmpne => .compute .notEqual
  | cmpge => .compute .greaterEqual
  | cmplt => .compute .less
  | callr => .callRegister
  | ret => .ret

/-- What `rC ← f(rA, rB)` computes, for the operations of that shape. -/
def function? (op : ExtendedOpcode) : Option Arithmetic.Function :=
  match op.role with
  | .compute f => some f
  | _ => none

/-- What `rC ← f(rA, amount)` computes, for shifts by a constant. -/
def shift? (op : ExtendedOpcode) : Option Arithmetic.Function :=
  match op.role with
  | .shift f => some f
  | _ => none

/-- The bits of an extended opcode that name this operation. Shifts by a constant leave the low
five to their amount. -/
def mask (op : ExtendedOpcode) : BitVec 16 :=
  if op.shift?.isSome then 0x7E0 else 0x7FF

def ofCode? (opx : BitVec 16) : Option ExtendedOpcode :=
  all.find? fun op => opx &&& op.mask == op.code

/-- The operation with the given name, which is spelled in lower case. -/
def ofName? (s : String) : Option ExtendedOpcode :=
  all.find? (·.name == s)

end ExtendedOpcode

end Risc32
