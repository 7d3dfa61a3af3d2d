import Risc32.Word

/-!
# The three instruction layouts

Every instruction is one word. Its low six bits are the opcode, and the opcode decides which of
three layouts the other twenty-six bits have:

```
immediate   A:5  B:5  immediate:16        opcode:6
register    A:5  B:5  C:5  opx:11         opcode:6
jump        immediate:26                  opcode:6
```

A form keeps its fields as they were given, which may be wider than the room the word has for
them. `encode` cuts each field to its width and so cannot fail; `decode` reads any word at all,
also one whose opcode means nothing.
-/

set_option autoImplicit false

namespace Risc32

def opcodeField (w : Word) : Byte :=
  (w.extractLsb' 0 6).setWidth 8

/-- Two registers and a 16 bit immediate. -/
structure ImmediateForm where
  opcode : Byte
  a : Byte
  b : Byte
  immediate : BitVec 16
deriving DecidableEq, Repr

/-- Three registers and an 11 bit extended opcode. -/
structure RegisterForm where
  opcode : Byte
  opx : BitVec 16
  a : Byte
  b : Byte
  c : Byte
deriving DecidableEq, Repr

/-- The address of a word, counted in words. -/
structure JumpForm where
  opcode : Byte
  immediate : Word
deriving DecidableEq, Repr

/-! ## Immediate form -/

namespace ImmediateForm

def encode (f : ImmediateForm) : Word :=
  f.a.setWidth 5 ++ f.b.setWidth 5 ++ f.immediate ++ f.opcode.setWidth 6

def decode (w : Word) : ImmediateForm where
  opcode := opcodeField w
  a := (w.extractLsb' 27 5).setWidth 8
  b := (w.extractLsb' 22 5).setWidth 8
  immediate := w.extractLsb' 6 16

/-- The immediate with zeros above it. -/
def unsigned (f : ImmediateForm) : Word :=
  f.immediate.setWidth 32

/-- The immediate with its sign, bit 15, repeated above it. -/
def signed (f : ImmediateForm) : Word :=
  f.immediate.signExtend 32

end ImmediateForm

/-! ## Register form -/

namespace RegisterForm

def encode (f : RegisterForm) : Word :=
  f.a.setWidth 5 ++ f.b.setWidth 5 ++ f.c.setWidth 5 ++ f.opx.setWidth 11 ++ f.opcode.setWidth 6

def decode (w : Word) : RegisterForm where
  opcode := opcodeField w
  opx := (w.extractLsb' 6 11).setWidth 16
  a := (w.extractLsb' 27 5).setWidth 8
  b := (w.extractLsb' 22 5).setWidth 8
  c := (w.extractLsb' 17 5).setWidth 8

/-- Shifts by a constant keep the amount in the low five bits of the extended opcode. -/
def amount (f : RegisterForm) : Word :=
  (f.opx.setWidth 5).setWidth 32

end RegisterForm

/-! ## Jump form -/

namespace JumpForm

def encode (f : JumpForm) : Word :=
  f.immediate.setWidth 26 ++ f.opcode.setWidth 6

def decode (w : Word) : JumpForm where
  opcode := opcodeField w
  immediate := (w.extractLsb' 6 26).setWidth 32

/-- The byte address the form points to from `pc`. The top four bits come from `pc`, so a jump
stays inside its 256 MiB region. -/
def target (f : JumpForm) (pc : Word) : Word :=
  (pc &&& 0xF0000000#32) ||| (f.immediate <<< 2)

end JumpForm

end Risc32
