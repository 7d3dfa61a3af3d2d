import Risc32.Memory

/-!
# Static data

The variables of a program follow its instructions. Each has an address of its own, and what lies
between them, for the sake of alignment, is zero.
-/

set_option autoImplicit false

namespace Risc32

inductive VariableKind where
  | word
  | byte
deriving DecidableEq, Repr

def VariableKind.size : VariableKind → Nat
  | .word => 4
  | .byte => 1

structure Variable where
  address : Nat
  kind : VariableKind
  value : Word
deriving DecidableEq, Repr

namespace Variable

def stop (v : Variable) : Nat :=
  v.address + v.kind.size

/-- The variable as memory holds it. A byte keeps the low eight bits of its value. -/
def bytes (v : Variable) : List Byte :=
  match v.kind with
  | .word => Word.bytes v.value
  | .byte => [v.value.setWidth 8]

end Variable

/-- Variables and the address where their area begins. -/
structure StaticData where
  start : Nat
  vars : List Variable
deriving DecidableEq, Repr

namespace StaticData

/-- The number of bytes from the start to the end of the last variable. -/
def size (d : StaticData) : Nat :=
  (d.vars.map (·.stop)).foldl max d.start - d.start

/-- The area as memory holds it. Where variables overlap, the later one stands. -/
def bytes (d : StaticData) : List Byte :=
  (d.vars.foldl (fun m v => m.putBytes (v.address - d.start) v.bytes)
    (Memory.zero d.size)).bytes.toList

end StaticData

end Risc32
