import Risc32.Register.Name

/-!
# The register file

Instructions name registers by a field of eight bits. Index zero itself reads as zero and
discards what is written to it; any other index counts modulo thirty-two.
-/

set_option autoImplicit false

namespace Risc32

/-- The contents of the registers. Slot zero is only ever reached through a multiple of
thirty-two that is not zero. -/
structure RegisterFile where
  slots : Vector Word 32
deriving DecidableEq

namespace RegisterFile

def zero : RegisterFile :=
  ⟨Vector.replicate 32 0#32⟩

/-- The slot that an index other than zero counts to. -/
def slot (index : Byte) : Fin 32 :=
  ⟨index.toNat % 32, Nat.mod_lt _ (by decide)⟩

def get (file : RegisterFile) (index : Byte) : Word :=
  if index = 0#8 then 0#32 else file.slots[slot index]

def set (file : RegisterFile) (index : Byte) (value : Word) : RegisterFile :=
  if index = 0#8 then file else ⟨file.slots.set (slot index) value⟩

/-! ## What reading gives after writing -/

@[simp] theorem get_zero (file : RegisterFile) : file.get 0#8 = 0#32 := rfl

theorem get_set (file : RegisterFile) (i j : Byte) (value : Word) :
    (file.set i value).get j =
      if i ≠ 0#8 ∧ j ≠ 0#8 ∧ slot i = slot j then value else file.get j := by
  by_cases hi : i = 0#8
  · simp [set, hi]
  · by_cases hj : j = 0#8
    · simp [hj]
    · simp [get, set, hi, hj, Vector.getElem_set, Fin.ext_iff]

/-! ## Registers by name -/

def read (file : RegisterFile) (r : Register) : Word :=
  file.get r.index

def write (file : RegisterFile) (r : Register) (value : Word) : RegisterFile :=
  file.set r.index value

/-- The slots as they are, slot zero first. -/
def toList (file : RegisterFile) : List Word :=
  file.slots.toList

end RegisterFile

end Risc32
