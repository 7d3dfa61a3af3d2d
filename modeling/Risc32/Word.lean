/-!
# Words and bytes

Everything the machine touches is a 32 bit word or one of the four bytes that make one up.
A word has no sign of its own: arithmetic wraps, and the few places that compare or print a
word as a signed number say so (`BitVec.slt`, `BitVec.toInt`).

Memory is little-endian, so a word is laid out with its least significant byte first
(`Word.bytes`), and `Word.ofBytes` puts it together again.
-/

set_option autoImplicit false

namespace Risc32

/-- A machine word: a register value, an address or an encoded instruction. -/
abbrev Word := BitVec 32

/-- The unit of memory, and of the small fields of an instruction before they are encoded. -/
abbrev Byte := BitVec 8

namespace Word

/-- The bytes of a word, the least significant one first. -/
def bytes (w : Word) : List Byte :=
  [w.extractLsb' 0 8, w.extractLsb' 8 8, w.extractLsb' 16 8, w.extractLsb' 24 8]

/-- The word whose bytes are given, the least significant one first. -/
def ofBytes (b₀ b₁ b₂ b₃ : Byte) : Word :=
  b₃ ++ b₂ ++ b₁ ++ b₀

@[simp] theorem length_bytes (w : Word) : (bytes w).length = 4 := rfl

/-- No bit is lost on the way through the bytes. -/
theorem ofBytes_extractLsb (w : Word) :
    ofBytes (w.extractLsb' 0 8) (w.extractLsb' 8 8) (w.extractLsb' 16 8) (w.extractLsb' 24 8)
      = w := by
  apply BitVec.eq_of_getLsbD_eq
  intro i hi
  simp only [ofBytes, BitVec.getLsbD_append, BitVec.getLsbD_extractLsb']
  grind

theorem bytes_ofBytes (b₀ b₁ b₂ b₃ : Byte) :
    bytes (ofBytes b₀ b₁ b₂ b₃) = [b₀, b₁, b₂, b₃] := by
  simp only [bytes, ofBytes, List.cons.injEq, and_true]
  refine ⟨?_, ?_, ?_, ?_⟩ <;>
  · apply BitVec.eq_of_getLsbD_eq
    intro i hi
    simp only [BitVec.getLsbD_append, BitVec.getLsbD_extractLsb']
    grind

/-- Instructions and word variables live at multiples of four. -/
def Aligned (address : Word) : Prop :=
  address.toNat % 4 = 0

instance (address : Word) : Decidable (Aligned address) :=
  inferInstanceAs (Decidable (address.toNat % 4 = 0))

end Word

end Risc32
