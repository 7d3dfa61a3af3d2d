import Risc32.Proofs.Assembly.Families
import Risc32.Proofs.Assembly.SymbolOperands

/-!
# Halves of a word

A word does not fit into an instruction, so it is written with two, and the assembler splits it with
the expressions `%hi`, `%lo` and `%hiadj`. This file says what they are worth: the upper and the
lower half of the value, and the upper half that goes with a lower half that is added with its sign
(`Half.high_or_low`, `Half.highAdjusted_add_low`).

The value is that of a literal or of a symbol (`Denotes`), cut to 32 bits. The name of a
symbol could in principle be a literal, or end too early the parentheses that it stands in, and then
it cannot be written in an expression. An identifier does neither (`Denotes.of_isIdentifier`).
-/

set_option autoImplicit false

namespace Risc32.Assembly

/-! ## Putting a word together -/

namespace Half

theorem toNat_low (w : Word) : (low.of w).toNat = w.toNat % 2 ^ 16 := by
  rw [of, BitVec.extractLsb'_toNat, Nat.shiftRight_zero]

theorem toNat_highAdjusted (w : Word) :
    (highAdjusted.of w).toNat = (w.toNat / 2 ^ 16 + w.toNat / 2 ^ 15 % 2) % 2 ^ 16 := by
  have hw := w.isLt
  rw [of, BitVec.toNat_add, BitVec.toNat_setWidth, BitVec.extractLsb'_toNat,
    BitVec.extractLsb'_toNat, Nat.shiftRight_eq_div_pow, Nat.shiftRight_eq_div_pow]
  omega

/-- The upper and the lower half are the word. -/
theorem high_or_low (w : Word) :
    (high.of w).setWidth 32 <<< 16 ||| (low.of w).setWidth 32 = w := by
  apply BitVec.eq_of_getLsbD_eq
  intro i hi
  simp only [of, BitVec.getLsbD_or, BitVec.getLsbD_shiftLeft, BitVec.getLsbD_setWidth,
    BitVec.getLsbD_extractLsb']
  grind

/-- A half as the upper half of a word. -/
theorem toNat_upper (x : BitVec 16) : (x ++ 0#16).toNat = x.toNat * 2 ^ 16 := by
  rw [BitVec.toNat_append, BitVec.toNat_ofNat, Nat.zero_mod, Nat.or_zero, Nat.shiftLeft_eq]

theorem upper_eq_shift (x : BitVec 16) : x ++ 0#16 = x.setWidth 32 <<< 16 := by
  have hx := x.isLt
  apply BitVec.eq_of_toNat_eq
  rw [toNat_upper, BitVec.toNat_shiftLeft, BitVec.toNat_setWidth, Nat.shiftLeft_eq]
  omega

/-- The lower half takes one from the upper half if it is negative, and that one is added before.
At the end of the address space the sum wraps around. -/
theorem highAdjusted_add_low (w : Word) :
    (highAdjusted.of w ++ 0#16) + (low.of w).signExtend 32 = w := by
  have hw := w.isLt
  have hsign : ((low.of w).signExtend 32).toNat =
      w.toNat % 2 ^ 16 + if w.toNat / 2 ^ 15 % 2 = 1 then 2 ^ 32 - 2 ^ 16 else 0 := by
    rw [BitVec.toNat_signExtend, BitVec.toNat_setWidth, toNat_low, BitVec.msb_eq_decide, toNat_low]
    by_cases hneg : w.toNat / 2 ^ 15 % 2 = 1
    · rw [if_pos hneg, if_pos (decide_eq_true (by omega))]
      omega
    · rw [if_neg hneg, if_neg (by simp only [decide_eq_true_eq]; omega)]
      omega
  apply BitVec.eq_of_toNat_eq
  rw [BitVec.toNat_add, toNat_upper, toNat_highAdjusted, hsign]
  split <;> omega

end Half

/-! ## Values -/

/-- What a text that stands in an expression denotes: the number, if it is a literal, and otherwise
the address that is bound to it. -/
inductive Denotes (labels : LabelTable) (text : String) : Int → Prop where
  | literal {value : Int} (number : integer? text = some value) : Denotes labels text value
  | symbol {address : Nat} (notNumber : integer? text = none) (nonempty : text.toList ≠ [])
      (closed : ')' ∉ text.toList) (bound : labels.address? text = some address) :
      Denotes labels text address

theorem Denotes.of_isIdentifier {labels : LabelTable} {text : String} {address : Nat}
    (h : isIdentifier text) (bound : labels.address? text = some address) :
    Denotes labels text address := by
  refine .symbol (integer?_of_isIdentifier h) ?_ ?_ bound
  · obtain ⟨c, cs, hchars, -⟩ := toList_of_isIdentifier h
    simp [hchars]
  · rw [isIdentifier] at h
    intro hmem
    cases hchars : text.toList with
    | nil => simp [hchars] at hmem
    | cons c cs =>
      rw [hchars, isIdentifierOfChars, Bool.and_eq_true, List.all_eq_true] at h
      rw [hchars, List.mem_cons] at hmem
      rcases hmem with rfl | hmem
      · exact absurd h.1 (by decide)
      · exact absurd (h.2 _ hmem) (by decide)

/-! No literal has a mark of an expression in it. -/

section

variable {d : Char} {cs : List Char} (hd : d = '(' ∨ d = ')' ∨ d = '%')

include hd

theorem magnitude?_of_mark (h : d ∈ cs) : magnitude? cs = none := by
  have hdecimal : decimalDigit? d = none := by rcases hd with rfl | rfl | rfl <;> rfl
  have hhexadecimal : hexDigit? d = none := by rcases hd with rfl | rfl | rfl <;> rfl
  have hother : d ≠ '0' ∧ d ≠ 'x' ∧ d ≠ 'X' := by rcases hd with rfl | rfl | rfl <;> decide
  rw [magnitude?_eq]
  split
  · exact digits?_of_mem hhexadecimal (by simpa [hother] using h)
  · exact digits?_of_mem hhexadecimal (by simpa [hother] using h)
  · exact digits?_of_mem hdecimal h

theorem integerOfChars?_of_mark (h : d ∈ cs) : integerOfChars? cs = none := by
  have hsign : d ≠ '-' ∧ d ≠ '+' := by rcases hd with rfl | rfl | rfl <;> decide
  unfold integerOfChars?
  split
  · simp [magnitude?_of_mark hd (by simpa [hsign] using h)]
  · simp [magnitude?_of_mark hd (by simpa [hsign] using h)]
  · simp [magnitude?_of_mark hd h]

theorem notMem_of_isSome_integer (h : (integerOfChars? cs).isSome) : d ∉ cs := by
  intro hmem
  rw [integerOfChars?_of_mark hd hmem] at h
  cases h

end

/-- What denotes something can stand in parentheses. -/
theorem Denotes.enclosable {labels : LabelTable} {text : String} {value : Int}
    (h : Denotes labels text value) : text.toList ≠ [] ∧ ')' ∉ text.toList := by
  cases h with
  | literal number =>
    constructor
    · intro hnil
      simp [integer?, hnil, integerOfChars?, magnitude?_eq, digits?] at number
    · intro hmem
      cases (integerOfChars?_of_mark (.inr (.inl rfl)) hmem).symm.trans number
  | symbol notNumber nonempty closed bound => exact ⟨nonempty, closed⟩

/-! ## Expressions -/

namespace Half

/-- How the half is asked for. -/
def kind : Half → String
  | low => "lo"
  | high => "hi"
  | highAdjusted => "hiadj"

/-- The expression for the half of a value. -/
def operand (h : Half) (text : String) : String :=
  "%" ++ h.kind ++ "(" ++ text ++ ")"

variable {labels : LabelTable} {text : String} {value : Int}

theorem toList_operand (half : Half) (text : String) :
    (half.operand text).toList = Expression.chars ⟨half.kind.toList, text.toList⟩ := by
  simp [operand, Expression.chars]

theorem isWritten_operand (half : Half) (h : Denotes labels text value) :
    Expression.IsWritten ⟨half.kind.toList, text.toList⟩ where
  named := by cases half <;> simp [kind]
  letters := by cases half <;> simp [kind]
  filled := h.enclosable.1
  closed := h.enclosable.2

/-- **What an expression is worth.** The half of the value, cut to a word. -/
theorem valueOf_operand (half : Half) (h : Denotes labels text value) (index : Nat) :
    valueOf ⟨labels, index⟩ (half.operand text) =
      .ok (half.of (BitVec.ofInt 32 value)).toNat := by
  have hliteral : integer? (half.operand text) = none :=
    integerOfChars?_of_mark (.inr (.inl rfl)) (by simp [operand])
  have hexpression : expression? (half.operand text).toList =
      some ⟨half.kind.toList, text.toList⟩ := by
    rw [toList_operand, (half.isWritten_operand h).expression?_eq]
  have hvalue : (integerOfChars? text.toList).or (Scope.symbol? ⟨labels, index⟩ text) =
      some value := by
    cases h with
    | literal number => rw [show integerOfChars? text.toList = _ from number, Option.some_or]
    | symbol notNumber nonempty closed bound =>
      rw [show integerOfChars? text.toList = _ from notNumber, Option.none_or, Scope.symbol?, bound]
      rfl
  have hkind : ofKind? half.kind = some half := by cases half <;> rfl
  rw [valueOf, hliteral, hexpression]
  simp only [expressionValue, String.ofList_toList, hvalue, hkind]

theorem immediateField_operand (half : Half) (h : Denotes labels text value) (index : Nat) :
    immediateField ⟨labels, index⟩ (half.operand text) =
      .ok (half.of (BitVec.ofInt 32 value)) := by
  have hlt := (half.of (BitVec.ofInt 32 value)).isLt
  rw [immediateField_eq_ok (half.valueOf_operand h index) (by omega) (by omega),
    BitVec.ofInt_natCast, BitVec.ofNat_toNat, BitVec.setWidth_eq]

/-- A half of a value as the offset of a memory operand. -/
theorem memoryFields_operand (half : Half) (h : Denotes labels text value) (index : Nat)
    {base : String} {r : Register} (hbase : Register.ofName? base = some r) :
    memoryFields ⟨labels, index⟩ (half.operand text ++ "(" ++ base ++ ")") =
      .ok (half.of (BitVec.ofInt 32 value), r.index) := by
  have hoffset : IsOffset (half.operand text).toList :=
    half.toList_operand text ▸ .expression (half.isWritten_operand h)
  exact memoryFields_eq_ok _ hoffset (by simp [operand]) (half.immediateField_operand h index) hbase

end Half

end Risc32.Assembly
