import Risc32.Proofs.Assembly.Literals

/-!
# Numbers in decimal

A number written in decimal is a literal, and it denotes the number (`integer?_toString`). The only
numbers for which this fails are those that no literal denotes at all.

The digits are read one after the other, just as the core library reads them (`digitsFrom?_decimal`),
so what is left is that nothing in front of them is taken for something else: the digits of a number
do not begin with `0x`, and not with a sign.
-/

set_option autoImplicit false

namespace Risc32.Assembly

/-! ## Digits -/

theorem digitsFrom?_decimal {cs : List Char} (h : ∀ c ∈ cs, c.isDigit) (n : Nat) :
    digitsFrom? 10 decimalDigit? n cs = some (Nat.ofDigitChars 10 cs n) := by
  induction cs generalizing n with
  | nil => rfl
  | cons c cs ih =>
    have hc : decimalDigit? c = some (c.toNat - '0'.toNat) :=
      if_pos (h c List.mem_cons_self)
    rw [digitsFrom?, hc, Nat.ofDigitChars_cons]
    exact ih (fun d hd => h d (List.mem_cons_of_mem c hd)) _

theorem isDigit_of_mem_toDigits {c : Char} {n : Nat} (h : c ∈ Nat.toDigits 10 n) : c.isDigit :=
  Nat.isDigit_of_mem_toDigits (by decide) (by decide) h

/-- Digits alone are decimal digits, whatever they begin with. -/
theorem magnitude?_of_isDigit {cs : List Char} (h : ∀ c ∈ cs, c.isDigit) :
    magnitude? cs = digits? 10 decimalDigit? cs := by
  rw [magnitude?_eq]
  split
  · exact absurd (h 'x' (by simp)) (by decide)
  · exact absurd (h 'X' (by simp)) (by decide)
  · rfl

theorem magnitude?_toDigits {n : Nat} (h : n ≤ literalLimit) :
    magnitude? (Nat.toDigits 10 n) = some n := by
  have hdigits : ∀ c ∈ Nat.toDigits 10 n, c.isDigit := fun _ => isDigit_of_mem_toDigits
  rw [magnitude?_of_isDigit hdigits, digits?, digitsFrom?_decimal hdigits,
    Nat.ofDigitChars_ten_toDigits]
  simp [Nat.toDigits_ne_nil, h]

/-! ## Numbers with a sign -/

theorem toList_toString (v : Int) :
    (toString v).toList = (if v < 0 then ['-'] else []) ++ Nat.toDigits 10 v.natAbs := by
  rw [Int.toString_eq_repr]
  cases v with
  | ofNat n =>
    have hnonneg : ¬Int.ofNat n < 0 := Int.not_lt.2 (Int.natCast_nonneg n)
    rw [if_neg hnonneg, List.nil_append]
    exact Nat.toList_repr
  | negSucc n =>
    rw [if_pos (Int.negSucc_lt_zero n)]
    show ("-" ++ Nat.repr (n + 1)).toList = _
    rw [String.toList_append, Nat.toList_repr]
    rfl

/-- What a number is written with. -/
theorem isDigit_or_minus_of_mem {v : Int} {c : Char} (h : c ∈ (toString v).toList) :
    c.isDigit ∨ c = '-' := by
  rw [toList_toString, List.mem_append] at h
  rcases h with h | h
  · split at h
    · exact .inr (List.mem_singleton.1 h)
    · simp at h
  · exact .inl (isDigit_of_mem_toDigits h)

theorem toString_ne_nil (v : Int) : (toString v).toList ≠ [] := by
  rw [toList_toString]
  exact List.append_ne_nil_of_right_ne_nil _ Nat.toDigits_ne_nil

theorem integerOfChars?_toDigits {n : Nat} (h : n ≤ literalLimit) :
    integerOfChars? (Nat.toDigits 10 n) = some (n : Int) := by
  have hdigits : ∀ c ∈ Nat.toDigits 10 n, c.isDigit := fun _ => isDigit_of_mem_toDigits
  unfold integerOfChars?
  split
  · next heq => exact absurd (hdigits '-' (by simp [heq])) (by decide)
  · next heq => exact absurd (hdigits '+' (by simp [heq])) (by decide)
  · simp [magnitude?_toDigits h]

theorem integerOfChars?_minus_toDigits {n : Nat} (h : n ≤ literalLimit) :
    integerOfChars? ('-' :: Nat.toDigits 10 n) = some (-(n : Int)) := by
  simp [integerOfChars?, magnitude?_toDigits h]

/-- **A number in decimal is a literal.** It denotes the number, as long as there is a literal that
does. -/
theorem integer?_toString {v : Int} (h : v.natAbs ≤ literalLimit) :
    integer? (toString v) = some v := by
  rw [integer?, toList_toString]
  by_cases hneg : v < 0
  · rw [if_pos hneg, List.singleton_append, integerOfChars?_minus_toDigits h]
    congr 1
    omega
  · rw [if_neg hneg, List.nil_append, integerOfChars?_toDigits h]
    congr 1
    omega

end Risc32.Assembly
