import Mathlib.Data.List.TakeWhile
import Risc32.Assembly.Literal

/-!
# The two forms of a literal

A number is read at the front of a text first, and then nothing may be left behind it. What begins
with `0x` is tried as a hexadecimal number, and if that fails, as a decimal one. The second try
reads the `0` and stops in front of the `x`, so it never reads the whole text. This is why the form
of a literal is seen from its first two characters alone (`magnitude?_eq`).
-/

set_option autoImplicit false

namespace Risc32.Assembly

section

variable {base : Nat} {digit? : Char → Option Nat} {cs : List Char} {d : Char}

theorem digitsFrom?_of_mem (hd : digit? d = none) (h : d ∈ cs) (n : Nat) :
    digitsFrom? base digit? n cs = none := by
  induction cs generalizing n with
  | nil => simp at h
  | cons c cs ih =>
    rw [digitsFrom?]
    rcases List.mem_cons.1 h with rfl | h
    · rw [hd]
      rfl
    · cases digit? c with
      | none => rfl
      | some d => exact ih h _

/-- Where one character is no digit, there is no number. -/
theorem digits?_of_mem (hd : digit? d = none) (h : d ∈ cs) : digits? base digit? cs = none := by
  rw [digits?, digitsFrom?_of_mem hd h]
  split <;> rfl

theorem whole?_map_cons (number : Option Nat) (c : Char) (rest : List Char) :
    whole? (number.map fun n => (n, c :: rest)) = none := by
  cases number <;> rfl

/-- Digits have been read to the end if there is nothing but digits. -/
theorem whole?_digitsPart? (base : Nat) (digit? : Char → Option Nat) (cs : List Char) :
    whole? (digitsPart? base digit? cs) = digits? base digit? cs := by
  rw [digitsPart?]
  cases hrest : cs.dropWhile fun c => (digit? c).isSome with
  | nil =>
    have hall := List.dropWhile_eq_nil_iff.1 hrest
    rw [List.takeWhile_eq_self_iff.2 hall]
    cases digits? base digit? cs <;> rfl
  | cons c rest =>
    have hstop := List.head?_dropWhile_not (fun c => (digit? c).isSome) cs
    rw [hrest] at hstop
    have hc : c ∈ cs := (List.dropWhile_sublist _).subset (hrest ▸ List.mem_cons_self)
    have hd : digit? c = none := Option.isNone_iff_eq_none.1 (by simpa using hstop)
    rw [whole?_map_cons, digits?_of_mem hd hc]

end

/-- Behind `0` no decimal number goes on with `x`. -/
theorem whole?_digitsPart?_zero {x : Char} (hx : decimalDigit? x = none) (ds : List Char) :
    whole? (digitsPart? 10 decimalDigit? ('0' :: x :: ds)) = none := by
  rw [whole?_digitsPart?]
  exact digits?_of_mem hx (by simp)

/-- A hexadecimal number is not read in two ways. -/
theorem whole?_or_decimal {x : Char} (hx : decimalDigit? x = none) (ds : List Char) :
    whole? ((digitsPart? 16 hexDigit? ds).or (digitsPart? 10 decimalDigit? ('0' :: x :: ds))) =
      digits? 16 hexDigit? ds := by
  rw [← whole?_digitsPart?]
  cases digitsPart? 16 hexDigit? ds with
  | none => exact whole?_digitsPart?_zero hx ds
  | some found => rfl

/-- **Which form a literal has** is seen from its first two characters. -/
theorem magnitude?_eq (cs : List Char) :
    magnitude? cs =
      match cs with
      | '0' :: 'x' :: ds => digits? 16 hexDigit? ds
      | '0' :: 'X' :: ds => digits? 16 hexDigit? ds
      | ds => digits? 10 decimalDigit? ds := by
  split
  · rw [magnitude?, magnitudePart?, hexadecimalPart?]
    exact whole?_or_decimal rfl _
  · rw [magnitude?, magnitudePart?, hexadecimalPart?]
    exact whole?_or_decimal rfl _
  · next hsmall hcapital =>
    rw [magnitude?, magnitudePart?, hexadecimalPart?.eq_3 cs hsmall hcapital]
    exact whole?_digitsPart? 10 decimalDigit? cs

end Risc32.Assembly
