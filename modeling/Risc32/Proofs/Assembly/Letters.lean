import Risc32.Assembly.Assemble
import Risc32.Proofs.Assembly.Literals
import Risc32.Proofs.Assembly.Tokenizer

/-!
# Letters in either case

Texts that differ only in the case of letters (`SameLetters`) are read alike wherever the reading
folds case. This file goes through the places where it does, and first of all the digits of a
literal: a literal keeps its value if it is written in other letters
(`SameLetters.integerOfChars?_eq`).

A function on characters does not see case if it does not see it in the twenty-six letters
(`apply_toLower`), which can be looked up.
-/

set_option autoImplicit false

namespace Risc32.Assembly

/-! ## Characters -/

theorem toLower_of_not_isUpper {c : Char} (h : ¬c.isUpper) : c.toLower = c := by
  exact dif_neg fun hupper => h (decide_eq_true hupper)

/-- What is so for the capitals is so for all characters, since no others have a small letter. -/
theorem apply_toLower {β : Type} {f : Char → β}
    (h : ∀ k < 26, f (Char.ofNat (65 + k)).toLower = f (Char.ofNat (65 + k))) (c : Char) :
    f c.toLower = f c := by
  by_cases hupper : c.isUpper
  · have hbounds : 65 ≤ c.toNat ∧ c.toNat ≤ 90 := by
      have hrange : 'A'.val ≤ c.val ∧ c.val ≤ 'Z'.val := of_decide_eq_true hupper
      simpa [UInt32.le_iff_toNat_le] using hrange
    have hk := h (c.toNat - 65) (by omega)
    have hcapital : 65 + (c.toNat - 65) = c.toNat := by omega
    rwa [hcapital, Char.ofNat_toNat] at hk
  · rw [toLower_of_not_isUpper hupper]

theorem isAlpha_toLower (c : Char) : c.toLower.isAlpha = c.isAlpha :=
  apply_toLower (by decide) c

/-- Any other character is no small letter of anything else. -/
theorem toLower_eq_iff {c d : Char} (hd : d.isAlpha = false) : c.toLower = d ↔ c = d := by
  by_cases hupper : c.isUpper
  · have hc : c.isAlpha := (Bool.or_eq_true _ _).mpr (.inl hupper)
    constructor
    · rintro rfl
      rw [isAlpha_toLower, hc] at hd
      cases hd
    · rintro rfl
      rw [hc] at hd
      cases hd
  · rw [toLower_of_not_isUpper hupper]

theorem hexDigit?_toLower (c : Char) : hexDigit? c.toLower = hexDigit? c :=
  apply_toLower (by decide) c

theorem decimalDigit?_toLower (c : Char) : decimalDigit? c.toLower = decimalDigit? c :=
  apply_toLower (by decide) c

theorem isSeparator_toLower (c : Char) : isSeparator c.toLower = isSeparator c :=
  apply_toLower (by decide) c

theorem isTokenChar_toLower (c : Char) : isTokenChar c.toLower = isTokenChar c :=
  apply_toLower (by decide) c

/-! ## Literals -/

theorem digitsFrom?_map_toLower {digit? : Char → Option Nat}
    (hdigit : ∀ c, digit? c.toLower = digit? c) (base n : Nat) (cs : List Char) :
    digitsFrom? base digit? n (cs.map Char.toLower) = digitsFrom? base digit? n cs := by
  induction cs generalizing n with
  | nil => rfl
  | cons c cs ih => simp only [List.map_cons, digitsFrom?, hdigit, ih]

theorem digits?_map_toLower {digit? : Char → Option Nat}
    (hdigit : ∀ c, digit? c.toLower = digit? c) (base : Nat) (cs : List Char) :
    digits? base digit? (cs.map Char.toLower) = digits? base digit? cs := by
  rw [digits?, digits?, digitsFrom?_map_toLower hdigit, List.isEmpty_map]

/-- Which of its two forms a literal has is seen from its first two characters. -/
theorem magnitude?_cons_cons (c d : Char) (cs : List Char) :
    magnitude? (c :: d :: cs) =
      if c = '0' ∧ (d = 'x' ∨ d = 'X') then digits? 16 hexDigit? cs
      else digits? 10 decimalDigit? (c :: d :: cs) := by
  rw [magnitude?_eq]
  split
  · next heq =>
    cases heq
    rw [if_pos (by decide)]
  · next heq =>
    cases heq
    rw [if_pos (by decide)]
  · next hsmall hcapital =>
    rw [if_neg]
    rintro ⟨rfl, rfl | rfl⟩
    · exact hsmall cs rfl
    · exact hcapital cs rfl

theorem magnitude?_map_toLower (cs : List Char) :
    magnitude? (cs.map Char.toLower) = magnitude? cs := by
  match cs with
  | [] => rfl
  | [c] =>
    have hone : ∀ c, magnitude? [c] = digits? 10 decimalDigit? [c] := by
      intro c
      rw [magnitude?_eq]
      split <;> simp_all
    rw [List.map_singleton, hone, hone]
    exact digits?_map_toLower decimalDigit?_toLower 10 [c]
  | c :: d :: cs =>
    have hzero : c.toLower = '0' ↔ c = '0' := toLower_eq_iff rfl
    have hx : (d.toLower = 'x' ∨ d.toLower = 'X') ↔ (d = 'x' ∨ d = 'X') :=
      decide_eq_decide.1 (apply_toLower (f := fun d => decide (d = 'x' ∨ d = 'X')) (by decide) d)
    have hdecimal := digits?_map_toLower decimalDigit?_toLower 10 (c :: d :: cs)
    rw [List.map_cons, List.map_cons] at hdecimal ⊢
    rw [magnitude?_cons_cons, magnitude?_cons_cons, hdecimal,
      digits?_map_toLower hexDigit?_toLower]
    simp only [hzero, hx]

theorem integerOfChars?_cons (c : Char) (cs : List Char) :
    integerOfChars? (c :: cs) =
      if c = '-' then (magnitude? cs).map fun (n : Nat) => -(n : Int)
      else if c = '+' then (magnitude? cs).map Int.ofNat
      else (magnitude? (c :: cs)).map Int.ofNat := by
  rw [integerOfChars?.eq_def]
  split
  · next heq =>
    cases heq
    rw [if_pos rfl]
  · next heq =>
    cases heq
    rw [if_neg (by decide), if_pos rfl]
  · next hminus hplus =>
    rw [if_neg, if_neg]
    · rintro rfl
      exact hplus cs rfl
    · rintro rfl
      exact hminus cs rfl

/-- **Literals in other letters** denote the same. -/
theorem integerOfChars?_map_toLower (cs : List Char) :
    integerOfChars? (cs.map Char.toLower) = integerOfChars? cs := by
  match cs with
  | [] => rfl
  | c :: cs =>
    have hwhole := magnitude?_map_toLower (c :: cs)
    have hminus : c.toLower = '-' ↔ c = '-' := toLower_eq_iff rfl
    have hplus : c.toLower = '+' ↔ c = '+' := toLower_eq_iff rfl
    rw [List.map_cons] at hwhole ⊢
    rw [integerOfChars?_cons, integerOfChars?_cons, hwhole, magnitude?_map_toLower]
    simp only [hminus, hplus]

/-! ## Texts -/

/-- The texts differ at most in the case of letters. -/
def SameLetters (cs cs' : List Char) : Prop :=
  cs.map Char.toLower = cs'.map Char.toLower

instance (cs cs' : List Char) : Decidable (SameLetters cs cs') :=
  inferInstanceAs (Decidable (_ = _))

namespace SameLetters

variable {cs cs' : List Char}

theorem refl (cs : List Char) : SameLetters cs cs :=
  rfl

theorem length_eq (h : SameLetters cs cs') : cs.length = cs'.length := by
  simpa using congrArg List.length h

theorem nil_iff (h : SameLetters cs cs') : cs = [] ↔ cs' = [] := by
  rw [← List.length_eq_zero_iff, h.length_eq, List.length_eq_zero_iff]

theorem append {ds ds' : List Char} (h : SameLetters cs cs') (hd : SameLetters ds ds') :
    SameLetters (cs ++ ds) (cs' ++ ds') := by
  rw [SameLetters, List.map_append, List.map_append, h, hd]

theorem cons (c : Char) (h : SameLetters cs cs') : SameLetters (c :: cs) (c :: cs') := by
  rw [SameLetters, List.map_cons, List.map_cons, h]

/-- A character without cases stands in both texts or in neither. -/
theorem mem_iff (h : SameLetters cs cs') {d : Char} (hd : d.isAlpha = false) :
    d ∈ cs ↔ d ∈ cs' := by
  have hmem : ∀ cs : List Char, d ∈ cs.map Char.toLower ↔ d ∈ cs := by
    intro cs
    simp only [List.mem_map, toLower_eq_iff hd, exists_eq_right]
  rw [← hmem cs, ← hmem cs', h]

theorem head?_iff (h : SameLetters cs cs') {d : Char} (hd : d.isAlpha = false) :
    cs.head? = some d ↔ cs'.head? = some d := by
  have hhead : ∀ cs : List Char, (cs.map Char.toLower).head? = some d ↔ cs.head? = some d := by
    intro cs
    cases cs with
    | nil => rfl
    | cons c cs => simp [toLower_eq_iff hd]
  rw [← hhead cs, ← hhead cs', h]

theorem getLast?_iff (h : SameLetters cs cs') {d : Char} (hd : d.isAlpha = false) :
    cs.getLast? = some d ↔ cs'.getLast? = some d := by
  have hreverse : SameLetters cs.reverse cs'.reverse := by
    rw [SameLetters, List.map_reverse, List.map_reverse, h]
  rw [← List.head?_reverse, ← List.head?_reverse]
  exact hreverse.head?_iff hd

/-- A property that does not see case is one of all characters of both texts or of neither. -/
theorem forall_iff (h : SameLetters cs cs') {p : Char → Bool} (hp : ∀ c, p c.toLower = p c) :
    (∀ c ∈ cs, p c) ↔ ∀ c ∈ cs', p c := by
  have hall : ∀ cs : List Char, (∀ c ∈ cs, p c) ↔ ∀ c ∈ cs.map Char.toLower, p c := by
    intro cs
    rw [List.forall_mem_map]
    simp only [hp]
  rw [hall cs, hall cs', h]

theorem integerOfChars?_eq (h : SameLetters cs cs') : integerOfChars? cs = integerOfChars? cs' := by
  rw [← integerOfChars?_map_toLower cs, ← integerOfChars?_map_toLower cs', h]

end SameLetters

theorem lower_eq_iff {s s' : String} :
    Text.lower s = Text.lower s' ↔ SameLetters s.toList s'.toList := by
  rw [Text.lower, Text.lower, String.ofList_inj]
  rfl

/-! ## Lines -/

/-- A comment begins at the same character. -/
theorem SameLetters.code {cs cs' : List Char} (h : SameLetters cs cs') :
    SameLetters (code cs) (code cs') := by
  have hcode : ∀ cs, (Assembly.code cs).map Char.toLower = Assembly.code (cs.map Char.toLower) := by
    intro cs
    have hcomment : ∀ c : Char, (c.toLower != commentChar) = (c != commentChar) :=
      apply_toLower (f := (· != commentChar)) (by decide)
    rw [Assembly.code, Assembly.code, List.takeWhile_map]
    congr 2
    funext c
    exact (hcomment c).symm
  rw [SameLetters, hcode, hcode, h]

/-- Whether a line can be read does not depend on case. -/
theorem isSome_tokens?_of_lower_eq {line line' : String} (h : Text.lower line = Text.lower line') :
    (tokens? line).isSome = (tokens? line').isSome := by
  have hfold : ∀ c : Char, isReadable c.toLower = isReadable c :=
    fun c => by rw [isReadable, isReadable, isSeparator_toLower, isTokenChar_toLower]
  rw [Bool.eq_iff_iff, isSome_tokens?_iff, isSome_tokens?_iff]
  exact (lower_eq_iff.1 h).code.forall_iff (p := isReadable) hfold

end Risc32.Assembly
