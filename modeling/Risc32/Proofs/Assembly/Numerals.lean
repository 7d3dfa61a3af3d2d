import Mathlib.Data.Nat.Digits.Defs
import Risc32.Proofs.Assembly.Decimals
import Risc32.Proofs.Assembly.Letters

/-!
# Which texts are literals

A literal is a sign, or none, a mark for the base, which is `0x` or nothing, and one or more digits
of that base. This is written down as a relation between texts and numbers (`IsLiteral`) that says
nothing about how a text is read, and `integer?_eq_some_iff` says that the reader finds exactly
this. The magnitude of a literal has a limit, so the negation of one is a number of 64 bits too, and
is written as a literal again (`integer?_negate`).
-/

set_option autoImplicit false

namespace Risc32.Assembly

/-! ## What a literal is -/

/-- The character is the digit of the number, in either case. -/
def IsDigit (base : Nat) (c : Char) (d : Nat) : Prop :=
  d < base ∧ c.toLower = Nat.digitChar d

instance (base : Nat) (c : Char) (d : Nat) : Decidable (IsDigit base c d) :=
  inferInstanceAs (Decidable (_ ∧ _))

/-- The signs, and the number that each multiplies with. -/
def signs : List (List Char × Int) :=
  [([], 1), (['+'], 1), (['-'], -1)]

/-- The marks of the bases. -/
def radixes : List (List Char × Nat) :=
  [([], 10), (['0', 'x'], 16), (['0', 'X'], 16)]

/-- The text is a number without a sign. The values are those of its digits, from the left. -/
inductive IsMagnitude : List Char → Nat → Prop
  | intro {mark digits : List Char} {base : Nat} {values : List Nat}
      (radix : (mark, base) ∈ radixes) (nonempty : digits ≠ [])
      (denoted : List.Forall₂ (IsDigit base) digits values)
      (limited : Nat.ofDigits base values.reverse ≤ 2 ^ 63 - 1) :
      IsMagnitude (mark ++ digits) (Nat.ofDigits base values.reverse)

/-- The text is a literal for the number. -/
inductive IsLiteral : List Char → Int → Prop
  | intro {sign magnitude : List Char} {unit : Int} {n : Nat}
      (signed : (sign, unit) ∈ signs) (denoted : IsMagnitude magnitude n) :
      IsLiteral (sign ++ magnitude) (unit * n)

/-! ## Digits -/

section

variable {base d n m : Nat} {digit? : Char → Option Nat} {c : Char} {cs : List Char}

/-- The digits are the ASCII characters that are found to be some. -/
theorem eq_some_iff_isDigit (hfold : ∀ c, digit? c.toLower = digit? c)
    (hascii : ∀ c, 128 ≤ c.toNat → digit? c = none)
    (hread : ∀ k < 128, ∀ d ∈ digit? (Char.ofNat k), IsDigit base (Char.ofNat k) d)
    (hwritten : ∀ d < base, digit? (Nat.digitChar d) = some d) :
    digit? c = some d ↔ IsDigit base c d := by
  constructor
  · intro h
    have hc : c.toNat < 128 := by
      by_contra hbeyond
      cases h.symm.trans (hascii c (Nat.le_of_not_lt hbeyond))
    have hdigit := hread c.toNat hc d
    rw [Char.ofNat_toNat] at hdigit
    exact hdigit h
  · rintro ⟨hd, hc⟩
    rw [← hfold, hc]
    exact hwritten d hd

/-- A range of ASCII characters has no others. -/
theorem not_range_of_ascii {lower upper : Char} (hupper : upper.toNat < 128)
    (hc : 128 ≤ c.toNat) : ¬(decide (lower ≤ c) && decide (c ≤ upper)) = true := by
  rw [Bool.and_eq_true, decide_eq_true_iff, decide_eq_true_iff]
  rintro ⟨-, hle⟩
  rw [Char.le_def, UInt32.le_iff_toNat_le] at hle
  exact absurd (Nat.lt_of_lt_of_le hupper hc) (Nat.not_lt.2 hle)

theorem hexDigit?_eq_some_iff : hexDigit? c = some d ↔ IsDigit 16 c d := by
  refine eq_some_iff_isDigit hexDigit?_toLower ?_ (by decide) (by decide)
  intro c hc
  have hdigit : ¬c.isDigit = true := by
    exact not_range_of_ascii (by decide : '9'.toNat < 128) hc
  rw [hexDigit?, if_neg hdigit, if_neg (not_range_of_ascii (by decide) hc),
    if_neg (not_range_of_ascii (by decide) hc)]

theorem decimalDigit?_eq_some_iff : decimalDigit? c = some d ↔ IsDigit 10 c d := by
  refine eq_some_iff_isDigit decimalDigit?_toLower ?_ (by decide) (by decide)
  intro c hc
  exact if_neg (not_range_of_ascii (by decide : '9'.toNat < 128) hc)

/-- The digits that follow are put behind the number read before. -/
theorem digitsFrom?_eq_some_iff (hdigit : ∀ c d, digit? c = some d ↔ IsDigit base c d) :
    digitsFrom? base digit? n cs = some m ↔
      ∃ values, List.Forall₂ (IsDigit base) cs values ∧
        m = values.foldl (fun n d => d + base * n) n := by
  induction cs generalizing n with
  | nil => simp [digitsFrom?, eq_comm]
  | cons c cs ih =>
    rw [digitsFrom?, Option.bind_eq_bind, Option.bind_eq_some_iff]
    constructor
    · rintro ⟨d, hd, hrest⟩
      obtain ⟨values, hvalues, rfl⟩ := ih.1 hrest
      refine ⟨d :: values, .cons ((hdigit c d).1 hd) hvalues, ?_⟩
      rw [List.foldl_cons, Nat.add_comm]
    · rintro ⟨_, _ | ⟨hd, hvalues⟩, rfl⟩
      refine ⟨_, (hdigit c _).2 hd, ih.2 ⟨_, hvalues, ?_⟩⟩
      rw [List.foldl_cons, Nat.add_comm]

/-- What digits denote. -/
theorem digits?_eq_some_iff (hdigit : ∀ c d, digit? c = some d ↔ IsDigit base c d) :
    digits? base digit? cs = some n ↔
      ∃ values, cs ≠ [] ∧ List.Forall₂ (IsDigit base) cs values ∧
        Nat.ofDigits base values.reverse ≤ 2 ^ 63 - 1 ∧ n = Nat.ofDigits base values.reverse := by
  have hfold : ∀ values : List Nat, Nat.ofDigits base values.reverse =
      values.foldl (fun n d => d + base * n) 0 := by
    intro values
    rw [Nat.ofDigits_eq_foldr, List.foldr_reverse]
    rfl
  simp only [hfold]
  cases cs with
  | nil => simp [digits?]
  | cons c cs =>
    have hread : digits? base digit? (c :: cs) = some n ↔
        digitsFrom? base digit? 0 (c :: cs) = some n ∧ n ≤ literalLimit := by
      simp [digits?, Option.filter_eq_some_iff]
    rw [hread, digitsFrom?_eq_some_iff hdigit]
    constructor
    · rintro ⟨⟨values, hvalues, rfl⟩, hlimit⟩
      exact ⟨values, List.cons_ne_nil c cs, hvalues, hlimit, rfl⟩
    · rintro ⟨values, -, hvalues, hlimit, rfl⟩
      exact ⟨⟨values, hvalues, rfl⟩, hlimit⟩

end

/-! ## Literals -/

section

variable {cs : List Char} {n : Nat} {v : Int} {text : String}

theorem isMagnitude_of_digits? {digit? : Char → Option Nat} {base : Nat} {mark : List Char}
    (hdigit : ∀ c d, digit? c = some d ↔ IsDigit base c d) (hradix : (mark, base) ∈ radixes)
    (h : digits? base digit? cs = some n) : IsMagnitude (mark ++ cs) n := by
  obtain ⟨values, hne, hvalues, hlimit, rfl⟩ := (digits?_eq_some_iff hdigit).1 h
  exact .intro hradix hne hvalues hlimit

/-- Decimal digits have no mark in front of them, and none among them. -/
theorem isDigit_of_forall₂ {values : List Nat} (h : List.Forall₂ (IsDigit 10) cs values) :
    ∀ c ∈ cs, c.isDigit := by
  intro c hc
  induction h with
  | nil => cases hc
  | cons hd _ ih =>
    rcases List.mem_cons.1 hc with rfl | hc
    · have hdecimal := decimalDigit?_eq_some_iff.2 hd
      by_contra hother
      rw [decimalDigit?, if_neg hother] at hdecimal
      cases hdecimal
    · exact ih hc

theorem magnitude?_eq_some_iff : magnitude? cs = some n ↔ IsMagnitude cs n := by
  have hhexadecimal : ∀ c d, hexDigit? c = some d ↔ IsDigit 16 c d :=
    fun _ _ => hexDigit?_eq_some_iff
  have hdecimal : ∀ c d, decimalDigit? c = some d ↔ IsDigit 10 c d :=
    fun _ _ => decimalDigit?_eq_some_iff
  constructor
  · intro h
    rw [magnitude?_eq] at h
    split at h
    · have hradix : (['0', 'x'], 16) ∈ radixes := by simp [radixes]
      exact isMagnitude_of_digits? hhexadecimal hradix h
    · have hradix : (['0', 'X'], 16) ∈ radixes := by simp [radixes]
      exact isMagnitude_of_digits? hhexadecimal hradix h
    · exact isMagnitude_of_digits? hdecimal List.mem_cons_self h
  · rintro ⟨hradix, hne, hvalues, hlimit⟩
    rw [radixes, List.mem_cons, List.mem_cons, List.mem_singleton] at hradix
    rcases hradix with h | h | h <;> cases h
    · rw [List.nil_append, magnitude?_of_isDigit (isDigit_of_forall₂ hvalues)]
      exact (digits?_eq_some_iff hdecimal).2 ⟨_, hne, hvalues, hlimit, rfl⟩
    · rw [magnitude?_eq]
      exact (digits?_eq_some_iff hhexadecimal).2 ⟨_, hne, hvalues, hlimit, rfl⟩
    · rw [magnitude?_eq]
      exact (digits?_eq_some_iff hhexadecimal).2 ⟨_, hne, hvalues, hlimit, rfl⟩

/-- There is no second sign. -/
theorem magnitude?_of_sign {c : Char} (hc : c = '-' ∨ c = '+') (cs : List Char) :
    magnitude? (c :: cs) = none := by
  rw [magnitude?_eq]
  rcases hc with rfl | rfl
  · exact digits?_of_mem rfl List.mem_cons_self
  · exact digits?_of_mem rfl List.mem_cons_self

/-- **The texts that are literals.** -/
theorem integer?_eq_some_iff : integer? text = some v ↔ IsLiteral text.toList v := by
  rw [integer?]
  generalize text.toList = cs
  constructor
  · intro h
    unfold integerOfChars? at h
    split at h <;> obtain ⟨n, hn, rfl⟩ := Option.map_eq_some_iff.1 h
    · have hsign : (['-'], -1) ∈ signs := by simp [signs]
      rw [← Int.neg_one_mul]
      exact .intro hsign (magnitude?_eq_some_iff.1 hn)
    · have hsign : (['+'], 1) ∈ signs := by simp [signs]
      rw [Int.ofNat_eq_natCast, ← Int.one_mul (n : Int)]
      exact .intro hsign (magnitude?_eq_some_iff.1 hn)
    · have hsign : ([], 1) ∈ signs := List.mem_cons_self
      rw [Int.ofNat_eq_natCast, ← Int.one_mul (n : Int)]
      exact .intro hsign (magnitude?_eq_some_iff.1 hn)
  · rintro ⟨hsign, hmagnitude⟩
    have hn := magnitude?_eq_some_iff.2 hmagnitude
    rw [signs, List.mem_cons, List.mem_cons, List.mem_singleton] at hsign
    rcases hsign with h | h | h <;> cases h
    · rw [List.nil_append, Int.one_mul]
      unfold integerOfChars?
      split
      · rw [magnitude?_of_sign (.inl rfl)] at hn
        cases hn
      · rw [magnitude?_of_sign (.inr rfl)] at hn
        cases hn
      · rw [hn]
        rfl
    · rw [List.singleton_append, integerOfChars?, hn, Int.one_mul]
      rfl
    · rw [List.singleton_append, integerOfChars?, hn, Int.neg_one_mul]
      rfl

theorem IsMagnitude.le (h : IsMagnitude cs n) : n ≤ 2 ^ 63 - 1 := by
  obtain ⟨-, -, -, hlimit⟩ := h
  exact hlimit

theorem IsLiteral.natAbs_le (h : IsLiteral cs v) : v.natAbs ≤ 2 ^ 63 - 1 := by
  obtain ⟨hsign, hmagnitude⟩ := h
  have hle := hmagnitude.le
  rw [signs, List.mem_cons, List.mem_cons, List.mem_singleton] at hsign
  rcases hsign with h | h | h <;> cases h <;> omega

/-- The negation of a literal is written as the literal of the negation. -/
theorem integer?_negate (h : integer? text = some v) :
    Pseudo.negate text = toString (-v) ∧ integer? (Pseudo.negate text) = some (-v) := by
  have hnegate : Pseudo.negate text = toString (-v) := by rw [Pseudo.negate, h]
  have hlimit := (integer?_eq_some_iff.1 h).natAbs_le
  rw [hnegate]
  exact ⟨rfl, integer?_toString (by rwa [Int.natAbs_neg])⟩

end

/-- **Literals and their values.** A text is read as a number exactly if it is a literal for it. The
number and its negation are numbers of 64 bits, and what a subtraction of it is rewritten to has the
negation as its operand, in decimal. -/
theorem integer?_reads_literals (text : String) (v : Int) :
    (integer? text = some v ↔ IsLiteral text.toList v) ∧
      (integer? text = some v →
        (-2 ^ 63 ≤ v ∧ v ≤ 2 ^ 63 - 1) ∧ (-2 ^ 63 ≤ -v ∧ -v ≤ 2 ^ 63 - 1) ∧
          Pseudo.negate text = toString (-v) ∧ integer? (Pseudo.negate text) = some (-v)) := by
  refine ⟨integer?_eq_some_iff, fun h => ?_⟩
  have hlimit := (integer?_eq_some_iff.1 h).natAbs_le
  exact ⟨by omega, by omega, integer?_negate h⟩

/-- The least literal. One less is not a literal, and neither is a mark without digits. -/
theorem integer?_reads_least :
    integer? "-0x7FFFffffFFFFffff" = some (-9223372036854775807) ∧
      IsLiteral "-0x7FFFffffFFFFffff".toList (-9223372036854775807) ∧
      integer? (Pseudo.negate "-0x7FFFffffFFFFffff") = some 9223372036854775807 ∧
      ¬IsLiteral "-0x8000000000000000".toList (-9223372036854775808) ∧
      ¬IsLiteral "0x".toList 0 := by
  have hread : integer? "-0x7FFFffffFFFFffff" = some (-9223372036854775807) := by decide +kernel
  have hleast := integer?_reads_literals "-0x7FFFffffFFFFffff" (-9223372036854775807)
  have hless := integer?_reads_literals "-0x8000000000000000" (-9223372036854775808)
  have hmark := integer?_reads_literals "0x" 0
  refine ⟨hread, hleast.1.1 hread, (hleast.2 hread).2.2.2, ?_, ?_⟩
  · exact fun h => absurd (hless.1.2 h) (by decide +kernel)
  · exact fun h => absurd (hmark.1.2 h) (by decide +kernel)

end Risc32.Assembly
