import Risc32.Proofs.Assembly.Runs

/-!
# Reading the tokens of a line

A line is read from left to right: separators, tokens with separators between them, and separators
again. Between two tokens the reader takes separators only to find a token behind them; if there is
none it goes back, and what it went back over is read as the end of the line. This file says what
comes of it. The tokens are the longest runs of token characters in front of the comment, and a line
is refused exactly if it has any other character there that does not separate (`tokens?_eq`).

What one part of the line leaves behind is described by `Tokenized`: the rest has all the runs that
are not tokens yet, and no token can be read at its front.
-/

set_option autoImplicit false

namespace Risc32.Assembly

/-! ## Characters -/

/-- What tokens are made of, character by character: ASCII letters, digits and some marks. -/
def TokenChar (c : Char) : Prop :=
  ('A' ≤ c ∧ c ≤ 'Z') ∨ ('a' ≤ c ∧ c ≤ 'z') ∨ ('0' ≤ c ∧ c ≤ '9') ∨
    c = '_' ∨ c = '.' ∨ c = ':' ∨ c = '%' ∨ c = '(' ∨ c = ')' ∨ c = '-' ∨ c = '+'

instance (c : Char) : Decidable (TokenChar c) :=
  inferInstanceAs (Decidable (_ ∨ _))

theorem isAlphanum_iff {c : Char} :
    c.isAlphanum ↔ ('A' ≤ c ∧ c ≤ 'Z') ∨ ('a' ≤ c ∧ c ≤ 'z') ∨ ('0' ≤ c ∧ c ≤ '9') := by
  have hupper : c.isUpper ↔ 'A' ≤ c ∧ c ≤ 'Z' := decide_eq_true_iff
  have hlower : c.isLower ↔ 'a' ≤ c ∧ c ≤ 'z' :=
    (Bool.and_eq_true _ _).to_iff.trans (and_congr decide_eq_true_iff decide_eq_true_iff)
  have hdigit : c.isDigit ↔ '0' ≤ c ∧ c ≤ '9' :=
    (Bool.and_eq_true _ _).to_iff.trans (and_congr decide_eq_true_iff decide_eq_true_iff)
  have hletter : c.isAlpha ↔ c.isUpper ∨ c.isLower := (Bool.or_eq_true _ _).to_iff
  have halphanum : c.isAlphanum ↔ c.isAlpha ∨ c.isDigit := (Bool.or_eq_true _ _).to_iff
  rw [halphanum, hletter, hupper, hlower, hdigit, or_assoc]

theorem isTokenChar_iff {c : Char} : isTokenChar c ↔ TokenChar c := by
  simp [isTokenChar, TokenChar, tokenMarks, isAlphanum_iff, or_assoc]

theorem isSeparator_iff {c : Char} : isSeparator c ↔ Text.isBlank c ∨ c = ',' := by
  simp [isSeparator]

theorem toNat_of_isAlphanum {c : Char} (h : c.isAlphanum) : 48 ≤ c.toNat ∧ c.toNat ≤ 122 := by
  simp only [isAlphanum_iff, Char.le_def, UInt32.le_iff_toNat_le, Char.toNat_val, Char.reduceVal,
    UInt32.reduceToNat] at h
  omega

/-- No character belongs to a gap and to a token. -/
theorem isTokenChar_of_isSeparator {c : Char} (h : isSeparator c) : isTokenChar c = false := by
  apply Bool.eq_false_iff.2
  intro htoken
  rw [isTokenChar, Bool.or_eq_true, List.contains_iff_mem] at htoken
  rcases htoken with hletter | hmark
  · obtain ⟨hlower, hupper⟩ := toNat_of_isAlphanum hletter
    simp only [isSeparator, Text.isBlank, Text.blankRanges, List.any_cons, List.any_nil,
      Bool.or_eq_true, Bool.and_eq_true, decide_eq_true_eq, beq_iff_eq] at h
    rcases h with h | rfl
    · simp at h
      omega
    · exact absurd hletter (by decide)
  · have hapart : tokenMarks.all fun d => !isSeparator d := by decide
    simpa [h] using List.all_eq_true.1 hapart c hmark

/-! ## Parts of a line -/

/-- The character has a place in a line. -/
def isReadable (c : Char) : Bool :=
  isSeparator c || isTokenChar c

theorem isReadable_of_isSeparator {c : Char} (h : isSeparator c) : isReadable c := by
  rw [isReadable, h, Bool.true_or]

theorem isReadable_of_isTokenChar {c : Char} (h : isTokenChar c) : isReadable c := by
  rw [isReadable, h, Bool.or_true]

/-- The tokens have been read at the front of the text, and no further one can be read behind
them. -/
structure Tokenized (cs : List Char) (tokens : List (List Char)) (left : List Char) : Prop where
  readable : ∃ taken, cs = taken ++ left ∧ ∀ c ∈ taken, isReadable c = true
  runs : runs isTokenChar cs = tokens ++ runs isTokenChar left
  stuck : ∀ c ∈ (left.dropWhile isSeparator).head?, isTokenChar c = false

namespace Tokenized

variable {cs left token gap : List Char} {tokens : List (List Char)}

/-- Where no token follows the separators, nothing is read. -/
theorem none_read (h : ∀ c ∈ (cs.dropWhile isSeparator).head?, isTokenChar c = false) :
    Tokenized cs [] cs :=
  ⟨⟨[], rfl, by simp⟩, rfl, h⟩

/-- Separators in front are passed over. -/
theorem gap_append (h : Tokenized cs tokens left) (hgap : ∀ c ∈ gap, isSeparator c = true) :
    Tokenized (gap ++ cs) tokens left := by
  obtain ⟨taken, rfl, htaken⟩ := h.readable
  refine ⟨⟨gap ++ taken, by simp, ?_⟩, ?_, h.stuck⟩
  · intro c hc
    rcases List.mem_append.1 hc with hc | hc
    · exact isReadable_of_isSeparator (hgap c hc)
    · exact htaken c hc
  · rw [runs_gap_append fun c hc => isTokenChar_of_isSeparator (hgap c hc), h.runs]

/-- A token in front is read first. -/
theorem token_append (h : Tokenized cs tokens left) (hne : token ≠ [])
    (htoken : ∀ c ∈ token, isTokenChar c = true) (hrest : ∀ c ∈ cs.head?, isTokenChar c = false) :
    Tokenized (token ++ cs) (token :: tokens) left := by
  obtain ⟨taken, rfl, htaken⟩ := h.readable
  refine ⟨⟨token ++ taken, by simp, ?_⟩, ?_, h.stuck⟩
  · intro c hc
    rcases List.mem_append.1 hc with hc | hc
    · exact isReadable_of_isTokenChar (htoken c hc)
    · exact htaken c hc
  · rw [runs_word_append hne htoken hrest, h.runs, List.cons_append]

/-- If only separators are left, all of the text is readable and has no other runs. -/
theorem of_left_separates (h : Tokenized cs tokens left)
    (hleft : ∀ c ∈ left, isSeparator c = true) :
    cs.all isReadable ∧ Assembly.runs isTokenChar cs = tokens := by
  obtain ⟨taken, rfl, htaken⟩ := h.readable
  refine ⟨?_, ?_⟩
  · rw [List.all_eq_true]
    intro c hc
    rcases List.mem_append.1 hc with hc | hc
    · exact htaken c hc
    · exact isReadable_of_isSeparator (hleft c hc)
  · rw [h.runs, runs_of_gap fun c hc => isTokenChar_of_isSeparator (hleft c hc), List.append_nil]

/-- If something else is left, its first character has no place in a line. -/
theorem not_all_isReadable (h : Tokenized cs tokens left) {c : Char} {behind : List Char}
    (hleft : left.dropWhile isSeparator = c :: behind) : ¬cs.all isReadable := by
  intro hall
  obtain ⟨taken, rfl, -⟩ := h.readable
  have hc : c ∈ left := (List.dropWhile_sublist _).subset (hleft ▸ List.mem_cons_self)
  have hplace := List.all_eq_true.1 hall c (List.mem_append_right taken hc)
  have hother := apart_of_head?_dropWhile isSeparator left
  have hstuck := h.stuck
  rw [hleft] at hother hstuck
  rw [isReadable, hother c rfl, hstuck c rfl] at hplace
  cases hplace

end Tokenized

/-- Nothing is dropped of a text that does not begin with it. -/
theorem dropWhile_eq_self {p : Char → Bool} {cs : List Char} (h : ∀ c ∈ cs.head?, p c = false) :
    cs.dropWhile p = cs := by
  cases cs with
  | nil => rfl
  | cons c cs => exact List.dropWhile_cons_of_neg (Bool.eq_false_iff.1 (h c rfl))

/-- If no token is found behind separators, none is there. -/
theorem nextToken?_eq_none {cs : List Char} (hfront : ∀ c ∈ cs.head?, isTokenChar c = false)
    (h : nextToken? cs = none) :
    ∀ c ∈ (cs.dropWhile isSeparator).head?, isTokenChar c = false := by
  rw [nextToken?, Option.bind_eq_bind, Option.bind_eq_none_iff] at h
  cases hgap : word? isSeparator cs with
  | none =>
    -- The text begins with neither a separator nor a token.
    rwa [dropWhile_eq_self (word?_eq_none hgap)]
  | some found =>
    obtain ⟨gap, behind⟩ := found
    obtain ⟨rfl, -, hall, hbehind⟩ := word?_eq_some hgap
    rw [List.dropWhile_append_of_pos hall, dropWhile_eq_self hbehind]
    exact word?_eq_none (h (gap, behind) hgap)

theorem nextToken?_eq_some {cs token rest : List Char} (h : nextToken? cs = some (token, rest)) :
    ∃ gap, cs = gap ++ (token ++ rest) ∧ (∀ c ∈ gap, isSeparator c = true) ∧ token ≠ [] ∧
      (∀ c ∈ token, isTokenChar c = true) ∧ ∀ c ∈ rest.head?, isTokenChar c = false := by
  obtain ⟨⟨gap, behind⟩, hgap, htoken⟩ := Option.bind_eq_some_iff.1 h
  obtain ⟨rfl, -, hseparators, -⟩ := word?_eq_some hgap
  obtain ⟨rfl, hne, hchars, hrest⟩ := word?_eq_some htoken
  exact ⟨gap, rfl, hseparators, hne, hchars, hrest⟩

/-- Behind a token, the reader goes on as long as there are tokens. -/
theorem tokenized_tokensBehind (cs : List Char) (hfront : ∀ c ∈ cs.head?, isTokenChar c = false) :
    Tokenized cs (tokensBehind cs).1 (tokensBehind cs).2 := by
  induction cs using tokensBehind.induct with
  | case1 cs hnone =>
    rw [tokensBehind]
    split
    · exact .none_read (nextToken?_eq_none hfront hnone)
    · next hsome => cases hnone.symm.trans hsome
  | case2 cs token rest hsome _ _ _ ih =>
    obtain ⟨gap, rfl, hgap, hne, htoken, hrest⟩ := nextToken?_eq_some hsome
    rw [tokensBehind]
    split
    · next hnone => cases hnone.symm.trans hsome
    · next token' rest' hsome' =>
      obtain ⟨rfl, rfl⟩ := Prod.mk.inj (Option.some.inj (hsome.symm.trans hsome'))
      exact ((ih hrest).token_append hne htoken hrest).gap_append hgap

/-- The reader begins with a token, if there is one. -/
theorem tokenized_tokensPart {cs : List Char} (hfront : ∀ c ∈ cs.head?, isSeparator c = false) :
    Tokenized cs (tokensPart cs).1 (tokensPart cs).2 := by
  rw [tokensPart]
  cases hfirst : word? isTokenChar cs with
  | none =>
    refine .none_read ?_
    rw [dropWhile_eq_self hfront]
    exact word?_eq_none hfirst
  | some found =>
    obtain ⟨token, rest⟩ := found
    obtain ⟨rfl, hne, htoken, hrest⟩ := word?_eq_some hfirst
    exact (tokenized_tokensBehind rest hrest).token_append hne htoken hrest

/-! ## Lines -/

/-- **What is read of a line.** A line is read if all characters of its code are readable, and then
its tokens are the runs of token characters. -/
theorem tokens?_eq (line : String) :
    tokens? line =
      if (code line.toList).all isReadable then
        some ((runs isTokenChar (code line.toList)).map String.ofList)
      else none := by
  generalize hcode : code line.toList = cs
  have htokens : tokens? line =
      if ((tokensPart (cs.dropWhile isSeparator)).2.dropWhile isSeparator).isEmpty then
        some ((tokensPart (cs.dropWhile isSeparator)).1.map String.ofList)
      else none := by
    rw [← hcode]
    rfl
  have hread := (tokenized_tokensPart (apart_of_head?_dropWhile isSeparator cs)).gap_append
    fun c hc => List.mem_takeWhile_imp (p := isSeparator) (l := cs) hc
  rw [List.takeWhile_append_dropWhile] at hread
  rw [htokens]
  cases hleft : (tokensPart (cs.dropWhile isSeparator)).2.dropWhile isSeparator with
  | nil =>
    obtain ⟨hall, hruns⟩ := hread.of_left_separates (List.dropWhile_eq_nil_iff.1 hleft)
    rw [if_pos hall, hruns]
    rfl
  | cons c behind =>
    rw [if_neg (hread.not_all_isReadable hleft)]
    rfl

theorem isSome_tokens?_iff {line : String} :
    (tokens? line).isSome ↔ ∀ c ∈ code line.toList, isReadable c := by
  rw [tokens?_eq, ← List.all_eq_true]
  split
  · next hall => exact iff_of_true rfl hall
  · next hbad => exact iff_of_false Bool.false_ne_true hbad

/-- **The tokens of a line are its longest runs of token characters.** A line is cut in front of its
first `#`. It is read exactly if every character in front of that is a blank, a comma or a token
character, and then there is a token for each place where a longest run of token characters stands,
from left to right. -/
theorem tokens?_eq_longest_runs (line : String) :
    ∃ before comment spans,
      line.toList = before ++ comment ∧ '#' ∉ before ∧ (∀ c ∈ comment.head?, c = '#') ∧
      RunPlaces (fun c => decide (TokenChar c)) before spans ∧
      ∀ tokens, tokens? line = some tokens ↔
        (∀ c ∈ before, (Text.isBlank c ∨ c = ',') ∨ TokenChar c) ∧
          tokens = spans.map fun s => String.ofList (before.extract s.1 s.2) := by
  have hchars : isTokenChar = fun c => decide (TokenChar c) := by
    funext c
    rw [Bool.eq_iff_iff, isTokenChar_iff, decide_eq_true_iff]
  obtain ⟨spans, hspans, hruns⟩ := exists_runPlaces isTokenChar (code line.toList)
  refine ⟨code line.toList, line.toList.dropWhile (· != commentChar), spans,
    List.takeWhile_append_dropWhile.symm, ?_, ?_, hchars ▸ hspans, ?_⟩
  · intro hmem
    exact absurd (List.mem_takeWhile_imp hmem) (by decide)
  · intro c hc
    exact bne_eq_false_iff_eq.1 (apart_of_head?_dropWhile (· != commentChar) line.toList c hc)
  · intro tokens
    have hread : (code line.toList).all isReadable = true ↔
        ∀ c ∈ code line.toList, (Text.isBlank c ∨ c = ',') ∨ TokenChar c := by
      simp only [List.all_eq_true, isReadable, Bool.or_eq_true, isSeparator_iff, isTokenChar_iff]
    rw [tokens?_eq, hruns, List.map_map, ← hread]
    split
    · next hall => simp only [hall, true_and, Option.some.injEq, eq_comm, Function.comp_def]
    · next hbad => simp only [hbad, reduceCtorEq, false_and]

example :
    tokens? " , addi %r1,%r2 , -5 ,, # é" = some ["addi", "%r1", "%r2", "-5"] ∧
      tokens? "addi é" = none := by
  decide +kernel

end Risc32.Assembly
