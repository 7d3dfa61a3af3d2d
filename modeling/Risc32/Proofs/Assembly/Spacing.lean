import Risc32.Assembly.Draft
import Risc32.Proofs.Assembly.Tokens

/-!
# Blanks, commas and comments

What stands between the tokens of a line can be written in many ways. This file says which changes
of it leave the tokens alone: a gap can be any other gap, there can be a gap at either end, and what
follows a `#` does not count at all.

The tokens are the runs of the code (`tokens?_eq`), so each of the changes is followed into the code
of the line and from there into its runs.
-/

set_option autoImplicit false

namespace Risc32.Assembly

/-! ## Lines -/

/-- The text stands between tokens. -/
def Gap (s : String) : Prop :=
  ∀ c ∈ s.toList, isSeparator c

instance (s : String) : Decidable (Gap s) :=
  decidable_of_iff (s.toList.all isSeparator) List.all_eq_true

/-- The text is the end of a line, or a comment. -/
def Uncoded (s : String) : Prop :=
  ∀ c ∈ s.toList.head?, c = commentChar

instance (s : String) : Decidable (Uncoded s) :=
  decidable_of_iff (s.toList.head?.all (· == commentChar)) (by
    cases h : s.toList.head? <;> simp [Uncoded, h])

theorem Gap.not_isTokenChar {gap : String} (h : Gap gap) : ∀ c ∈ gap.toList, isTokenChar c = false :=
  fun c hc => isTokenChar_of_isSeparator (h c hc)

theorem code_append {x : List Char} (h : commentChar ∉ x) (y : List Char) :
    code (x ++ y) = x ++ code y := by
  rw [code, List.takeWhile_append_of_pos]
  · rfl
  · intro c hc
    rw [bne_iff_ne]
    rintro rfl
    exact h hc

theorem code_eq_self {x : List Char} (h : commentChar ∉ x) : code x = x := by
  have hcode := code_append h []
  rwa [List.append_nil, show code [] = [] from rfl, List.append_nil] at hcode

/-- Behind the beginning of a comment nothing is code. -/
theorem code_append_of_mem {x : List Char} (h : commentChar ∈ x) (y : List Char) :
    code (x ++ y) = code x := by
  induction x with
  | nil => simp at h
  | cons c x ih =>
    rw [code, code, List.cons_append, List.takeWhile_cons, List.takeWhile_cons]
    by_cases hc : c = commentChar
    · simp [hc]
    · have hrest := ih ((List.mem_cons.1 h).resolve_left (Ne.symm hc))
      rw [code, code] at hrest
      rw [hrest]

theorem Gap.commentChar_notMem {gap : String} (h : Gap gap) : commentChar ∉ gap.toList :=
  fun hmem => absurd (h _ hmem) (by decide)

/-- What is no code adds none. -/
theorem Uncoded.code_append {y : String} (h : Uncoded y) (x : List Char) :
    code (x ++ y.toList) = code x := by
  induction x with
  | nil =>
    rw [Uncoded] at h
    cases hy : y.toList with
    | nil => rfl
    | cons c cs =>
      rw [hy] at h
      rw [h c rfl]
      rfl
  | cons c x ih =>
    rw [code] at ih
    rw [code, code, List.cons_append, List.takeWhile_cons, List.takeWhile_cons, ih]
    rfl

theorem Gap.all {gap : String} (h : Gap gap) : gap.toList.all isReadable = true :=
  List.all_eq_true.2 fun c hc => isReadable_of_isSeparator (h c hc)

/-- The tokens of a line depend on its code alone, and there on the runs and on the characters that
there are. -/
theorem tokens?_congr {line line' : String}
    (hall : (code line.toList).all isReadable = (code line'.toList).all isReadable)
    (hruns : runs isTokenChar (code line.toList) = runs isTokenChar (code line'.toList)) :
    tokens? line = tokens? line' := by
  rw [tokens?_eq, tokens?_eq, hall, hruns]

section

variable {gap gap' : String}

/-- A gap between tokens can be any other gap. -/
theorem tokens?_gap (hgap : Gap gap) (hne : gap ≠ "") (hgap' : Gap gap') (hne' : gap' ≠ "")
    (x y : String) : tokens? (x ++ gap ++ y) = tokens? (x ++ gap' ++ y) := by
  have hchars : ∀ gap : String,
      (x ++ gap ++ y).toList = x.toList ++ (gap.toList ++ y.toList) := by
    intro gap
    rw [String.toList_append, String.toList_append, List.append_assoc]
  have hlist : ∀ {gap : String}, gap ≠ "" → gap.toList ≠ [] := by
    intro gap hne hnil
    exact hne (String.toList_injective hnil)
  by_cases hx : commentChar ∈ x.toList
  · apply tokens?_congr <;>
      rw [hchars, hchars, code_append_of_mem hx, code_append_of_mem hx]
  · apply tokens?_congr <;>
      rw [hchars, hchars, code_append hx, code_append hx, code_append hgap.commentChar_notMem,
        code_append hgap'.commentChar_notMem]
    · rw [List.all_append, List.all_append, List.all_append, List.all_append, hgap.all, hgap'.all]
    · rw [runs_append (hlist hne) hgap.not_isTokenChar,
        runs_append (hlist hne') hgap'.not_isTokenChar]

/-- A gap can stand at the beginning of a line. -/
theorem tokens?_gap_append (hgap : Gap gap) (y : String) : tokens? (gap ++ y) = tokens? y := by
  apply tokens?_congr <;> rw [String.toList_append, code_append hgap.commentChar_notMem]
  · rw [List.all_append, hgap.all, Bool.true_and]
  · rw [runs_gap_append hgap.not_isTokenChar]

theorem tokens?_append_gap (hgap : Gap gap) (x : String) : tokens? (x ++ gap) = tokens? x := by
  by_cases hx : commentChar ∈ x.toList
  · apply tokens?_congr <;> rw [String.toList_append, code_append_of_mem hx]
  · apply tokens?_congr <;>
      rw [String.toList_append, code_append hx, code_eq_self hgap.commentChar_notMem,
        code_eq_self hx]
    · rw [List.all_append, hgap.all, Bool.and_true]
    · rw [runs_append_gap hgap.not_isTokenChar]

/-- A comment can be put behind any line, and behind a line with a comment as well. -/
theorem tokens?_append_uncoded {y : String} (hy : Uncoded y) (x : String) :
    tokens? (x ++ y) = tokens? x := by
  apply tokens?_congr <;> rw [String.toList_append, hy.code_append]

/-- A line without code has no tokens. -/
theorem tokens?_of_uncoded {y : String} (hgap : Gap gap) (hy : Uncoded y) :
    tokens? (gap ++ y) = some [] := by
  have hnone : tokens? "" = some [] := by decide +kernel
  have hempty : "" ++ y = y := String.empty_append
  rw [tokens?_gap_append hgap, ← hempty, tokens?_append_uncoded hy, hnone]

end

end Risc32.Assembly
