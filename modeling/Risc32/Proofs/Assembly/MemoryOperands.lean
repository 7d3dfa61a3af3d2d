import Mathlib.Data.List.TakeWhile
import Risc32.Assembly.Operand
import Risc32.Proofs.Sequence

/-!
# Which texts are memory operands

What an expression and a memory operand look like is said here without their readers
(`Expression.IsWritten`, `MemoryOperand.IsWritten`), and the readers find exactly what is written
like this (`expressionPart?_eq_some_iff`, `memoryOperand?_eq_some_iff`).

An expression ends in parentheses, and so does a memory operand. Where an operand begins with an
expression, this is taken for the offset and is not tried again as anything else. So there is one
kind of text that has no parenthesis in it and still is no offset: a percent sign with letters
behind it (`IsKind`). It becomes an expression with the parentheses of the base, and then there is
no base. This is also why no operand can be written in two ways
(`MemoryOperand.IsWritten.eq_of_chars_eq`).

What is no memory operand is refused as such, whatever its offset or its base would stand for
(`memoryFields_eq_error_iff`).
-/

set_option autoImplicit false

namespace Risc32.Assembly

/-! ## Where a text is cut -/

section

variable {p : Char → Bool} {d : Char} {cs rest : List Char}

theorem takeWhile_append_stop (hall : ∀ c ∈ cs, p c) (hd : p d = false) (rest : List Char) :
    (cs ++ d :: rest).takeWhile p = cs := by
  rw [List.takeWhile_append_of_pos hall, List.takeWhile_cons_of_neg (Bool.eq_false_iff.1 hd),
    List.append_nil]

theorem dropWhile_append_stop (hall : ∀ c ∈ cs, p c) (hd : p d = false) (rest : List Char) :
    (cs ++ d :: rest).dropWhile p = d :: rest := by
  rw [List.dropWhile_append_of_pos hall, List.dropWhile_cons_of_neg (Bool.eq_false_iff.1 hd)]

theorem bne_of_notMem (h : d ∉ cs) : ∀ c ∈ cs, (c != d) = true := by
  intro c hc
  rw [bne_iff_ne]
  rintro rfl
  exact h hc

theorem notMem_takeWhile (d : Char) (cs : List Char) : d ∉ cs.takeWhile (· != d) := by
  intro hmem
  exact absurd (List.mem_takeWhile_imp hmem) (by simp)

/-- What is left begins where the text is cut. -/
theorem eq_of_dropWhile_bne {c : Char} (h : cs.dropWhile (· != d) = c :: rest) : c = d := by
  have hstop := List.head?_dropWhile_not (· != d) cs
  rw [h] at hstop
  exact bne_eq_false_iff_eq.1 hstop

end

/-! ## Parentheses -/

/-- What stands in parentheses is read up to where they end. -/
theorem parenthesized?_append {inner : List Char} (hne : inner ≠ []) (hclosed : ')' ∉ inner)
    (rest : List Char) : parenthesized? ('(' :: (inner ++ ')' :: rest)) = some (inner, rest) := by
  have hall := bne_of_notMem hclosed
  rw [parenthesized?, takeWhile_append_stop hall rfl, dropWhile_append_stop hall rfl]
  cases inner with
  | nil => exact absurd rfl hne
  | cons c cs => rfl

theorem parenthesized?_eq_some_iff {cs inner rest : List Char} :
    parenthesized? cs = some (inner, rest) ↔
      (inner ≠ [] ∧ ')' ∉ inner) ∧ cs = '(' :: (inner ++ ')' :: rest) := by
  constructor
  · intro h
    unfold parenthesized? at h
    split at h
    · next cs =>
      split at h
      · cases h
      · cases h
      · next found c behind hdrop hne =>
        obtain ⟨rfl, rfl⟩ := Prod.mk.inj (Option.some.inj h)
        obtain rfl := eq_of_dropWhile_bne hdrop
        refine ⟨⟨hne, notMem_takeWhile ')' cs⟩, ?_⟩
        rw [← hdrop, List.takeWhile_append_dropWhile]
    · cases h
  · rintro ⟨⟨hne, hclosed⟩, rfl⟩
    exact parenthesized?_append hne hclosed rest

/-! ## Expressions -/

/-- An expression that is read as it is written. -/
structure Expression.IsWritten (e : Expression) : Prop where
  named : e.kind ≠ []
  letters : ∀ c ∈ e.kind, c.isAlpha
  filled : e.value ≠ []
  closed : ')' ∉ e.value

theorem parenthesis_mem_chars (e : Expression) : '(' ∈ e.chars := by
  simp [Expression.chars]

/-- An expression is read up to its end. -/
theorem expressionPart?_append {kind value : List Char} (hkind : kind ≠ [])
    (halpha : ∀ c ∈ kind, c.isAlpha) (hvalue : value ≠ []) (hclosed : ')' ∉ value)
    (rest : List Char) :
    expressionPart? ('%' :: (kind ++ '(' :: (value ++ ')' :: rest))) =
      some (⟨kind, value⟩, rest) := by
  rw [expressionPart?, takeWhile_append_stop halpha rfl, dropWhile_append_stop halpha rfl,
    parenthesized?_append hvalue hclosed]
  cases kind with
  | nil => exact absurd rfl hkind
  | cons c cs => rfl

namespace Expression.IsWritten

variable {e : Expression}

theorem expressionPart?_eq (h : e.IsWritten) (rest : List Char) :
    expressionPart? (e.chars ++ rest) = some (e, rest) := by
  have hchars : e.chars ++ rest = '%' :: (e.kind ++ '(' :: (e.value ++ ')' :: rest)) := by
    simp [chars]
  rw [hchars, expressionPart?_append h.named h.letters h.filled h.closed]

theorem expression?_eq (h : e.IsWritten) : expression? e.chars = some e := by
  have hpart := h.expressionPart?_eq []
  rw [List.append_nil] at hpart
  rw [expression?, hpart]

theorem memoryOperand?_eq (h : e.IsWritten) : memoryOperand? e.chars = none := by
  have hpart := h.expressionPart?_eq []
  rw [List.append_nil] at hpart
  rw [memoryOperand?, hpart]
  rfl

end Expression.IsWritten

/-- **What begins with an expression.** -/
theorem expressionPart?_eq_some_iff {cs rest : List Char} {e : Expression} :
    expressionPart? cs = some (e, rest) ↔ e.IsWritten ∧ cs = e.chars ++ rest := by
  constructor
  · intro h
    unfold expressionPart? at h
    split at h
    · next ds =>
      split at h
      · cases h
      · next hnamed =>
        obtain ⟨⟨value, behind⟩, hvalue, heq⟩ := Option.bind_eq_some_iff.1 h
        obtain ⟨rfl, rfl⟩ := Prod.mk.inj (Option.some.inj heq)
        obtain ⟨⟨hfilled, hclosed⟩, hdrop⟩ := parenthesized?_eq_some_iff.1 hvalue
        refine ⟨⟨hnamed, fun c hc => List.mem_takeWhile_imp hc, hfilled, hclosed⟩, ?_⟩
        have hcut := List.takeWhile_append_dropWhile (p := Char.isAlpha) (l := ds)
        rw [hdrop] at hcut
        simp [Expression.chars, hcut]
    · cases h
  · rintro ⟨h, rfl⟩
    exact h.expressionPart?_eq rest

/-! ## Offsets -/

/-- The text becomes an expression if something stands in parentheses behind it. -/
def IsKind (cs : List Char) : Prop :=
  ∃ kind, cs = '%' :: kind ∧ kind ≠ [] ∧ ∀ c ∈ kind, c.isAlpha

/-- The text can stand in front of the parentheses of a base. -/
inductive IsOffset : List Char → Prop where
  | expression {e : Expression} (written : e.IsWritten) : IsOffset e.chars
  | plain {cs : List Char} (unopened : '(' ∉ cs) (notKind : ¬IsKind cs) : IsOffset cs

/-- Nothing but a kind becomes an expression. -/
theorem expressionPart?_of_not_isKind {cs : List Char} (hunopened : '(' ∉ cs) (h : ¬IsKind cs)
    (rest : List Char) : expressionPart? (cs ++ '(' :: rest) = none := by
  rw [Option.eq_none_iff_forall_not_mem]
  rintro ⟨e, behind⟩ hpart
  obtain ⟨he, heq⟩ := expressionPart?_eq_some_iff.1 hpart
  have hletters : '(' ∉ '%' :: e.kind := by
    rw [List.mem_cons, not_or]
    exact ⟨by decide, fun hmem => absurd (he.letters _ hmem) (by decide)⟩
  have hcut : cs ++ '(' :: rest = ('%' :: e.kind) ++ '(' :: (e.value ++ ')' :: behind) := by
    simpa [Expression.chars] using heq
  -- In both, the same parenthesis is the first one.
  have hfront : cs = '%' :: e.kind := by
    rw [← takeWhile_append_stop (bne_of_notMem hunopened) (bne_self_eq_false '(') rest, hcut,
      takeWhile_append_stop (bne_of_notMem hletters) (bne_self_eq_false '(')]
  exact h ⟨e.kind, hfront, he.named, he.letters⟩

/-! ## Memory operands -/

def MemoryOperand.chars (m : MemoryOperand) : List Char :=
  m.offset ++ '(' :: m.base ++ [')']

/-- A memory operand that is read as it is written. The first closing parenthesis behind the base has
to be the one that ends it. -/
structure MemoryOperand.IsWritten (m : MemoryOperand) : Prop where
  based : m.base ≠ []
  closed : ')' ∉ m.base
  offset : IsOffset m.offset

theorem MemoryOperand.chars_eq (m : MemoryOperand) :
    m.chars = m.offset ++ '(' :: (m.base ++ ')' :: []) := by
  simp [chars]

theorem MemoryOperand.withOffset?_eq_some_iff {offset rest : List Char} {m : MemoryOperand} :
    withOffset? offset rest = some m ↔
      m.offset = offset ∧ (m.base ≠ [] ∧ ')' ∉ m.base) ∧ rest = '(' :: (m.base ++ ')' :: []) := by
  constructor
  · intro h
    unfold withOffset? at h
    split at h
    · next base hbase =>
      cases h
      exact ⟨rfl, parenthesized?_eq_some_iff.1 hbase⟩
    · cases h
  · rintro ⟨rfl, hbase, rfl⟩
    rw [withOffset?, parenthesized?_append hbase.1 hbase.2]

/-- Behind a kind the parentheses belong to an expression, and there is no base left. -/
theorem memoryOperand?_of_isKind {m : MemoryOperand} (hbased : m.base ≠ []) (hclosed : ')' ∉ m.base)
    (h : IsKind m.offset) : memoryOperand? m.chars = none := by
  obtain ⟨kind, hoffset, hne, halpha⟩ := h
  rw [memoryOperand?, m.chars_eq, hoffset, List.cons_append,
    expressionPart?_append hne halpha hbased hclosed]
  rfl

namespace MemoryOperand.IsWritten

variable {m m' : MemoryOperand}

theorem memoryOperand?_eq (h : m.IsWritten) : memoryOperand? m.chars = some m := by
  obtain ⟨offset, base⟩ := m
  have hbase := parenthesized?_append h.based h.closed []
  have hoffset : IsOffset offset := h.offset
  rw [memoryOperand?, chars_eq]
  cases hoffset with
  | expression written => simp only [written.expressionPart?_eq, withOffset?, hbase]
  | plain unopened notKind =>
    have hbefore := bne_of_notMem unopened
    simp only [expressionPart?_of_not_isKind unopened notKind, withOffset?,
      takeWhile_append_stop hbefore (bne_self_eq_false '('),
      dropWhile_append_stop hbefore (bne_self_eq_false '('), hbase]

/-- What is written is read back, so it is not written in another way. -/
theorem eq_of_chars_eq (h : m.IsWritten) (h' : m'.IsWritten) (heq : m.chars = m'.chars) :
    m = m' := by
  have hread := h.memoryOperand?_eq
  rw [heq, h'.memoryOperand?_eq] at hread
  exact (Option.some.inj hread).symm

end MemoryOperand.IsWritten

/-- **The texts that are memory operands.** -/
theorem memoryOperand?_eq_some_iff {cs : List Char} {m : MemoryOperand} :
    memoryOperand? cs = some m ↔ m.IsWritten ∧ cs = m.chars := by
  constructor
  · intro h
    have hread := h
    rw [memoryOperand?] at hread
    cases hpart : expressionPart? cs with
    | some found =>
      obtain ⟨e, rest⟩ := found
      rw [hpart] at hread
      obtain ⟨he, rfl⟩ := expressionPart?_eq_some_iff.1 hpart
      obtain ⟨hoffset, ⟨hbased, hclosed⟩, rfl⟩ := MemoryOperand.withOffset?_eq_some_iff.1 hread
      exact ⟨⟨hbased, hclosed, hoffset ▸ .expression he⟩, by rw [m.chars_eq, hoffset]⟩
    | none =>
      rw [hpart] at hread
      obtain ⟨hoffset, ⟨hbased, hclosed⟩, hrest⟩ :=
        MemoryOperand.withOffset?_eq_some_iff.1 hread
      have hcut : cs = m.chars := by
        rw [m.chars_eq, hoffset, ← hrest, List.takeWhile_append_dropWhile]
      have hkind : ¬IsKind m.offset := by
        intro hkind
        rw [hcut, memoryOperand?_of_isKind hbased hclosed hkind] at h
        cases h
      have hunopened : '(' ∉ m.offset := hoffset ▸ notMem_takeWhile '(' cs
      exact ⟨⟨hbased, hclosed, .plain hunopened hkind⟩, hcut⟩
  · rintro ⟨h, rfl⟩
    exact h.memoryOperand?_eq

/-- Without a parenthesis there is no base. -/
theorem memoryOperand?_of_notMem {cs : List Char} (h : '(' ∉ cs) : memoryOperand? cs = none := by
  rw [Option.eq_none_iff_forall_not_mem]
  intro m hread
  obtain ⟨-, rfl⟩ := memoryOperand?_eq_some_iff.1 hread
  exact h (by simp [MemoryOperand.chars])

/-- **A memory operand is read in one way.** A text is read as an offset and a base exactly if it is
the offset, an opening parenthesis, the base and a closing one, where the base is not empty and has
no closing parenthesis in it, and the offset is an expression, or it has no opening parenthesis in
it and is not a percent sign with letters behind it. There is no second offset or base with which it
would be the same text. -/
theorem memoryOperand?_reads_one_way (text : String) :
    (∀ m, memoryOperand? text.toList = some m ↔ m.IsWritten ∧ text.toList = m.chars) ∧
      ∀ m m' : MemoryOperand, m.IsWritten → m'.IsWritten →
        text.toList = m.chars → text.toList = m'.chars → m = m' :=
  ⟨fun _ => memoryOperand?_eq_some_iff,
    fun _ _ h h' heq heq' => h.eq_of_chars_eq h' (heq.symm.trans heq')⟩

/-- The parenthesis that opens twice belongs to the base, and an expression has no base in it. -/
theorem memoryOperand?_reads_opened_twice :
    memoryOperand? "%lo(x)((r4)".toList = some ⟨"%lo(x)".toList, "(r4".toList⟩ ∧
      MemoryOperand.IsWritten ⟨"%lo(x)".toList, "(r4".toList⟩ ∧
      ¬MemoryOperand.IsWritten ⟨"%lo(x)(".toList, "r4".toList⟩ ∧
      ¬MemoryOperand.IsWritten ⟨"%lo".toList, "x".toList⟩ := by
  obtain ⟨hread, hunique⟩ := memoryOperand?_reads_one_way "%lo(x)((r4)"
  have htwice : memoryOperand? "%lo(x)((r4)".toList = some ⟨"%lo(x)".toList, "(r4".toList⟩ := by
    decide
  obtain ⟨hwritten, hchars⟩ := (hread _).1 htwice
  refine ⟨htwice, hwritten, fun hother => ?_, fun hkind => ?_⟩
  · have hsame := hunique _ _ hwritten hother hchars (by decide)
    exact absurd (congrArg (·.base.length) hsame) (by decide)
  · have hnone : memoryOperand? "%lo(x)".toList = none := by decide
    have hsome := ((memoryOperand?_reads_one_way "%lo(x)").1 _).2 ⟨hkind, by decide⟩
    cases hnone.symm.trans hsome

/-! ## What is refused -/

/-- A value is refused for reasons of its own. -/
theorem valueOf_ne_invalidMemoryOperand {s : Scope} {o text : String} :
    valueOf s o ≠ .error (.invalidMemoryOperand text) := by
  unfold valueOf
  split
  · simp
  · split
    · unfold expressionValue
      split
      · simp
      · split <;> simp
    · split <;> simp

theorem immediateField_ne_invalidMemoryOperand {s : Scope} {o text : String} :
    immediateField s o ≠ .error (.invalidMemoryOperand text) := by
  intro h
  rcases bind_eq_error.1 h with h | ⟨value, -, h⟩
  · exact valueOf_ne_invalidMemoryOperand h
  · split at h <;> cases h

theorem registerField_ne_invalidMemoryOperand {name text : String} :
    registerField name ≠ .error (.invalidMemoryOperand text) := by
  unfold registerField
  split <;> simp

/-- **What is refused as a memory operand** is what is none. Whatever else is wrong with an operand
has to do with the value of its offset or with the name of its base. -/
theorem memoryFields_eq_error_iff {s : Scope} {text : String} :
    memoryFields s text = .error (.invalidMemoryOperand text) ↔
      ¬∃ m : MemoryOperand, m.IsWritten ∧ text.toList = m.chars := by
  rw [← exists_congr fun m => memoryOperand?_eq_some_iff (m := m), memoryFields]
  cases memoryOperand? text.toList with
  | none => simp [throw, throwThe, MonadExceptOf.throw]
  | some m =>
    have hbase : ∀ offset : BitVec 16, (do
        let base ← registerField (String.ofList m.base)
        return (offset, base)) ≠ .error (.invalidMemoryOperand text) := by
      intro offset h
      rcases bind_eq_error.1 h with h | ⟨base, -, h⟩
      · exact registerField_ne_invalidMemoryOperand h
      · cases h
    refine iff_of_false (fun h => ?_) (by simp)
    dsimp only at h
    split at h
    · exact hbase 0 h
    · rcases bind_eq_error.1 h with h | ⟨offset, -, h⟩
      · exact immediateField_ne_invalidMemoryOperand h
      · exact hbase offset h

end Risc32.Assembly
