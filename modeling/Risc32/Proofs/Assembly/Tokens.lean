import Risc32.Assembly.Statement
import Risc32.Proofs.Assembly.Tokenizer

/-!
# Commands as lines

A command is shown as a line: the mnemonic, a blank, and the operands with commas between them. Read
as a line of source this gives the mnemonic and the operands again (`tokens?_text`), if they are made
of the characters of tokens. What is needed of the characters is that those between the tokens belong
to no token, so that a run of characters ends exactly where a token does.
-/

set_option autoImplicit false

namespace Risc32.Assembly

/-! ## Words with gaps between them -/

section

variable {p : Char → Bool} {gap : List Char}

/-- Words with gaps between them are the runs. -/
theorem runs_intercalate (hgap : gap ≠ []) (hout : ∀ c ∈ gap, p c = false)
    {words : List (List Char)} (hwords : ∀ w ∈ words, w ≠ [] ∧ ∀ c ∈ w, p c = true) :
    runs p (gap.intercalate words) = words := by
  induction words with
  | nil => rfl
  | cons word words ih =>
    obtain ⟨hne, hin⟩ := hwords word List.mem_cons_self
    have hlater : ∀ w ∈ words, w ≠ [] ∧ ∀ c ∈ w, p c = true :=
      fun w hw => hwords w (List.mem_cons_of_mem word hw)
    cases words with
    | nil => rw [List.intercalate_singleton, runs_of_alike hne hin, if_pos rfl]
    | cons word' words =>
      rw [List.intercalate_cons_cons, List.append_assoc, runs_append hgap hout,
        runs_of_alike hne hin, ih hlater]
      rfl

/-- What is written has the characters of the gaps and of the words. -/
theorem mem_intercalate {words : List (List Char)} {c : Char} (h : c ∈ gap.intercalate words) :
    c ∈ gap ∨ ∃ w ∈ words, c ∈ w := by
  induction words with
  | nil => simp at h
  | cons word words ih =>
    cases words with
    | nil =>
      rw [List.intercalate_singleton] at h
      exact .inr ⟨word, List.mem_cons_self, h⟩
    | cons word' words =>
      rw [List.intercalate_cons_cons, List.mem_append, List.mem_append] at h
      rcases h with (h | h) | h
      · exact .inr ⟨word, List.mem_cons_self, h⟩
      · exact .inl h
      · rcases ih h with h | ⟨w, hw, h⟩
        · exact .inl h
        · exact .inr ⟨w, List.mem_cons_of_mem word hw, h⟩

end

/-! ## Lines -/

/-- The text can be a token. -/
structure IsToken (s : String) : Prop where
  nonempty : s.toList ≠ []
  chars : ∀ c ∈ s.toList, isTokenChar c = true

theorem IsToken.of_all {s : String} (hne : s.toList ≠ []) (hall : s.toList.all isTokenChar) :
    IsToken s :=
  ⟨hne, List.all_eq_true.1 hall⟩

/-- The characters of a command are those of its tokens and those between them. -/
theorem toList_text (c : Command) :
    c.text.toList =
      if c.operands = [] then c.mnemonic.toList
      else c.mnemonic.toList ++ ([' '] ++ [',', ' '].intercalate (c.operands.map String.toList)) := by
  rw [Command.text]
  by_cases h : c.operands = []
  · simp [h]
  · simp [h]

/-- **A command is read back from its line.** -/
theorem tokens?_text {c : Command} (hmnemonic : IsToken c.mnemonic)
    (hoperands : ∀ o ∈ c.operands, IsToken o) : tokens? c.text = some (c.mnemonic :: c.operands) := by
  have hwords : ∀ w ∈ c.operands.map String.toList, w ≠ [] ∧ ∀ d ∈ w, isTokenChar d = true := by
    intro w hw
    obtain ⟨o, ho, rfl⟩ := List.mem_map.1 hw
    exact ⟨(hoperands o ho).nonempty, (hoperands o ho).chars⟩
  have hgap : ∀ d ∈ [',', ' '], isSeparator d = true := List.all_eq_true.1 rfl
  have hapart : ∀ d ∈ [',', ' '], isTokenChar d = false :=
    List.forall_mem_cons.2 ⟨rfl, List.forall_mem_singleton.2 rfl⟩
  have hchars : ∀ d ∈ c.text.toList, isSeparator d = true ∨ isTokenChar d = true := by
    intro d hd
    rw [toList_text] at hd
    split at hd
    · exact .inr (hmnemonic.chars d hd)
    · rw [List.mem_append, List.mem_append] at hd
      rcases hd with hd | hd | hd
      · exact .inr (hmnemonic.chars d hd)
      · exact .inl (by rw [List.mem_singleton.1 hd]; rfl)
      · rcases mem_intercalate hd with hd | ⟨w, hw, hd⟩
        · exact .inl (hgap d hd)
        · exact .inr ((hwords w hw).2 d hd)
  have hcode : code c.text.toList = c.text.toList := by
    rw [code, List.takeWhile_eq_self_iff]
    intro d hd
    rw [bne_iff_ne]
    rintro rfl
    exact absurd (hchars _ hd) (by decide)
  have hruns : runs isTokenChar c.text.toList =
      c.mnemonic.toList :: c.operands.map String.toList := by
    rw [toList_text]
    split
    · next hnone =>
      rw [runs_of_alike hmnemonic.nonempty hmnemonic.chars, hnone]
      rfl
    · rw [runs_append (by simp) (List.forall_mem_singleton.2 rfl),
        runs_of_alike hmnemonic.nonempty hmnemonic.chars, if_pos rfl,
        runs_intercalate (by simp) hapart hwords, List.singleton_append]
  have hread : c.text.toList.all isReadable := by
    rw [List.all_eq_true]
    intro d hd
    rw [isReadable, Bool.or_eq_true]
    exact hchars d hd
  rw [tokens?_eq, hcode, if_pos hread, hruns]
  simp

end Risc32.Assembly
