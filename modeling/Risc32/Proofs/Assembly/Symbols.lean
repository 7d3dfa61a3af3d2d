import Mathlib.Data.List.Basic
import Risc32.Proofs.Assembly.Layout

/-!
# The symbols of a program

A program has the symbols that it was seeded with, and one for each label of its source. A label of
text is the address of the first instruction of its line, and a label of data that of the first
variable. Nothing is bound twice, and a source that would bind a name twice is not accepted
(`Program.symbols_ofLines`).

Labels of text are bound as they are read and labels of data only at the end, so the table does not
have them in the order of the source.
-/

set_option autoImplicit false

namespace Risc32

open Assembly

namespace Assembly

/-! ## Names of labels -/

theorem isIdentifier_of_labelName? {token name : String} (h : labelName? token = some name) :
    isIdentifier name := by
  rw [labelName?] at h
  split at h
  · next hname =>
    obtain rfl := Option.some.inj h
    rw [isIdentifier, String.toList_ofList]
    exact ((Bool.and_eq_true _ _).mp hname).2
  · cases h

theorem Line.isIdentifier_of_parse {source name : String} {tokens : List String}
    (h : Line.parse source = .ok (.content (some name) tokens)) : isIdentifier name := by
  have hlabel : ∀ {label : Option String} {rest : List String},
      Line.ofLabelAndTokens label rest = .ok (.content (some name) tokens) → label = some name := by
    intro label rest h
    rw [Line.ofLabelAndTokens] at h
    split at h
    · split at h <;> cases h
    · exact (Line.content.inj (Except.ok.inj h)).1
  rw [Line.parse] at h
  split at h
  · unfold Line.ofTokens at h
    split at h
    · cases h
    · split at h
      · split at h
        · next hname =>
          rw [← Option.some.inj (hlabel h)]
          exact isIdentifier_of_labelName? hname
        · cases h
      · cases hlabel h
  · cases h

theorem Source.isIdentifier_of_mem_contentsFrom {lines : List String} {segment : Segment}
    {number : Nat} {c : Content} (hc : c ∈ contentsFrom segment number lines) {name : String}
    (hname : c.label = some name) : isIdentifier name := by
  induction lines generalizing segment number with
  | nil => simp at hc
  | cons source rest ih =>
    rw [contentsFrom_cons] at hc
    split at hc
    · next label tokens hparse =>
      rcases List.mem_cons.1 hc with rfl | hc
      · obtain rfl : label = some name := hname
        exact Line.isIdentifier_of_parse hparse
      · exact ih hc
    · exact ih hc
    · exact ih hc
    · exact ih hc

end Assembly

namespace Assembly.Source

/-- The names that are to be bound, each as often as it is to be bound. -/
def definedNames (seed : LabelTable) (lines : List String) : List String :=
  (data lines).filterMap (·.label) ++ (text lines).filterMap (·.label) ++ seed.entries.map (·.1)

theorem map_fst_labelsFrom (first : Nat) (cs : List Content) :
    (labelsFrom first cs).map (·.1) = cs.filterMap (·.label) := by
  induction cs generalizing first with
  | nil => rfl
  | cons c rest ih =>
    rw [labelsFrom, List.map_append, ih]
    cases hname : c.label <;> simp [hname]

theorem map_name_dataLabelsFrom (offset : Nat) (ds : List Declaration) :
    (dataLabelsFrom offset ds).map (·.name) = ds.filterMap (·.label) := by
  induction ds generalizing offset with
  | nil => rfl
  | cons d rest ih =>
    rw [dataLabelsFrom, List.map_append, ih]
    cases hname : d.label <;> simp [hname, Declaration.labels]

end Assembly.Source

/-- A declaration has the number and the label of its line. -/
theorem Assembly.Content.origin_of_declaration? {c : Content} {d : Declaration}
    (h : c.declaration? = some d) : d.line = c.number ∧ d.label = c.label := by
  unfold declaration? at h
  split at h
  · simp only [Option.bind_eq_bind, Option.bind_eq_some_iff, Option.pure_def,
      Option.some.injEq] at h
    obtain ⟨kind, -, first, -, more, -, rfl⟩ := h
    exact ⟨rfl, rfl⟩
  · cases h

namespace Program

/-- The label is bound to where its line of the text segment begins. -/
structure HasTextLabel (p : Program) (lines : List String) (index : Nat) (c : Content)
    (name : String) : Prop where
  bound : p.symbols.address? name = some (4 * Source.statementsBefore lines index)
  inside : 4 * Source.statementsBefore lines index < p.textEnd
  first : ∃ command rest i w, c.command.expand = .ok (command :: rest) ∧
    instructionOf ⟨p.symbols, Source.statementsBefore lines index⟩ command = .ok i ∧
    p.words[Source.statementsBefore lines index]? = some w ∧ Instruction.decode w = some i

/-- The label is bound to the first variable that its line of the data segment declares. -/
def HasDataLabel (p : Program) (lines : List String) (index : Nat) (c : Content)
    (name : String) : Prop :=
  ∃ d v, c.declaration? = some d ∧
    p.data.vars[Source.variablesBefore lines index]? = some v ∧
    v.kind = d.kind ∧ v.value = BitVec.ofInt 32 d.first ∧
    p.symbols.address? name = some v.address ∧
    p.textEnd ≤ v.address ∧ v.address < p.image.length ∧
    (d.kind = .word → v.address % 4 = 0)

namespace Assembles

variable {p : Program} {lines : List String} {seed : LabelTable}

theorem perm_symbols (h : p.Assembles lines seed) :
    p.symbols.entries.Perm
      (Source.dataLabels p.textEnd lines ++ Source.textLabels lines ++ seed.entries) := by
  rw [h.symbols]
  exact ((List.reverse_perm _).append (List.reverse_perm _)).append_right _

/-- A data line keeps its label when it is read as a declaration. -/
theorem labels_declarations (h : p.Assembles lines seed) :
    (Source.declarations lines).filterMap (·.label) = (Source.data lines).filterMap (·.label) := by
  rw [Source.declarations, List.filterMap_filterMap]
  apply List.filterMap_congr
  intro c hc
  have hmem : c.declaration? ∈ (Source.declarations lines).map some :=
    h.declares ▸ List.mem_map_of_mem hc
  obtain ⟨d, -, hd⟩ := List.mem_map.1 hmem
  rw [← hd, Option.bind_some, (Content.origin_of_declaration? hd.symm).2]

theorem nodup_definedNames (h : p.Assembles lines seed) :
    (Source.definedNames seed lines).Nodup := by
  have hnames : (Source.dataLabels p.textEnd lines ++ Source.textLabels lines ++
      seed.entries).map (·.1) = Source.definedNames seed lines := by
    rw [List.map_append, List.map_append, Source.textLabels, Source.map_fst_labelsFrom,
      Source.dataLabels, List.map_map, Source.definedNames, ← h.labels_declarations,
      ← Source.map_name_dataLabelsFrom 0]
    rfl
  rw [← hnames]
  exact (h.perm_symbols.map _).nodup_iff.1 p.symbols.names_nodup

theorem hasTextLabel (h : p.Assembles lines seed) {index : Nat} {c : Content} {name : String}
    (hc : (Source.text lines)[index]? = some c) (hname : c.label = some name) :
    p.HasTextLabel lines index c name := by
  obtain ⟨commands, hcommands⟩ := h.expands c (List.mem_of_getElem? hc)
  have hlength := Content.length_of_expand hcommands
  cases commands with
  | nil => exact absurd hlength (Nat.ne_of_lt c.emitted_pos)
  | cons command rest =>
    have hfirst : (command :: rest)[0]? = some command := rfl
    obtain ⟨i, w, hi, hw, hdecode⟩ := h.instruction_of_text hc hcommands hfirst
    refine ⟨?_, ?_, command, rest, i, w, hcommands, hi, hw, hdecode⟩
    · rw [LabelTable.address?_eq_some_iff, h.symbols]
      apply List.mem_append_left
      apply List.mem_append_right
      rw [List.mem_reverse, Source.mem_textLabels_iff]
      exact ⟨index, c, hc, hname, rfl⟩
    · have hlt := (List.getElem?_eq_some_iff.1 hw).1
      rw [textEnd]
      omega

theorem hasDataLabel (h : p.Assembles lines seed) {index : Nat} {c : Content} {name : String}
    (hc : (Source.data lines)[index]? = some c) (hname : c.label = some name) :
    p.HasDataLabel lines index c name := by
  obtain ⟨d, hd, hindex⟩ := h.declaration_of_data hc
  have hv := h.variable_of_declaration hindex (k := 0) rfl
  obtain ⟨hfrom, hstop⟩ := h.inside_of_mem (List.mem_of_getElem? hv)
  refine ⟨d, _, hd, hv, rfl, rfl, ?_, hfrom, ?_, ?_⟩
  · rw [LabelTable.address?_eq_some_iff, h.symbols]
    apply List.mem_append_left
    apply List.mem_append_left
    have hlabel : d.label = some name := (Content.origin_of_declaration? hd).2.trans hname
    exact List.mem_reverse.2 (List.mem_map_of_mem (Source.mem_dataLabelsFrom hindex 0 hlabel))
  · exact Nat.lt_of_lt_of_le (Nat.lt_add_of_pos_right d.kind.size_pos) hstop
  · intro hword
    have hstart := VariableKind.align_word
      (Source.stopFrom 0 ((Source.declarations lines).take index))
    simp only [Declaration.start, hword, textEnd]
    omega

end Assembles

/-- **The symbols of a program.** They are those of the seed, one for each label of text and one for
each label of data, with no name bound twice. A label of text stands behind as many statements as
the lines before its own become, at the first instruction of its line, and a label of data at the
first variable of its line. A source that would bind a name twice is not accepted. -/
theorem symbols_ofLines (lines : List String) (seed : LabelTable) :
    (∀ p, ofLines lines seed = .ok p →
      p.symbols.entries.Perm
        (Source.dataLabels p.textEnd lines ++ Source.textLabels lines ++ seed.entries) ∧
      (Source.definedNames seed lines).Nodup ∧
      p.textEnd = 4 * ((Source.text lines).map Content.emitted).sum ∧
      (∀ (index : Nat) (c : Content) (name : String), (Source.text lines)[index]? = some c →
        c.label = some name → p.HasTextLabel lines index c name) ∧
      (∀ (index : Nat) (c : Content) (name : String), (Source.data lines)[index]? = some c →
        c.label = some name → p.HasDataLabel lines index c name)) ∧
    (¬(Source.definedNames seed lines).Nodup → ∃ e, ofLines lines seed = .error e) := by
  constructor
  · intro p h
    have hassembles := assembles_ofLines h
    refine ⟨hassembles.perm_symbols, hassembles.nodup_definedNames, hassembles.textEnd_eq, ?_, ?_⟩
    · intro index c name hc hname
      exact hassembles.hasTextLabel hc hname
    · intro index c name hc hname
      exact hassembles.hasDataLabel hc hname
  · intro htwice
    cases h : ofLines lines seed with
    | error e => exact ⟨e, rfl⟩
    | ok p => exact absurd (assembles_ofLines h).nodup_definedNames htwice

/-- Segments in turn, a line that is only a label, and a word behind bytes. -/
def interleaved : List String := [
  "       .data",
  "flags: .byte 1, -1, 255",
  "table: .word 7",
  "       .text",
  "main:  movia r1, table",
  "lone:",
  "next:  ldw   r2, 0(r1)",
  "       .data",
  "last:  .byte 3"]

/-- A label of text and a label of data with one name. -/
def twice : List String := [
  "x: nop",
  "   .data",
  "x: .byte 1"]

/-- Of `interleaved`, the third label of text stands behind three statements, and the second label
of data at the fourth variable. `twice` is not accepted. -/
theorem symbols_ofLines_interleaved :
    (∃ p, ofLines interleaved .empty = .ok p ∧
      (Source.text interleaved)[2]? = some ⟨6, .text, some "next", ["ldw", "r2", "0(r1)"]⟩ ∧
      p.HasTextLabel interleaved 2 ⟨6, .text, some "next", ["ldw", "r2", "0(r1)"]⟩ "next" ∧
      Source.statementsBefore interleaved 2 = 3 ∧
      (Source.data interleaved)[1]? = some ⟨2, .data, some "table", [".word", "7"]⟩ ∧
      p.HasDataLabel interleaved 1 ⟨2, .data, some "table", [".word", "7"]⟩ "table" ∧
      Source.variablesBefore interleaved 1 = 3) ∧
    ¬(Source.definedNames .empty twice).Nodup ∧ ∃ e, ofLines twice .empty = .error e := by
  have haccepted : (ofLines interleaved .empty).toOption.any fun _ => true := by decide +kernel
  obtain ⟨p, h, -⟩ := any_toOption haccepted
  obtain ⟨-, -, -, htext, hdata⟩ := (symbols_ofLines interleaved .empty).1 p h
  have hnext : (Source.text interleaved)[2]? =
      some ⟨6, .text, some "next", ["ldw", "r2", "0(r1)"]⟩ := by decide +kernel
  have htable : (Source.data interleaved)[1]? =
      some ⟨2, .data, some "table", [".word", "7"]⟩ := by decide +kernel
  have htwice : ¬(Source.definedNames .empty twice).Nodup := by decide +kernel
  exact ⟨⟨p, h, hnext, htext 2 _ _ hnext rfl, by decide +kernel, htable, hdata 1 _ _ htable rfl,
    by decide +kernel⟩, htwice, (symbols_ofLines twice .empty).2 htwice⟩

end Program

end Risc32
