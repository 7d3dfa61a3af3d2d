import Risc32.Proofs.Assembly.Source
import Risc32.Proofs.Program.StaticData

/-!
# Where lines come to stand

The addresses of a program are sums over the lines before: of statements in the text segment, and of
bytes, rounded up where words begin, in the data segment. This file finds a line's statements and
its variables at these sums (`Assembles.instruction_of_text`, `Assembles.variable_of_declaration`),
and shows that variables lie inside of the image of the program.
-/

set_option autoImplicit false

namespace Risc32

theorem VariableKind.align_word (n : Nat) : word.align n % 4 = 0 := by
  simp [align]

namespace Assembly.Source

/-- How many statements the lines of the text segment before the one with the index become. -/
def statementsBefore (lines : List String) (index : Nat) : Nat :=
  (((text lines).take index).map Content.emitted).sum

/-- How many variables the declarations before the one with the index declare. -/
def variablesBefore (lines : List String) (index : Nat) : Nat :=
  (((declarations lines).take index).map (·.values.length)).sum

theorem eq_append_of_getElem? {α : Type} {l : List α} {a : α} {index : Nat}
    (h : l[index]? = some a) : l = l.take index ++ a :: l.drop (index + 1) := by
  obtain ⟨hlt, rfl⟩ := List.getElem?_eq_some_iff.1 h
  rw [← List.drop_eq_getElem_cons hlt, List.take_append_drop]

/-! ## Text -/

/-- A label of the text segment stands where the statements of its line begin. -/
theorem mem_labelsFrom_iff {cs : List Content} {first address : Nat} {name : String} :
    (name, address) ∈ labelsFrom first cs ↔
      ∃ (index : Nat) (c : Content), cs[index]? = some c ∧ c.label = some name ∧
        address = 4 * (first + ((cs.take index).map Content.emitted).sum) := by
  induction cs generalizing first with
  | nil => simp [labelsFrom]
  | cons c rest ih =>
    rw [labelsFrom, List.mem_append, ih]
    constructor
    · rintro (hmem | ⟨index, c', hc', hname, haddress⟩)
      · obtain ⟨name', hname, heq⟩ := List.mem_map.1 hmem
        obtain ⟨rfl, rfl⟩ := Prod.mk.inj heq
        exact ⟨0, c, rfl, by simpa using hname, by simp⟩
      · exact ⟨index + 1, c', hc', hname, by simpa [Nat.add_assoc] using haddress⟩
    · rintro ⟨index, c', hc', hname, haddress⟩
      cases index with
      | zero =>
        obtain rfl : c = c' := by simpa using hc'
        exact .inl (by simp [hname, haddress])
      | succ index => exact .inr ⟨index, c', hc', hname, by simpa [Nat.add_assoc] using haddress⟩

theorem mem_textLabels_iff {lines : List String} {address : Nat} {name : String} :
    (name, address) ∈ textLabels lines ↔
      ∃ (index : Nat) (c : Content), (text lines)[index]? = some c ∧ c.label = some name ∧
        address = 4 * statementsBefore lines index := by
  simp [textLabels, mem_labelsFrom_iff, statementsBefore]

/-- The statements of a line are found behind those of the lines before it. -/
theorem getElem?_flatMap_statements {cs : List Content} {c : Content} {index : Nat}
    (hcs : ∀ c ∈ cs, ∃ commands, c.command.expand = .ok commands) (hc : cs[index]? = some c)
    (offset : Nat) (hoffset : offset < c.statements.length) :
    (cs.flatMap Content.statements)[((cs.take index).map Content.emitted).sum + offset]? =
      c.statements[offset]? := by
  have hbefore : ∀ c ∈ cs.take index, ∃ commands, c.command.expand = .ok commands :=
    fun c hc => hcs c (List.mem_of_mem_take hc)
  have hsplit : cs.flatMap Content.statements = (cs.take index).flatMap Content.statements ++
      (c.statements ++ (cs.drop (index + 1)).flatMap Content.statements) := by
    rw [← List.flatMap_cons, ← List.flatMap_append, ← eq_append_of_getElem? hc]
  rw [hsplit, ← length_flatMap_statements hbefore,
    List.getElem?_append_right (Nat.le_add_right _ _), Nat.add_sub_cancel_left,
    List.getElem?_append_left hoffset]

/-! ## Data -/

theorem length_variablesAt (kind : VariableKind) (offset : Nat) (values : List Int) :
    (variablesAt kind offset values).length = values.length := by
  induction values generalizing offset with
  | nil => rfl
  | cons value rest ih => simp [variablesAt, ih]

theorem length_variablesFrom (offset : Nat) (ds : List Declaration) :
    (variablesFrom offset ds).length = (ds.map (·.values.length)).sum := by
  induction ds generalizing offset with
  | nil => rfl
  | cons d rest ih => simp [variablesFrom, ih, Declaration.vars, length_variablesAt]

theorem getElem?_variablesAt (kind : VariableKind) (offset : Nat) {values : List Int} {k : Nat}
    {value : Int} (hk : values[k]? = some value) :
    (variablesAt kind offset values)[k]? =
      some ⟨offset + kind.size * k, kind, BitVec.ofInt 32 value⟩ := by
  induction values generalizing offset k with
  | nil => simp at hk
  | cons first rest ih =>
    cases k with
    | zero =>
      obtain rfl : first = value := by simpa using hk
      rfl
    | succ k =>
      rw [variablesAt, List.getElem?_cons_succ, ih _ (by simpa using hk), Nat.mul_succ,
        Nat.add_assoc, Nat.add_comm kind.size]

/-- The variables of a declaration are found behind those of the declarations before it. They stand
one behind the other from where the declaration starts. -/
theorem getElem?_variablesFrom {ds : List Declaration} {d : Declaration} {index : Nat}
    (hd : ds[index]? = some d) (offset : Nat) {k : Nat} {value : Int}
    (hk : d.values[k]? = some value) :
    (variablesFrom offset ds)[((ds.take index).map (·.values.length)).sum + k]? =
      some ⟨d.start (stopFrom offset (ds.take index)) + d.kind.size * k, d.kind,
        BitVec.ofInt 32 value⟩ := by
  have hvars : variablesFrom offset ds = variablesFrom offset (ds.take index) ++
      variablesFrom (stopFrom offset (ds.take index)) (d :: ds.drop (index + 1)) := by
    rw [← variablesFrom_append, ← eq_append_of_getElem? hd]
  have hlt : k < (d.vars (stopFrom offset (ds.take index))).length := by
    rw [Declaration.vars, length_variablesAt]
    exact (List.getElem?_eq_some_iff.1 hk).1
  rw [hvars, ← length_variablesFrom offset, List.getElem?_append_right (Nat.le_add_right _ _),
    Nat.add_sub_cancel_left, variablesFrom, List.getElem?_append_left hlt]
  exact getElem?_variablesAt d.kind _ hk

/-- The label of a declaration is where the declaration starts. -/
theorem mem_dataLabelsFrom {ds : List Declaration} {d : Declaration} {index : Nat}
    (hd : ds[index]? = some d) (offset : Nat) {name : String} (hname : d.label = some name) :
    (⟨name, d.start (stopFrom offset (ds.take index)), d.line⟩ : DataLabel) ∈
      dataLabelsFrom offset ds := by
  have hlabels : dataLabelsFrom offset ds = dataLabelsFrom offset (ds.take index) ++
      dataLabelsFrom (stopFrom offset (ds.take index)) (d :: ds.drop (index + 1)) := by
    rw [← dataLabelsFrom_append, ← eq_append_of_getElem? hd]
  rw [hlabels]
  apply List.mem_append_right
  apply List.mem_append_left
  rw [Declaration.labels, hname]
  exact List.mem_singleton.2 rfl

end Assembly.Source

/-! ## Assembled -/

open Assembly

namespace Program.Assembles

variable {p : Program} {lines : List String} {seed : LabelTable}

/-- Every command that a line of the text segment is written out to is an instruction of the
program, behind those of the lines before. -/
theorem instruction_of_text (h : p.Assembles lines seed) {c : Content} {index : Nat}
    (hc : (Source.text lines)[index]? = some c) {commands : List Command}
    (hcommands : c.command.expand = .ok commands) {k : Nat} {command : Command}
    (hk : commands[k]? = some command) :
    ∃ i w, instructionOf ⟨p.symbols, Source.statementsBefore lines index + k⟩ command = .ok i ∧
      p.words[Source.statementsBefore lines index + k]? = some w ∧
      Instruction.decode w = some i := by
  have hstatements := Content.statements_of_expand hcommands
  have hlt : k < c.statements.length := by
    rw [hstatements, List.length_map]
    exact (List.getElem?_eq_some_iff.1 hk).1
  have hs : (Source.statements lines)[Source.statementsBefore lines index + k]? =
      some ⟨command, c.number⟩ := by
    rw [Source.statements, Source.statementsBefore,
      Source.getElem?_flatMap_statements h.expands hc k hlt, hstatements, List.getElem?_map, hk]
    rfl
  exact h.written.decode hs

theorem textEnd_eq (h : p.Assembles lines seed) :
    p.textEnd = 4 * ((Source.text lines).map Content.emitted).sum := by
  rw [textEnd, h.written.length, Source.statements, Source.length_flatMap_statements h.expands]

/-- Every line of the data segment declares something. -/
theorem declaration_of_data (h : p.Assembles lines seed) {c : Content} {index : Nat}
    (hc : (Source.data lines)[index]? = some c) :
    ∃ d, c.declaration? = some d ∧ (Source.declarations lines)[index]? = some d := by
  have hget := congrArg (·[index]?) h.declares
  simp only [List.getElem?_map, hc, Option.map_some] at hget
  obtain ⟨d, hd, heq⟩ := Option.map_eq_some_iff.1 hget.symm
  exact ⟨d, heq.symm, hd⟩

/-- Every variable of a declaration is a variable of the program, behind those of the declarations
before. -/
theorem variable_of_declaration (h : p.Assembles lines seed) {d : Declaration} {index : Nat}
    (hd : (Source.declarations lines)[index]? = some d) {k : Nat} {value : Int}
    (hk : d.values[k]? = some value) :
    p.data.vars[Source.variablesBefore lines index + k]? =
      some ⟨p.textEnd +
          (d.start (Source.stopFrom 0 ((Source.declarations lines).take index)) + d.kind.size * k),
        d.kind, BitVec.ofInt 32 value⟩ := by
  rw [h.data]
  dsimp only
  rw [List.getElem?_map, Source.variablesBefore, Source.getElem?_variablesFrom hd 0 hk]
  rfl

/-- Variables lie behind the instructions and inside of the image. -/
theorem inside_of_mem (h : p.Assembles lines seed) {v : Variable} (hv : v ∈ p.data.vars) :
    p.textEnd ≤ v.address ∧ v.stop ≤ p.image.length := by
  have hstart : p.data.start = p.textEnd := by rw [h.data]
  constructor
  · rw [h.data] at hv
    obtain ⟨v', -, rfl⟩ := List.mem_map.1 hv
    exact Nat.le_add_right _ _
  · rw [length_image, ← hstart]
    exact StaticData.stop_le hv

end Program.Assembles

end Risc32
