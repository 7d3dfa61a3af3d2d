import Mathlib.Data.List.Forall2
import Risc32.Proofs.Assembly.Accepted

/-!
# Sources that say the same

Two sources are alike if, segment by segment, their lines say the same one after the other. What a
line says leaves out how it is written and where it stands: lines of text have to be written out to
commands that become the same instructions, and lines of data to declare the same variables.

Sources that are alike become the same program, or neither becomes one
(`toOption_ofLines_of_alike`). Nothing is said of the error, which has the number of its line and
the text of it.
-/

set_option autoImplicit false

namespace Risc32

namespace Assembly

/-! ## Lines -/

/-- Commands that nothing in a program tells apart. Of what is called only names of labels count, as
only labels can be functions. -/
structure Command.Alike (c c' : Command) : Prop where
  mnemonic : c.mnemonic = c'.mnemonic
  instruction : ∀ s, (instructionOf s c).toOption = (instructionOf s c').toOption
  called : c.mnemonic = "call" → ∀ name, isIdentifier name →
    (c.operands.head? = some name ↔ c'.operands.head? = some name)

/-- Declarations of the same variables under the same label. -/
structure Declaration.Alike (d d' : Declaration) : Prop where
  label : d.label = d'.label
  kind : d.kind = d'.kind
  values : d.values = d'.values

/-- Lines with content that say the same. -/
structure Content.Alike (c c' : Content) : Prop where
  segment : c.segment = c'.segment
  label : c.label = c'.label
  mnemonic : c.command.mnemonic = c'.command.mnemonic
  commands : Option.Rel (List.Forall₂ Command.Alike) c.command.expand.toOption
    c'.command.expand.toOption
  declaration : Option.Rel Declaration.Alike c.declaration? c'.declaration?

theorem Command.Alike.refl (c : Command) : c.Alike c :=
  ⟨rfl, fun _ => rfl, fun _ _ _ => Iff.rfl⟩

theorem Command.Alike.symm {c c' : Command} (h : c.Alike c') : c'.Alike c :=
  ⟨h.mnemonic.symm, fun s => (h.instruction s).symm,
    fun hcall name hname => (h.called (h.mnemonic.trans hcall) name hname).symm⟩

theorem Declaration.Alike.symm {d d' : Declaration} (h : d.Alike d') : d'.Alike d :=
  ⟨h.label.symm, h.kind.symm, h.values.symm⟩

theorem rel_symm {α : Type} {r : α → α → Prop} (hr : ∀ a b, r a b → r b a) {x y : Option α}
    (h : Option.Rel r x y) : Option.Rel r y x := by
  cases h with
  | none => exact .none
  | some h => exact .some (hr _ _ h)

theorem exists_of_rel {α : Type} {r : α → α → Prop} {a : α} {y : Option α}
    (h : Option.Rel r (some a) y) : ∃ b, y = some b ∧ r a b := by
  cases h with
  | some h => exact ⟨_, rfl, h⟩

theorem exists_of_mem {α : Type} {r : α → α → Prop} {l l' : List α} (h : List.Forall₂ r l l')
    {a : α} (ha : a ∈ l) : ∃ b ∈ l', r a b := by
  induction h with
  | nil => simp at ha
  | @cons first first' _ _ hfirst _ ih =>
    rcases List.mem_cons.1 ha with rfl | ha
    · exact ⟨first', List.mem_cons_self, hfirst⟩
    · obtain ⟨b, hb, hab⟩ := ih ha
      exact ⟨b, List.mem_cons_of_mem first' hb, hab⟩

theorem Content.Alike.symm {c c' : Content} (h : c.Alike c') : c'.Alike c where
  segment := h.segment.symm
  label := h.label.symm
  mnemonic := h.mnemonic.symm
  commands := rel_symm (fun _ _ hall => (hall.imp fun _ _ hc => hc.symm).flip) h.commands
  declaration := rel_symm (fun _ _ hd => hd.symm) h.declaration

theorem Content.declaration?_number (c : Content) (number : Nat) :
    { c with number := number }.declaration? =
      c.declaration?.map fun d => { d with line := number } := by
  obtain ⟨_, _, label, tokens⟩ := c
  match tokens with
  | [] | [_] => rfl
  | directive :: text :: texts =>
    simp only [declaration?, Option.bind_eq_bind, Option.pure_def, Option.map_bind,
      Function.comp_def, Option.map_some]

/-- Where a line stands does not matter. -/
theorem Content.alike_number (c : Content) (number : Nat) :
    c.Alike { c with number := number } where
  segment := rfl
  label := rfl
  mnemonic := rfl
  commands := by
    show Option.Rel _ c.command.expand.toOption c.command.expand.toOption
    cases c.command.expand with
    | error _ => exact .none
    | ok commands => exact .some (List.forall₂_same.2 fun c _ => .refl c)
  declaration := by
    rw [declaration?_number c number]
    cases c.declaration? with
    | none => exact .none
    | some d => exact .some ⟨rfl, rfl, rfl⟩

theorem Content.Alike.refl (c : Content) : c.Alike c :=
  c.alike_number c.number

namespace Content.Alike

variable {c c' : Content}

theorem emitted_eq (h : c.Alike c') : c.emitted = c'.emitted := by
  rw [emitted, emitted, h.mnemonic]

theorem meaningful (h : c.Alike c') (hc : c.Meaningful) : c'.Meaningful := by
  unfold Content.Meaningful at hc ⊢
  rw [← h.segment]
  split at hc
  · obtain ⟨commands, hcommands⟩ := hc
    have hrel := h.commands
    rw [toOption_eq_some_iff.2 hcommands] at hrel
    obtain ⟨commands', hcommands', -⟩ := exists_of_rel hrel
    exact ⟨commands', toOption_eq_some_iff.1 hcommands'⟩
  · obtain ⟨d, hd⟩ := hc
    have hrel := h.declaration
    rw [hd] at hrel
    obtain ⟨d', hd', -⟩ := exists_of_rel hrel
    exact ⟨d', hd'⟩

theorem statements_alike (h : c.Alike c') :
    List.Forall₂ (fun s s' : Statement => s.toCommand.Alike s'.toCommand) c.statements
      c'.statements := by
  have hrel := h.commands
  unfold Content.statements
  cases hcommands : c.command.expand with
  | error cause =>
    cases hcommands' : c'.command.expand with
    | error cause' => exact .nil
    | ok commands' =>
      rw [hcommands, hcommands'] at hrel
      nomatch hrel
  | ok commands =>
    cases hcommands' : c'.command.expand with
    | error cause' =>
      rw [hcommands, hcommands'] at hrel
      nomatch hrel
    | ok commands' =>
      rw [hcommands, hcommands'] at hrel
      cases hrel with
      | some hall => simpa using hall

end Content.Alike

/-! ## Sources -/

/-- Sources whose segments say the same line by line, and which can be read or cannot. -/
structure Source.Alike (lines lines' : List String) : Prop where
  parses : Parses lines ↔ Parses lines'
  text : List.Forall₂ Content.Alike (text lines) (text lines')
  data : List.Forall₂ Content.Alike (data lines) (data lines')

namespace Source

theorem Alike.symm {lines lines' : List String} (h : Alike lines lines') : Alike lines' lines where
  parses := h.parses.symm
  text := (h.text.imp fun _ _ hc => hc.symm).flip
  data := (h.data.imp fun _ _ hc => hc.symm).flip

theorem labelsFrom_congr {cs cs' : List Content} (h : List.Forall₂ Content.Alike cs cs')
    (index : Nat) : labelsFrom index cs = labelsFrom index cs' := by
  induction h generalizing index with
  | nil => rfl
  | cons hc _ ih => rw [labelsFrom, labelsFrom, hc.label, hc.emitted_eq, ih]

/-- Lines that all declare something are as many as their declarations. -/
theorem map_declaration?_eq {cs : List Content} (h : ∀ c ∈ cs, ∃ d, c.declaration? = some d) :
    cs.map Content.declaration? = (cs.filterMap Content.declaration?).map some := by
  induction cs with
  | nil => rfl
  | cons c rest ih =>
    obtain ⟨⟨d, hd⟩, hrest⟩ := List.forall_mem_cons.1 h
    rw [List.map_cons, List.filterMap_cons_some hd, List.map_cons, hd, ih hrest]

variable {ds ds' : List Declaration}

theorem variablesFrom_congr (h : List.Forall₂ Declaration.Alike ds ds') (offset : Nat) :
    variablesFrom offset ds = variablesFrom offset ds' := by
  induction h generalizing offset with
  | nil => rfl
  | cons hd _ ih =>
    simp only [variablesFrom, Declaration.vars, Declaration.stop, Declaration.start, hd.kind,
      hd.values, ih]

theorem dataLabelsFrom_congr (h : List.Forall₂ Declaration.Alike ds ds') (offset start : Nat) :
    (dataLabelsFrom offset ds).map (fun l => (l.name, start + l.offset)) =
      (dataLabelsFrom offset ds').map fun l => (l.name, start + l.offset) := by
  induction h generalizing offset with
  | nil => rfl
  | cons hd _ ih =>
    simp [dataLabelsFrom, Declaration.labels, Declaration.stop, Declaration.start, hd.label,
      hd.kind, hd.values, ih]

namespace Alike

variable {lines lines' : List String}

theorem textLabels_eq (h : Alike lines lines') : textLabels lines = textLabels lines' :=
  labelsFrom_congr h.text 0

theorem statements_alike (h : Alike lines lines') :
    List.Forall₂ (fun s s' : Statement => s.toCommand.Alike s'.toCommand) (statements lines)
      (statements lines') :=
  List.rel_flatMap h.text fun _ _ hc => hc.statements_alike

theorem declarations_alike (h : Alike lines lines') :
    List.Forall₂ Declaration.Alike (declarations lines) (declarations lines') :=
  List.rel_filterMap (fun _ _ hc => hc.declaration) h.data

/-- If all lines of one mean something, those of the other do. -/
theorem meaningful (h : Alike lines lines') (hall : ∀ c ∈ contents lines, c.Meaningful) :
    ∀ c' ∈ contents lines', c'.Meaningful := by
  intro c' hc'
  have hfrom : ∀ {q : Content → Bool}, List.Forall₂ Content.Alike ((contents lines').filter q)
      ((contents lines).filter q) → q c' → c'.Meaningful := by
    intro q halike hq
    obtain ⟨c, hc, hcc⟩ := exists_of_mem halike (List.mem_filter.2 ⟨hc', hq⟩)
    exact hcc.symm.meaningful (hall c (List.mem_filter.1 hc).1)
  cases hsegment : c'.segment with
  | text => exact hfrom h.symm.text (by simp [hsegment])
  | data => exact hfrom h.symm.data (by simp [hsegment])

theorem isCalled (h : Alike lines lines') {address : Nat} (hcalled : IsCalled lines address) :
    IsCalled lines' address := by
  obtain ⟨name, hname, s, hs, hcall, hhead⟩ := hcalled
  obtain ⟨s', hs', halike⟩ := exists_of_mem h.statements_alike hs
  obtain ⟨_, c, hc, hlabel, -⟩ := mem_textLabels_iff.1 hname
  have hidentifier : isIdentifier name :=
    isIdentifier_of_mem_contentsFrom (List.mem_filter.1 (List.mem_of_getElem? hc)).1 hlabel
  exact ⟨name, h.textLabels_eq ▸ hname, s', hs', halike.mnemonic ▸ hcall,
    (halike.called hcall name hidentifier).1 hhead⟩

end Alike

end Source

end Assembly

open Assembly

namespace Program

variable {p : Program} {lines lines' : List String} {seed : LabelTable}

theorem Written.of_alike {labels : LabelTable} {statements statements' : List Statement}
    (h : p.Written labels statements)
    (halike : List.Forall₂ (fun s s' : Statement => s.toCommand.Alike s'.toCommand) statements
      statements') : p.Written labels statements' := by
  refine ⟨h.length.trans halike.length_eq, ?_⟩
  intro k s' hs'
  obtain ⟨hlt', rfl⟩ := List.getElem?_eq_some_iff.1 hs'
  have hlt : k < statements.length := halike.length_eq ▸ hlt'
  obtain ⟨i, hi, hw⟩ := h.word (List.getElem?_eq_getElem hlt)
  refine ⟨i, ?_, hw⟩
  have hsame := (halike.get hlt hlt').instruction ⟨labels, k⟩
  exact toOption_eq_some_iff.1 (hsame.symm.trans (toOption_eq_some_iff.2 hi))

/-- A program that is what a source says is what a source like it says. -/
theorem Assembles.of_alike (h : p.Assembles lines seed) (halike : Source.Alike lines lines') :
    p.Assembles lines' seed where
  expands c' hc' := by
    have hmeaningful := halike.meaningful h.meaningful c' (List.mem_filter.1 hc').1
    rwa [Content.Meaningful, of_decide_eq_true (List.mem_filter.1 hc').2] at hmeaningful
  written := h.written.of_alike halike.statements_alike
  symbols := by
    rw [h.symbols, Source.dataLabels, Source.dataLabels,
      Source.dataLabelsFrom_congr halike.declarations_alike, halike.textLabels_eq]
  declares := by
    apply Source.map_declaration?_eq
    intro c' hc'
    have hmeaningful := halike.meaningful h.meaningful c' (List.mem_filter.1 hc').1
    rwa [Content.Meaningful, of_decide_eq_true (List.mem_filter.1 hc').2] at hmeaningful
  data := by rw [h.data, Source.variablesFrom_congr halike.declarations_alike]
  functions := by
    obtain ⟨entries, hentries, hfunctions⟩ := h.functions
    refine ⟨entries, ?_, ?_⟩
    · intro address
      rw [hentries]
      exact ⟨halike.isCalled, halike.symm.isCalled⟩
    · rw [hfunctions]
      refine functionsFrom_congr (fun _ => Iff.rfl) ?_ 0 none .empty
      rw [← List.forall₂_eq_eq_eq, List.forall₂_map_left_iff, List.forall₂_map_right_iff]
      exact halike.statements_alike.imp fun _ _ hs => hs.mnemonic

/-- **Sources that say the same** become the same program, or neither becomes one. -/
theorem toOption_ofLines_of_alike (h : Source.Alike lines lines') (seed : LabelTable) :
    (ofLines lines seed).toOption = (ofLines lines' seed).toOption := by
  apply Option.ext
  intro p
  rw [toOption_eq_some_iff, toOption_eq_some_iff, ofLines_eq_ok_iff, ofLines_eq_ok_iff, h.parses]
  exact and_congr_right fun _ => ⟨(·.of_alike h), (·.of_alike h.symm)⟩

end Program

end Risc32
