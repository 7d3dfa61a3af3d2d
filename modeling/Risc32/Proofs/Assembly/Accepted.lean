import Risc32.Proofs.Assembly.Symbols

/-!
# Which sources are accepted

A source says what its program would be (`Program.Assembles`), whether or not there is one. This
file closes the circle: a source is accepted exactly if all of its lines can be read and some
program is what it says, and then this is the program (`Program.ofLines_eq_ok_iff`).

So a source can only be refused for what `Program.Assembles` asks of it. Reading gets stuck at a
line that has no meaning or at a label that is bound (`Draft.Reads.exists_addLines`), labels of data
at one that is bound, and the second pass at a statement that is no instruction.
-/

set_option autoImplicit false

namespace Risc32

theorem LabelTable.ext_entries {t t' : LabelTable} (h : t.entries = t'.entries) : t = t' := by
  cases t
  cases t'
  cases h
  rfl

theorem LabelTable.exists_insert? {t : LabelTable} {name : String}
    (h : name ∉ t.entries.map (·.1)) (address : Nat) : ∃ t', t.insert? name address = some t' := by
  have hnew : ¬(t.entries.map (·.1)).contains name := by
    rwa [List.contains_iff_mem]
  exact ⟨_, dif_neg hnew⟩

namespace Assembly

/-! ## Lines -/

/-- Every line of the source can be read. -/
def Source.Parses (lines : List String) : Prop :=
  ∀ source ∈ lines, ∃ parsed, Line.parse source = .ok parsed

/-- The line says something that its segment has a place for. -/
def Content.Meaningful (c : Content) : Prop :=
  match c.segment with
  | .text => ∃ commands, c.command.expand = .ok commands
  | .data => ∃ declaration, c.declaration? = some declaration

namespace DataDraft

theorem exists_pushValues {kind : VariableKind} {texts : List String} {values : List Int}
    (h : texts.mapM (literal? kind) = some values) (directive : String) (l : DataDraft) :
    ∃ l', l.pushValues kind directive texts = .ok l' := by
  induction texts generalizing values l with
  | nil => exact ⟨l, rfl⟩
  | cons text rest ih =>
    simp only [List.mapM_cons, Option.bind_eq_bind, Option.bind_eq_some_iff] at h
    obtain ⟨value, hvalue, more, hmore, -⟩ := h
    obtain ⟨l', hl'⟩ := ih hmore (l.push kind (BitVec.ofInt 32 value))
    have hadmitted : (integer? text).filter kind.admits = some value := hvalue
    refine ⟨l', ?_⟩
    rw [pushValues, List.foldlM_cons, hadmitted]
    exact hl'

/-- What is a declaration is accepted in the data segment. -/
theorem exists_addDeclaration {c : Content} {declaration : Declaration}
    (h : c.declaration? = some declaration) (l : DataDraft) :
    ∃ l', l.addDeclaration c.number c.label c.tokens = .ok l' := by
  obtain ⟨number, segment, label, tokens⟩ := c
  unfold Content.declaration? at h
  split at h
  · next directive text texts htokens =>
    obtain rfl : tokens = directive :: text :: texts := htokens
    simp only [Option.bind_eq_bind, Option.bind_eq_some_iff] at h
    obtain ⟨kind, hkind, first, hfirst, more, hmore, -⟩ := h
    have hvalues : (text :: texts).mapM (literal? kind) = some (first :: more) := by
      simp [List.mapM_cons, hfirst, hmore]
    have hsome : ¬(text :: texts).isEmpty := by simp
    simp only [addDeclaration, hkind, if_neg hsome]
    exact exists_pushValues hvalues directive _
  · cases h

end DataDraft

namespace Draft

variable {d : Draft} {seed : LabelTable} {text data : List Content}

theorem exists_bindLabel {labels : LabelTable} {name : String}
    (h : name ∉ labels.entries.map (·.1)) (line address : Nat) :
    ∃ labels', bindLabel labels line name address = .ok labels' := by
  obtain ⟨labels', hlabels'⟩ := LabelTable.exists_insert? h address
  exact ⟨labels', by rw [bindLabel, hlabels']⟩

theorem exists_addCommand {command : Command} {commands : List Command}
    (h : command.expand = .ok commands) (d : Draft) (line : Nat) :
    ∃ d', d.addCommand line command = .ok d' :=
  ⟨_, by rw [addCommand, h]⟩

/-- A line is accepted if it says something and its label is new. -/
theorem exists_addContent {c : Content} (hc : c.Meaningful) (hseg : d.segment = c.segment)
    (hnew : c.segment = .text → ∀ name ∈ c.label, name ∉ d.labels.entries.map (·.1))
    (source : String) : ∃ d', d.addContent c.number source c.label c.tokens = .ok d' := by
  rw [Content.Meaningful] at hc
  rw [addContent, hseg]
  cases htext : c.segment with
  | data =>
    rw [htext] at hc
    obtain ⟨declaration, hdeclaration⟩ := hc
    obtain ⟨l, hl⟩ := DataDraft.exists_addDeclaration hdeclaration d.data
    exact ⟨_, by simp only [hl]; rfl⟩
  | text =>
    rw [htext] at hc
    obtain ⟨commands, hcommands⟩ := hc
    cases hlabel : c.label with
    | none => exact exists_addCommand hcommands d c.number
    | some name =>
      obtain ⟨labels, hlabels⟩ := exists_bindLabel (hnew htext name hlabel) c.number d.address
      obtain ⟨d', hd'⟩ := exists_addCommand hcommands
        { d with labels := labels, textLabels := name :: d.textLabels } c.number
      exact ⟨d', by simp only [addLabel, hlabels]; exact hd'⟩

theorem Reads.map_fst_labels (hd : d.Reads seed text data) :
    d.labels.entries.map (·.1) =
      (text.filterMap (·.label)).reverse ++ seed.entries.map (·.1) := by
  rw [hd.labels, List.map_append, List.map_reverse, Source.map_fst_labelsFrom]

/-- A line is added to those of its segment. -/
theorem Reads.exists_addContent (hd : d.Reads seed text data) {c : Content} (hc : c.Meaningful)
    (hseg : d.segment = c.segment)
    (hnodup : ((text ++ [c].filter (·.segment = .text)).filterMap (·.label) ++
      seed.entries.map (·.1)).Nodup) (source : String) :
    ∃ d', d.addContent c.number source c.label c.tokens = .ok d' ∧ d'.segment = d.segment ∧
      d'.Reads seed (text ++ [c].filter (·.segment = .text))
        (data ++ [c].filter (·.segment = .data)) := by
  have hnew : c.segment = .text → ∀ name ∈ c.label, name ∉ d.labels.entries.map (·.1) := by
    intro htext name hname hmem
    have hlabel : c.label = some name := hname
    rw [List.filter_cons_of_pos (by simp [htext]), List.filterMap_append] at hnodup
    obtain ⟨htexts, -, hseeds⟩ := List.nodup_append.1 hnodup
    rw [hd.map_fst_labels, List.mem_append, List.mem_reverse] at hmem
    rcases hmem with hmem | hmem
    · exact (List.nodup_append.1 htexts).2.2 name hmem name (by simp [hlabel]) rfl
    · exact hseeds name (by simp [hlabel]) name hmem rfl
  obtain ⟨d', hd'⟩ := Draft.exists_addContent hc hseg hnew source
  cases htext : c.segment with
  | text =>
    obtain ⟨hreads, hsegment⟩ := hd.addText (hseg.trans htext) hd'
    exact ⟨d', hd', hsegment, by simpa [htext] using hreads⟩
  | data =>
    obtain ⟨hreads, hsegment⟩ := hd.addData (hseg.trans htext) hd'
    exact ⟨d', hd', hsegment, by simpa [htext] using hreads⟩

/-- Lines are read to the end if each of them says something and no label of text is bound twice. -/
theorem Reads.exists_addLines (hd : d.Reads seed text data) (number : Nat) {lines : List String}
    (hparses : Source.Parses lines)
    (hcontents : ∀ c ∈ Source.contentsFrom d.segment number lines, c.Meaningful)
    (hnodup : ((text ++ (Source.contentsFrom d.segment number lines).filter
      (·.segment = .text)).filterMap (·.label) ++ seed.entries.map (·.1)).Nodup) :
    ∃ d', d.addLines number lines = .ok d' := by
  induction lines generalizing d number text data with
  | nil => exact ⟨d, rfl⟩
  | cons source rest ih =>
    obtain ⟨parsed, hparsed⟩ := hparses source List.mem_cons_self
    have hrest : Source.Parses rest := fun l hl => hparses l (List.mem_cons_of_mem source hl)
    suffices ∃ d₁, d.addLine number source = .ok d₁ ∧
        ∃ d', d₁.addLines (number + 1) rest = .ok d' by
      obtain ⟨d₁, hline, d', hd'⟩ := this
      exact ⟨d', by rw [Draft.addLines, hline]; exact hd'⟩
    rw [Source.contentsFrom_cons, hparsed] at hcontents hnodup
    rw [addLine, hparsed]
    cases parsed with
    | blank => exact ⟨d, rfl, ih hd (number + 1) hrest hcontents hnodup⟩
    | segment s =>
      have hd₁ : ({ d with segment := s } : Draft).Reads seed text data :=
        ⟨hd.expands, hd.statements, hd.labels, hd.textLabels, hd.called, hd.declares⟩
      exact ⟨{ d with segment := s }, rfl, ih hd₁ (number + 1) hrest hcontents hnodup⟩
    | content label tokens =>
      obtain ⟨hmeaningful, hlater⟩ := List.forall_mem_cons.1 hcontents
      dsimp only at hnodup
      rw [← List.singleton_append, List.filter_append, ← List.append_assoc] at hnodup
      have hfirst := hnodup
      rw [List.filterMap_append, List.append_assoc] at hfirst
      obtain ⟨d₁, hline, hsegment, hd₁⟩ := hd.exists_addContent hmeaningful rfl
        (hfirst.sublist ((List.sublist_append_right _ _).append_left _)) source
      refine ⟨d₁, hline, ih hd₁ (number + 1) hrest ?_ ?_⟩
      · rwa [hsegment]
      · rwa [hsegment]

/-- Labels can be bound one after the other if none of them is bound twice. -/
theorem exists_foldlM_bindLabel {start : Nat} {ls : List DataLabel} {labels : LabelTable}
    (h : (ls.map (·.name) ++ labels.entries.map (·.1)).Nodup) :
    ∃ labels', ls.foldlM (fun labels l => bindLabel labels l.line l.name (start + l.offset))
      labels = .ok labels' := by
  induction ls generalizing labels with
  | nil => exact ⟨labels, rfl⟩
  | cons l rest ih =>
    have hperm := h.perm List.perm_middle.symm
    obtain ⟨hnew, -⟩ := List.nodup_cons.1 h
    obtain ⟨labels₁, hbind⟩ := exists_bindLabel
      (fun hmem => hnew (List.mem_append_right _ hmem)) l.line (start + l.offset)
    have hrest : (rest.map (·.name) ++ labels₁.entries.map (·.1)).Nodup := by
      rwa [bindLabel_eq_ok hbind]
    obtain ⟨labels', hlabels'⟩ := ih hrest
    exact ⟨labels', by rw [List.foldlM_cons, hbind]; exact hlabels'⟩

/-- Labels of data are bound if none of them is bound twice. -/
theorem exists_allLabels
    (h : (d.data.labels.toList.map (·.name) ++ d.labels.entries.map (·.1)).Nodup) :
    ∃ labels, d.allLabels = .ok labels :=
  exists_foldlM_bindLabel h

theorem parses_of_addLines {d' : Draft} {number : Nat} {lines : List String}
    (h : d.addLines number lines = .ok d') : Source.Parses lines := by
  induction lines generalizing d number with
  | nil => exact fun source hsource => absurd hsource List.not_mem_nil
  | cons source rest ih =>
    obtain ⟨d₁, hline, hrest⟩ := bind_eq_ok.1 h
    refine List.forall_mem_cons.2 ⟨?_, ih hrest⟩
    unfold addLine at hline
    split at hline
    · cases hline
    all_goals exact ⟨_, ‹_›⟩

end Draft

/-! ## Statements -/

/-- Statements that are instructions become their words. -/
theorem exists_instructionsFrom {labels : LabelTable} (index : Nat) {statements : List Statement}
    {words : List Word} (hlength : words.length = statements.length)
    (hword : ∀ {k : Nat} {s : Statement}, statements[k]? = some s →
      ∃ i, instructionOf ⟨labels, index + k⟩ s.toCommand = .ok i ∧ words[k]? = some i.encode) :
    ∃ instructions, instructionsFrom labels index statements = .ok instructions ∧
      instructions.map Instruction.encode = words := by
  induction statements generalizing index words with
  | nil => exact ⟨[], rfl, (List.length_eq_zero_iff.1 hlength).symm⟩
  | cons s rest ih =>
    obtain ⟨i, hi, hfirst⟩ := hword (k := 0) rfl
    cases words with
    | nil => simp at hlength
    | cons w words =>
      obtain ⟨is, his, hwords⟩ := ih (index + 1) (Nat.succ.inj hlength) (by
        intro k s' hs'
        obtain ⟨i', hi', hw⟩ := hword (k := k + 1) hs'
        exact ⟨i', by rwa [Nat.add_assoc, Nat.add_comm 1 k], hw⟩)
      have hw : w = i.encode := by simpa using hfirst
      rw [Nat.add_zero] at hi
      refine ⟨i :: is, ?_, by rw [List.map_cons, hwords, hw]⟩
      simp only [instructionsFrom, hi, his]
      rfl

/-- Of the statements, functions only depend on the mnemonics, and of the entries on which there
are. -/
theorem functionsFrom_congr {entries entries' : List Nat}
    (hentries : ∀ address, address ∈ entries ↔ address ∈ entries') {statements statements' :
      List Statement} (hstatements : statements.map (·.mnemonic) = statements'.map (·.mnemonic))
    (index : Nat) (opened : Option Extent) (found : Functions) :
    functionsFrom entries index opened found statements =
      functionsFrom entries' index opened found statements' := by
  have hopen : ∀ index opened, openAt entries index opened = openAt entries' index opened := by
    intro index opened
    have hcontains : entries.contains (4 * index) = entries'.contains (4 * index) := by
      rw [Bool.eq_iff_iff, List.contains_iff_mem, List.contains_iff_mem, hentries]
    cases opened <;> simp only [openAt, hcontains]
  induction statements generalizing statements' index opened found with
  | nil =>
    obtain rfl : statements' = [] := by simpa using hstatements.symm
    rfl
  | cons s rest ih =>
    cases statements' with
    | nil => simp at hstatements
    | cons s' rest' =>
      obtain ⟨hs, hrest⟩ := List.cons.inj hstatements
      have hs : s.mnemonic = s'.mnemonic := hs
      rw [functionsFrom_cons, functionsFrom_cons, hopen, hs]
      simp only [ih hrest]

end Assembly

/-! ## Sources -/

open Assembly

namespace Program

theorem Assembles.meaningful {p : Program} {lines : List String} {seed : LabelTable}
    (h : p.Assembles lines seed) : ∀ c ∈ Source.contents lines, c.Meaningful := by
  intro c hc
  cases hseg : c.segment with
  | text =>
    have hmem : c ∈ Source.text lines := List.mem_filter.2 ⟨hc, by simp [hseg]⟩
    rw [Content.Meaningful, hseg]
    exact h.expands c hmem
  | data =>
    have hmem : c ∈ Source.data lines := List.mem_filter.2 ⟨hc, by simp [hseg]⟩
    have hdeclares : c.declaration? ∈ (Source.declarations lines).map some :=
      h.declares ▸ List.mem_map_of_mem hmem
    obtain ⟨declaration, -, hdeclaration⟩ := List.mem_map.1 hdeclares
    rw [Content.Meaningful, hseg]
    exact ⟨declaration, hdeclaration.symm⟩

/-- A source whose lines can be read becomes the program that it says, if there is one. -/
theorem Assembles.ofLines_eq_ok {p : Program} {lines : List String} {seed : LabelTable}
    (h : p.Assembles lines seed) (hparses : Source.Parses lines) :
    ofLines lines seed = .ok p := by
  have hnodup := h.nodup_definedNames
  -- The first pass
  obtain ⟨draft, hdraft⟩ := (Draft.reads_new seed).exists_addLines 0 hparses
    h.meaningful (by
      rw [Source.definedNames, List.append_assoc] at hnodup
      exact (List.nodup_append.1 hnodup).2.1)
  have hreads := Draft.reads_addLines hdraft
  obtain ⟨-, hvars, hdataLabels⟩ := hreads.declared
  have hstatements : draft.statements.toList = Source.statements lines := hreads.statements
  have haddress : draft.address = p.textEnd := by
    rw [Draft.address, textEnd, h.written.length, ← hstatements, Array.length_toList]
  -- Labels of data
  obtain ⟨labels, hlabels⟩ := Draft.exists_allLabels (d := draft) (by
    rw [hdataLabels, hreads.map_fst_labels, Source.map_name_dataLabelsFrom, h.labels_declarations]
    rw [Source.definedNames, List.append_assoc] at hnodup
    exact (((List.reverse_perm _).append_right _).append_left _).nodup_iff.2 hnodup)
  have hsymbols : labels = p.symbols := by
    apply LabelTable.ext_entries
    rw [Draft.allLabels_eq_ok hlabels, h.symbols, hreads.labels, hdataLabels, haddress,
      Source.dataLabels, Source.textLabels, List.append_assoc]
  -- The second pass
  obtain ⟨instructions, hinstructions, hwords⟩ := exists_instructionsFrom 0
    h.written.length (by
      intro k s hs
      rw [Nat.zero_add]
      exact h.written.word hs)
  obtain ⟨entries, hentries, hfunctions⟩ := h.functions
  have hsame : functionsFrom draft.entries 0 none .empty (Source.statements lines) =
      p.functions := by
    rw [hfunctions]
    exact functionsFrom_congr
      (fun address => (hreads.mem_entries_iff_isCalled address).trans (hentries address).symm) rfl
      0 none .empty
  have hdata : draft.data.area draft.address = p.data := by
    rw [h.data, DataDraft.area, hvars, haddress]
  rw [ofLines, hdraft]
  simp only [bind, Except.bind, Draft.toProgram, hlabels, hsymbols, hstatements, hinstructions,
    hwords, hsame, hdata]
  rfl

/-- **Which sources are accepted.** A source becomes a program exactly if its lines can be read and
the program is what it says. -/
theorem ofLines_eq_ok_iff {lines : List String} {seed : LabelTable} {p : Program} :
    ofLines lines seed = .ok p ↔ Source.Parses lines ∧ p.Assembles lines seed := by
  constructor
  · intro h
    obtain ⟨draft, hdraft, -⟩ := bind_eq_ok.1 h
    exact ⟨Draft.parses_of_addLines hdraft, assembles_ofLines h⟩
  · rintro ⟨hparses, h⟩
    exact h.ofLines_eq_ok hparses

end Program

end Risc32
