import Mathlib.Algebra.GroupWithZero.Nat
import Risc32.Proofs.Assembly.Programs
import Risc32.Proofs.Names

/-!
# What a source says

A source is read line by line into a draft. This file says what a draft is in terms of the source
alone: which lines have something on them and in which segment (`Source.contents`), which statements
the lines of the text segment are written out to, where that puts the labels in front of them, and
where the declarations of the data segment put their variables.

`Draft.Reads` relates the two. One line keeps it (`Reads.addText`, `Reads.addData`), hence a source
does (`reads_addLines`). What follows is about the source, and no proof after it looks into the
reading of lines again.
-/

set_option autoImplicit false

namespace Risc32

namespace Assembly

/-! ## Lines with content -/

/-- A line that has something on it, in the segment that it is read in. -/
structure Content where
  number : Nat
  segment : Segment
  label : Option String
  tokens : List String
deriving DecidableEq, Repr

namespace Content

/-- What a line of the text segment says to do. -/
def command (c : Content) : Command :=
  Draft.commandOf c.tokens

/-- The statements that a line of the text segment is written out to. -/
def statements (c : Content) : List Statement :=
  match c.command.expand with
  | .ok commands => commands.map (Statement.mk · c.number)
  | .error _ => []

/-- How many statements a line of the text segment becomes: one, also if it is only a label, and
two if it asks for an address. -/
def emitted (c : Content) : Nat :=
  if c.command.mnemonic = "movia" then 2 else 1

end Content

namespace Source

/-- The lines with content of a source whose first line has the given number and is read in the
given segment. A line that names a segment has no content: it says where the next ones belong. -/
def contentsFrom (segment : Segment) (number : Nat) : List String → List Content
  | [] => []
  | source :: rest =>
    match Line.parse source with
    | .ok (.content label tokens) =>
      ⟨number, segment, label, tokens⟩ :: contentsFrom segment (number + 1) rest
    | .ok (.segment s) => contentsFrom s (number + 1) rest
    | .ok .blank | .error _ => contentsFrom segment (number + 1) rest

def contents (lines : List String) : List Content :=
  contentsFrom .text 0 lines

/-- The segment that the line behind the given lines is read in. -/
def segmentAfter (segment : Segment) : List String → Segment
  | [] => segment
  | source :: rest =>
    match Line.parse source with
    | .ok (.segment s) => segmentAfter s rest
    | .ok .blank | .ok (.content _ _) | .error _ => segmentAfter segment rest

/-- The lines of the text segment. -/
def text (lines : List String) : List Content :=
  (contents lines).filter (·.segment = .text)

/-- The lines of the data segment. -/
def data (lines : List String) : List Content :=
  (contents lines).filter (·.segment = .data)

/-- The statements of a source, all of them. -/
def statements (lines : List String) : List Statement :=
  (text lines).flatMap Content.statements

/-- The labels of lines of the text segment, each with the address of the next statement. The first
line begins with the statement that has the given index. -/
def labelsFrom (index : Nat) : List Content → List (String × Nat)
  | [] => []
  | c :: rest => c.label.toList.map (·, 4 * index) ++ labelsFrom (index + c.emitted) rest

def textLabels (lines : List String) : List (String × Nat) :=
  labelsFrom 0 (text lines)

end Source

/-! ## Declarations -/

/-- What a line of the data segment declares: one or more variables of a kind. -/
structure Declaration where
  line : Nat
  label : Option String
  kind : VariableKind
  /-- The value of the first variable. -/
  first : Int
  /-- The values of the variables behind it. -/
  more : List Int
deriving DecidableEq, Repr

/-- The value that a variable is declared with. -/
def literal? (kind : VariableKind) (text : String) : Option Int :=
  (integer? text).filter kind.admits

/-- What the line declares, if it is a declaration. -/
def Content.declaration? (c : Content) : Option Declaration :=
  match c.tokens with
  | directive :: text :: texts => do
    let kind ← VariableKind.ofDirective? (Text.lower directive)
    let first ← literal? kind text
    let more ← texts.mapM (literal? kind)
    return ⟨c.number, c.label, kind, first, more⟩
  | _ => none

/-- Variables one behind the other. -/
def variablesAt (kind : VariableKind) (offset : Nat) : List Int → List Variable
  | [] => []
  | value :: rest =>
    ⟨offset, kind, BitVec.ofInt 32 value⟩ :: variablesAt kind (offset + kind.size) rest

namespace Declaration

def values (d : Declaration) : List Int :=
  d.first :: d.more

/-- Where the variables begin, if the first free byte is at the offset. -/
def start (d : Declaration) (offset : Nat) : Nat :=
  d.kind.align offset

/-- The first free byte behind the variables. -/
def stop (d : Declaration) (offset : Nat) : Nat :=
  d.start offset + d.kind.size * d.values.length

def vars (d : Declaration) (offset : Nat) : List Variable :=
  variablesAt d.kind (d.start offset) d.values

/-- The label of the declaration, if it has one. It stands in front of the first variable. -/
def labels (d : Declaration) (offset : Nat) : List DataLabel :=
  d.label.toList.map fun name => ⟨name, d.start offset, d.line⟩

end Declaration

namespace Source

def declarations (lines : List String) : List Declaration :=
  (data lines).filterMap Content.declaration?

/-- The variables of declarations, the first of which finds the offset free. -/
def variablesFrom (offset : Nat) : List Declaration → List Variable
  | [] => []
  | d :: rest => d.vars offset ++ variablesFrom (d.stop offset) rest

/-- The labels of declarations, the first of which finds the offset free. -/
def dataLabelsFrom (offset : Nat) : List Declaration → List DataLabel
  | [] => []
  | d :: rest => d.labels offset ++ dataLabelsFrom (d.stop offset) rest

/-- The first free byte behind declarations. -/
def stopFrom (offset : Nat) : List Declaration → Nat
  | [] => offset
  | d :: rest => stopFrom (d.stop offset) rest

/-- The labels of the data segment, which begins at the address. -/
def dataLabels (start : Nat) (lines : List String) : List (String × Nat) :=
  (dataLabelsFrom 0 (declarations lines)).map fun l => (l.name, start + l.offset)

section

variable {segment : Segment} {number : Nat} {source : String} {rest : List String}

@[simp] theorem contentsFrom_nil : contentsFrom segment number [] = [] := rfl

theorem contentsFrom_cons : contentsFrom segment number (source :: rest) =
    match Line.parse source with
    | .ok (.content label tokens) =>
      ⟨number, segment, label, tokens⟩ :: contentsFrom segment (number + 1) rest
    | .ok (.segment s) => contentsFrom s (number + 1) rest
    | .ok .blank | .error _ => contentsFrom segment (number + 1) rest := rfl

@[simp] theorem segmentAfter_nil : segmentAfter segment [] = segment := rfl

theorem segmentAfter_cons : segmentAfter segment (source :: rest) =
    match Line.parse source with
    | .ok (.segment s) => segmentAfter s rest
    | .ok .blank | .ok (.content _ _) | .error _ => segmentAfter segment rest := rfl

end

/-! What comes later does not change what comes first. -/

theorem contentsFrom_append (segment : Segment) (number : Nat) (lines lines' : List String) :
    contentsFrom segment number (lines ++ lines') =
      contentsFrom segment number lines ++
        contentsFrom (segmentAfter segment lines) (number + lines.length) lines' := by
  induction lines generalizing segment number with
  | nil => rfl
  | cons source rest ih =>
    have hlength : number + (source :: rest).length = number + 1 + rest.length := by
      rw [List.length_cons]
      omega
    rw [List.cons_append, contentsFrom_cons, contentsFrom_cons, segmentAfter_cons, hlength]
    cases Line.parse source with
    | error cause => exact ih segment (number + 1)
    | ok parsed =>
      cases parsed with
      | blank => exact ih segment (number + 1)
      | segment s => exact ih s (number + 1)
      | content label tokens => exact congrArg _ (ih segment (number + 1))

theorem labelsFrom_append (index : Nat) (cs cs' : List Content) :
    labelsFrom index (cs ++ cs') =
      labelsFrom index cs ++ labelsFrom (index + (cs.map Content.emitted).sum) cs' := by
  induction cs generalizing index with
  | nil => rfl
  | cons c rest ih => simp [labelsFrom, ih, Nat.add_assoc]

theorem variablesFrom_append (offset : Nat) (ds ds' : List Declaration) :
    variablesFrom offset (ds ++ ds') =
      variablesFrom offset ds ++ variablesFrom (stopFrom offset ds) ds' := by
  induction ds generalizing offset with
  | nil => rfl
  | cons d rest ih => simp [variablesFrom, stopFrom, ih]

theorem dataLabelsFrom_append (offset : Nat) (ds ds' : List Declaration) :
    dataLabelsFrom offset (ds ++ ds') =
      dataLabelsFrom offset ds ++ dataLabelsFrom (stopFrom offset ds) ds' := by
  induction ds generalizing offset with
  | nil => rfl
  | cons d rest ih => simp [dataLabelsFrom, stopFrom, ih]

theorem stopFrom_append (offset : Nat) (ds ds' : List Declaration) :
    stopFrom offset (ds ++ ds') = stopFrom (stopFrom offset ds) ds' := by
  induction ds generalizing offset with
  | nil => rfl
  | cons d rest ih => simp [stopFrom, ih]

end Source

/-! ## Writing out -/

theorem Pseudo.ofName?_eq_some {name : String} {p : Pseudo} (h : ofName? name = some p) :
    p.name = name := by
  simpa using List.find?_some h

theorem Pseudo.length_expand {p : Pseudo} {operands : List String} {commands : List Command}
    (h : p.expand operands = .ok commands) :
    commands.length = if p.name = "movia" then 2 else 1 := by
  unfold expand at h
  split at h <;> cases h <;> rfl

/-- A pseudo-instruction is written out to instructions that call nothing. -/
theorem Pseudo.mnemonic_ne_call {p : Pseudo} {operands : List String} {commands : List Command}
    (h : p.expand operands = .ok commands) : ∀ c ∈ commands, c.mnemonic ≠ "call" := by
  unfold expand at h
  split at h <;> cases h <;> simp

namespace Content

theorem statements_of_expand {c : Content} {commands : List Command}
    (h : c.command.expand = .ok commands) :
    c.statements = commands.map (Statement.mk · c.number) := by
  rw [statements, h]

theorem length_of_expand {c : Content} {commands : List Command}
    (h : c.command.expand = .ok commands) : commands.length = c.emitted := by
  unfold Command.expand at h
  split at h
  · next p hp => rw [Pseudo.length_expand h, Pseudo.ofName?_eq_some hp, emitted]
  · next hnone =>
    obtain rfl := Except.ok.inj h
    rw [emitted, if_neg]
    · rfl
    · intro hmovia
      rw [hmovia] at hnone
      cases hnone

theorem emitted_pos (c : Content) : 0 < c.emitted := by
  unfold emitted
  split <;> decide

/-- What a line calls is what its statements call. -/
theorem mem_calledBy_iff {c : Content} {commands : List Command} {name : String}
    (h : c.command.expand = .ok commands) :
    name ∈ Draft.calledBy c.command ↔
      ∃ s ∈ c.statements, s.mnemonic = "call" ∧ s.operands.head? = some name := by
  rw [statements_of_expand h]
  unfold Command.expand at h
  split at h
  · next p hp =>
    have hcall : c.command.mnemonic ≠ "call" := by
      rw [← Pseudo.ofName?_eq_some hp]
      cases p <;> decide
    constructor
    · intro hmem
      simp [Draft.calledBy, hcall] at hmem
    · rintro ⟨s, hs, hmnemonic, -⟩
      obtain ⟨command, hcommand, rfl⟩ := List.mem_map.1 hs
      exact absurd hmnemonic (Pseudo.mnemonic_ne_call h command hcommand)
  · obtain rfl := Except.ok.inj h
    simp only [Draft.calledBy, List.map_cons, List.map_nil, List.mem_singleton, exists_eq_left]
    split
    · next hcall => cases c.command.operands <;> simp [hcall, eq_comm]
    · next hcall => simp [hcall]

end Content

/-- The statements of lines that can be written out are as many as the lines say. -/
theorem Source.length_flatMap_statements {cs : List Content}
    (h : ∀ c ∈ cs, ∃ commands, c.command.expand = .ok commands) :
    (cs.flatMap Content.statements).length = (cs.map Content.emitted).sum := by
  induction cs with
  | nil => rfl
  | cons c rest ih =>
    obtain ⟨commands, hcommands⟩ := h c List.mem_cons_self
    have hrest := ih fun c' hc' => h c' (List.mem_cons_of_mem _ hc')
    simp [Content.statements_of_expand hcommands, Content.length_of_expand hcommands, hrest]

/-! ## Reading declarations -/

namespace DataDraft

theorem pushValues_eq_ok {l l' : DataDraft} {kind : VariableKind} {directive : String}
    {texts : List String} (h : l.pushValues kind directive texts = .ok l') :
    ∃ values, texts.mapM (literal? kind) = some values ∧ l'.labels = l.labels ∧
      l'.vars.toList = l.vars.toList ++ variablesAt kind l.size values ∧
      l'.size = l.size + kind.size * values.length := by
  induction texts generalizing l with
  | nil =>
    obtain rfl : l = l' := Except.ok.inj h
    exact ⟨[], rfl, rfl, by simp [variablesAt], by simp⟩
  | cons text rest ih =>
    rw [pushValues, List.foldlM_cons] at h
    obtain ⟨l₁, hpush, hrest⟩ := bind_eq_ok.1 h
    split at hpush
    · next value hvalue =>
      obtain rfl := Except.ok.inj hpush
      obtain ⟨values, hvalues, hlabels, hvars, hsize⟩ := ih hrest
      refine ⟨value :: values, ?_, hlabels, ?_, ?_⟩
      · have hliteral : literal? kind text = some value := hvalue
        simp [List.mapM_cons, hliteral, hvalues]
      · simp [hvars, push, variablesAt]
      · have hpushed : (l.push kind (BitVec.ofInt 32 value)).size = l.size + kind.size := rfl
        rw [hsize, hpushed, List.length_cons, Nat.mul_succ]
        omega
    · cases hpush

/-- A line that is accepted in the data segment is a declaration, and adds what it declares. -/
theorem addDeclaration_eq_ok {l l' : DataDraft} {c : Content}
    (h : l.addDeclaration c.number c.label c.tokens = .ok l') :
    ∃ d, c.declaration? = some d ∧ l'.vars.toList = l.vars.toList ++ d.vars l.size ∧
      l'.labels.toList = l.labels.toList ++ d.labels l.size ∧ l'.size = d.stop l.size := by
  obtain ⟨number, segment, label, tokens⟩ := c
  unfold addDeclaration at h
  split at h
  · cases h
  · next directive texts _ =>
    split at h
    · cases h
    · next kind hkind =>
      split at h
      · cases h
      · next hne =>
        obtain ⟨values, hvalues, hlabels, hvars, hsize⟩ := pushValues_eq_ok h
        cases texts with
        | nil => exact absurd rfl hne
        | cons text texts =>
          simp only [List.mapM_cons, Option.bind_eq_bind, Option.bind_eq_some_iff,
            Option.pure_def, Option.some.injEq] at hvalues
          obtain ⟨first, hfirst, more, hmore, rfl⟩ := hvalues
          refine ⟨⟨number, label, kind, first, more⟩, ?_, hvars, ?_, hsize⟩
          · simp_all [Content.declaration?]
          · simp [hlabels, Declaration.labels, Declaration.start]

end DataDraft

/-! ## Reading lines -/

/-- The draft is what the lines of the two segments make of the seed. -/
structure Draft.Reads (d : Draft) (seed : LabelTable) (text data : List Content) : Prop where
  expands : ∀ c ∈ text, ∃ commands, c.command.expand = .ok commands
  statements : d.statements.toList = text.flatMap Content.statements
  labels : d.labels.entries = (Source.labelsFrom 0 text).reverse ++ seed.entries
  textLabels : d.textLabels = ((Source.labelsFrom 0 text).map (·.1)).reverse
  called : ∀ name, name ∈ d.called ↔ ∃ c ∈ text, name ∈ Draft.calledBy c.command
  declares : ∃ ds, data.map Content.declaration? = ds.map some ∧
    d.data.vars.toList = Source.variablesFrom 0 ds ∧
    d.data.labels.toList = Source.dataLabelsFrom 0 ds ∧ d.data.size = Source.stopFrom 0 ds

namespace Draft

theorem bindLabel_eq_ok {labels labels' : LabelTable} {line address : Nat} {name : String}
    (h : bindLabel labels line name address = .ok labels') :
    labels'.entries = (name, address) :: labels.entries := by
  unfold bindLabel at h
  split at h
  · next hinsert =>
    obtain rfl := Except.ok.inj h
    exact LabelTable.insert?_eq_some hinsert
  · cases h

theorem mem_foldl_insert {names called : List String} {name : String} :
    name ∈ names.foldl (fun called name => called.insert name) called ↔
      name ∈ called ∨ name ∈ names := by
  induction names generalizing called with
  | nil => simp
  | cons n rest ih =>
    rw [List.foldl_cons, ih, List.mem_insert_iff, List.mem_cons, or_comm (a := name = n), or_assoc]

theorem addLabel_eq_ok {d d' : Draft} {line : Nat} {name : String}
    (h : d.addLabel line name = .ok d') :
    ∃ labels, labels.entries = (name, d.address) :: d.labels.entries ∧
      d' = { d with labels := labels, textLabels := name :: d.textLabels } := by
  obtain ⟨labels, hlabels, h⟩ := bind_eq_ok.1 h
  exact ⟨labels, bindLabel_eq_ok hlabels, (Except.ok.inj h).symm⟩

theorem addCommand_eq_ok {d d' : Draft} {line : Nat} {command : Command}
    (h : d.addCommand line command = .ok d') :
    ∃ commands, command.expand = .ok commands ∧
      d' = { d with
        statements := d.statements ++ commands.map (Statement.mk · line)
        called := (calledBy command).foldl (fun called name => called.insert name) d.called } := by
  unfold addCommand at h
  split at h
  · cases h
  · next commands hcommands => exact ⟨commands, hcommands, (Except.ok.inj h).symm⟩

variable {d d' : Draft} {seed : LabelTable} {text data : List Content}

/-- A line of the text segment binds its label, if it has one, where its statements begin. -/
theorem Reads.addText (hd : d.Reads seed text data) {source : String} {c : Content}
    (hseg : d.segment = .text) (h : d.addContent c.number source c.label c.tokens = .ok d') :
    d'.Reads seed (text ++ [c]) data ∧ d'.segment = d.segment := by
  have haddress : d.address = 4 * (0 + (text.map Content.emitted).sum) := by
    rw [address, ← Array.length_toList, hd.statements,
      Source.length_flatMap_statements hd.expands, Nat.zero_add]
  unfold addContent at h
  split at h
  · next hdata => exact absurd (hseg.symm.trans hdata) (by decide)
  -- The label comes first, and only touches the labels.
  have hlabelled : ∃ labels, labels.entries =
        (Source.labelsFrom 0 (text ++ [c])).reverse ++ seed.entries ∧
      addCommand { d with
        labels := labels
        textLabels := ((Source.labelsFrom 0 (text ++ [c])).map (·.1)).reverse }
        c.number c.command = .ok d' := by
    rw [Source.labelsFrom_append, Source.labelsFrom, Source.labelsFrom, ← haddress]
    split at h
    · next name hname =>
      obtain ⟨d₁, hlabel, hcommand⟩ := bind_eq_ok.1 h
      obtain ⟨labels, hlabels, rfl⟩ := addLabel_eq_ok hlabel
      refine ⟨labels, by simp [hname, hlabels, hd.labels], ?_⟩
      simpa [hname, hd.textLabels, Content.command] using hcommand
    · next hname =>
      obtain ⟨d₁, hsame, hcommand⟩ := bind_eq_ok.1 h
      obtain rfl := Except.ok.inj hsame
      refine ⟨d.labels, by simp [hname, hd.labels], ?_⟩
      simpa [hname, ← hd.textLabels, Content.command] using hcommand
  obtain ⟨labels, hlabels, hcommand⟩ := hlabelled
  obtain ⟨commands, hcommands, rfl⟩ := addCommand_eq_ok hcommand
  refine ⟨⟨?_, ?_, hlabels, rfl, ?_, hd.declares⟩, rfl⟩
  · intro c' hc'
    rcases List.mem_append.1 hc' with hc' | hc'
    · exact hd.expands c' hc'
    · obtain rfl := List.mem_singleton.1 hc'
      exact ⟨commands, hcommands⟩
  · simp [hd.statements, Content.statements_of_expand hcommands]
  · intro name
    rw [mem_foldl_insert, hd.called]
    simp [or_and_right, exists_or, Content.command]

/-- A line of the data segment adds what it declares. -/
theorem Reads.addData (hd : d.Reads seed text data) {source : String} {c : Content}
    (hseg : d.segment = .data) (h : d.addContent c.number source c.label c.tokens = .ok d') :
    d'.Reads seed text (data ++ [c]) ∧ d'.segment = d.segment := by
  unfold addContent at h
  split at h
  case h_2 htext => exact absurd (hseg.symm.trans htext) (by decide)
  split at h
  · next l hl =>
    obtain rfl := Except.ok.inj h
    obtain ⟨declaration, hdeclaration, hvars, hlabels, hsize⟩ := DataDraft.addDeclaration_eq_ok hl
    obtain ⟨ds, hds, hvars₀, hlabels₀, hsize₀⟩ := hd.declares
    refine ⟨⟨hd.expands, hd.statements, hd.labels, hd.textLabels, hd.called,
      ds ++ [declaration], ?_, ?_, ?_, ?_⟩, rfl⟩
    · simp [hds, hdeclaration]
    · simp [hvars, hvars₀, hsize₀, Source.variablesFrom_append, Source.variablesFrom]
    · simp [hlabels, hlabels₀, hsize₀, Source.dataLabelsFrom_append, Source.dataLabelsFrom]
    · simp [hsize, hsize₀, Source.stopFrom_append, Source.stopFrom]
  · cases h

theorem reads_new (seed : LabelTable) : (new seed).Reads seed [] [] where
  expands := by simp
  statements := rfl
  labels := rfl
  textLabels := rfl
  called := by simp [new]
  declares := ⟨[], rfl, rfl, rfl, rfl⟩

/-- What the lines from here on add is what a reading from here on finds. -/
theorem Reads.addLines (hd : d.Reads seed text data) {number : Nat} {lines : List String}
    (h : d.addLines number lines = .ok d') :
    d'.Reads seed
      (text ++ (Source.contentsFrom d.segment number lines).filter (·.segment = .text))
      (data ++ (Source.contentsFrom d.segment number lines).filter (·.segment = .data)) := by
  induction lines generalizing d number text data with
  | nil =>
    obtain rfl : d = d' := Except.ok.inj h
    simpa using hd
  | cons source rest ih =>
    obtain ⟨d₁, hline, hrest⟩ := bind_eq_ok.1 h
    unfold addLine at hline
    rw [Source.contentsFrom_cons]
    cases hparse : Line.parse source with
    | error cause =>
      rw [hparse] at hline
      cases hline
    | ok parsed =>
      rw [hparse] at hline
      cases parsed with
      | blank =>
        obtain rfl : d = d₁ := Except.ok.inj hline
        exact ih hd hrest
      | segment s =>
        -- Only where the next lines go changes, so everything read so far still stands.
        obtain rfl := Except.ok.inj hline
        have hd₁ : ({ d with segment := s } : Draft).Reads seed text data :=
          ⟨hd.expands, hd.statements, hd.labels, hd.textLabels, hd.called, hd.declares⟩
        exact ih hd₁ hrest
      | content label tokens =>
        cases hseg : d.segment with
        | text =>
          obtain ⟨hd₁, hseg₁⟩ := hd.addText (c := ⟨number, .text, label, tokens⟩) hseg hline
          have hreads := ih hd₁ hrest
          rw [hseg₁, hseg] at hreads
          simpa using hreads
        | data =>
          obtain ⟨hd₁, hseg₁⟩ := hd.addData (c := ⟨number, .data, label, tokens⟩) hseg hline
          have hreads := ih hd₁ hrest
          rw [hseg₁, hseg] at hreads
          simpa using hreads

/-- A source that is read is a draft of what it says. -/
theorem reads_addLines {lines : List String} (h : (new seed).addLines 0 lines = .ok d) :
    d.Reads seed (Source.text lines) (Source.data lines) := by
  have hreads := (reads_new seed).addLines h
  rw [List.nil_append, List.nil_append] at hreads
  exact hreads

/-- Labels of data are bound one after the other, counted from where data begins. -/
theorem foldlM_bindLabel_eq_ok {start : Nat} {ls : List DataLabel} {labels labels' : LabelTable}
    (h : ls.foldlM (fun labels l => bindLabel labels l.line l.name (start + l.offset)) labels =
      .ok labels') :
    labels'.entries = (ls.map fun l => (l.name, start + l.offset)).reverse ++ labels.entries := by
  induction ls generalizing labels with
  | nil =>
    obtain rfl := Except.ok.inj h
    rfl
  | cons l rest ih =>
    rw [List.foldlM_cons] at h
    obtain ⟨labels₁, hbind, hrest⟩ := bind_eq_ok.1 h
    rw [ih hrest, bindLabel_eq_ok hbind]
    simp

/-- Labels of data are bound behind the statements. -/
theorem allLabels_eq_ok {labels : LabelTable} (h : d.allLabels = .ok labels) :
    labels.entries =
      (d.data.labels.toList.map fun l => (l.name, d.address + l.offset)).reverse ++
        d.labels.entries :=
  foldlM_bindLabel_eq_ok h

/-- Functions can begin at the labels of text that are called. -/
theorem Reads.mem_entries_iff (hd : d.Reads seed text data) {address : Nat} :
    address ∈ d.entries ↔
      ∃ name, (name, address) ∈ Source.labelsFrom 0 text ∧ name ∈ d.called := by
  have hbound : ∀ {name address}, (name, address) ∈ Source.labelsFrom 0 text →
      d.labels.address? name = some address := by
    intro name address hmem
    rw [LabelTable.address?_eq_some_iff, hd.labels]
    exact List.mem_append_left _ (List.mem_reverse.2 hmem)
  simp only [entries, List.mem_filterMap, List.mem_filter, hd.textLabels, List.mem_reverse,
    List.mem_map, List.contains_iff_mem]
  constructor
  · rintro ⟨name, ⟨⟨⟨name', address'⟩, hmem, rfl⟩, hcalled⟩, haddress⟩
    obtain rfl : address' = address := Option.some.inj ((hbound hmem).symm.trans haddress)
    exact ⟨name', hmem, hcalled⟩
  · rintro ⟨name, hmem, hcalled⟩
    exact ⟨name, ⟨⟨(name, address), hmem, rfl⟩, hcalled⟩, hbound hmem⟩

end Draft

/-! ## Assembled sources -/

namespace Source

/-- A label of the text segment that some statement calls stands at the address. -/
def IsCalled (lines : List String) (address : Nat) : Prop :=
  ∃ name, (name, address) ∈ textLabels lines ∧
    ∃ s ∈ statements lines, s.mnemonic = "call" ∧ s.operands.head? = some name

end Source

end Assembly

open Assembly

/-- What a program is in terms of the source that it was assembled from. -/
structure Program.Assembles (p : Program) (lines : List String) (seed : LabelTable) : Prop where
  expands : ∀ c ∈ Source.text lines, ∃ commands, c.command.expand = .ok commands
  written : p.Written p.symbols (Source.statements lines)
  symbols : p.symbols.entries =
    (Source.dataLabels p.textEnd lines).reverse ++ (Source.textLabels lines).reverse ++ seed.entries
  declares : (Source.data lines).map Content.declaration? = (Source.declarations lines).map some
  data : p.data = ⟨p.textEnd, (Source.variablesFrom 0 (Source.declarations lines)).map
    fun v => { v with address := p.textEnd + v.address }⟩
  functions : ∃ entries, (∀ address, address ∈ entries ↔ Source.IsCalled lines address) ∧
    p.functions = functionsFrom entries 0 none .empty (Source.statements lines)

namespace Assembly.Draft.Reads

variable {d : Draft} {lines : List String} {seed : LabelTable}

/-- The data of a draft of a source is what the source declares. -/
theorem declared (hd : d.Reads seed (Source.text lines) (Source.data lines)) :
    (Source.data lines).map Content.declaration? = (Source.declarations lines).map some ∧
      d.data.vars.toList = Source.variablesFrom 0 (Source.declarations lines) ∧
      d.data.labels.toList = Source.dataLabelsFrom 0 (Source.declarations lines) := by
  obtain ⟨ds, hds, hvars, hlabels, -⟩ := hd.declares
  have hdeclarations : Source.declarations lines = ds := by
    have hmap := congrArg (List.filterMap id) hds
    simpa [Source.declarations, List.filterMap_map, Function.comp_def] using hmap
  rw [hdeclarations]
  exact ⟨hds, hvars, hlabels⟩

/-- The draft knows which names each line calls, and what is called is a matter of statements. -/
theorem mem_entries_iff_isCalled (hd : d.Reads seed (Source.text lines) (Source.data lines))
    (address : Nat) : address ∈ d.entries ↔ Source.IsCalled lines address := by
  rw [hd.mem_entries_iff]
  constructor
  · rintro ⟨name, hmem, hcalled⟩
    obtain ⟨c, hc, hcalls⟩ := (hd.called name).1 hcalled
    obtain ⟨commands, hcommands⟩ := hd.expands c hc
    obtain ⟨s, hs, hcall⟩ := (Content.mem_calledBy_iff hcommands).1 hcalls
    exact ⟨name, hmem, s, List.mem_flatMap.2 ⟨c, hc, hs⟩, hcall⟩
  · rintro ⟨name, hmem, s, hs, hcall⟩
    obtain ⟨c, hc, hs⟩ := List.mem_flatMap.1 hs
    obtain ⟨commands, hcommands⟩ := hd.expands c hc
    refine ⟨name, hmem, (hd.called name).2 ⟨c, hc, ?_⟩⟩
    exact (Content.mem_calledBy_iff hcommands).2 ⟨s, hs, hcall⟩

end Assembly.Draft.Reads

/-- A source that is accepted becomes the program that it says. -/
theorem Program.assembles_ofLines {lines : List String} {seed : LabelTable} {p : Program}
    (h : ofLines lines seed = .ok p) : p.Assembles lines seed := by
  obtain ⟨draft, hdraft, h⟩ := bind_eq_ok.1 h
  obtain ⟨hlabels, hwritten, hdata, hfunctions⟩ := toProgram_eq_ok h
  have hreads := Draft.reads_addLines hdraft
  obtain ⟨hdeclares, hvars, hdataLabels⟩ := hreads.declared
  have htextEnd : draft.address = p.textEnd := by
    rw [Draft.address, textEnd, hwritten.length, Array.length_toList]
  have hstatements : draft.statements.toList = Source.statements lines := hreads.statements
  rw [hstatements] at hwritten hfunctions
  refine ⟨hreads.expands, hwritten, ?_, hdeclares, ?_,
    ⟨draft.entries, hreads.mem_entries_iff_isCalled, hfunctions⟩⟩
  · rw [Draft.allLabels_eq_ok hlabels, hreads.labels, hdataLabels, htextEnd, Source.dataLabels,
      Source.textLabels, List.append_assoc]
  · rw [hdata, DataDraft.area, hvars, htextEnd]

end Risc32
