import Risc32.Proofs.Assembly.Accepted
import Risc32.Proofs.Assembly.StaticData

/-!
# Which lines are rejected

Reading stops at the first line that cannot be taken in. This file says which line that is, and for
which error, in terms of the source alone (`Source.Rejects`). A line can be malformed, whatever
stands around it (`Malformed`). Or what it says has no place in its segment: a declaration is bad
(`BadDeclaration`), a label is bound in front of it, or a pseudo-instruction has the wrong number of
operands.

Whether a line is rejected depends on the lines before it through their segment and their labels,
and both of these are found in a draft of the lines before. This is the step
(`Draft.Reads.addLine_eq_error_iff`), and going through the lines it says how far reading gets
(`Source.exists_addLines_take`).
-/

set_option autoImplicit false

namespace Risc32

namespace Assembly

/-! ## Malformed lines -/

/-- What makes a line unfit for either segment. -/
inductive Malformed (source : String) : Cause → Prop where
  | unreadable (refused : tokens? source = none) : Malformed source .unreadable
  | label {token : String} {rest : List String} (read : tokens? source = some (token :: rest))
      (colon : endsInColon token) (unnamed : labelName? token = none) :
      Malformed source (.invalidLabel token)
  | labelledSegment {token name directive : String} {rest : List String} {s : Segment}
      (read : tokens? source = some (token :: directive :: rest))
      (labelled : labelName? token = some name) (names : Segment.ofDirective? directive = some s) :
      Malformed source .segmentNotAlone
  | segmentWithMore {directive token : String} {rest : List String} {s : Segment}
      (read : tokens? source = some (directive :: token :: rest))
      (names : Segment.ofDirective? directive = some s) : Malformed source .segmentNotAlone

theorem endsInColon_of_labelName? {token name : String} (h : labelName? token = some name) :
    endsInColon token := by
  rw [labelName?] at h
  split at h
  · next hcolon => exact (Bool.and_eq_true_iff.1 hcolon).1
  · cases h

/-- The name of a segment is no label. -/
theorem Segment.not_endsInColon_of_directive {token : String} {s : Segment}
    (h : ofDirective? token = some s) : ¬endsInColon token := by
  intro hcolon
  have hlast : (Text.lower token).toList.getLast? = some ':' := by
    rw [endsInColon, beq_iff_eq] at hcolon
    rw [Text.lower, String.toList_ofList, List.getLast?_map, hcolon]
    rfl
  rw [ofDirective?] at h
  split at h
  · next heq =>
    rw [heq] at hlast
    exact absurd hlast (by decide)
  · next heq =>
    rw [heq] at hlast
    exact absurd hlast (by decide)
  · cases h

theorem Line.ofLabelAndTokens_eq_error_iff {label : Option String} {tokens : List String}
    {cause : Cause} :
    Line.ofLabelAndTokens label tokens = .error cause ↔
      cause = .segmentNotAlone ∧ ∃ directive rest s, tokens = directive :: rest ∧
        Segment.ofDirective? directive = some s ∧ (label.isSome ∨ rest ≠ []) := by
  cases tokens with
  | nil => simp [ofLabelAndTokens]
  | cons directive rest =>
    simp only [ofLabelAndTokens, List.head?_cons, Option.bind_some]
    have halone : (label.isSome || (directive :: rest).length > 1) = true ↔
        label.isSome ∨ rest ≠ [] := by
      cases rest <;> simp
    cases hs : Segment.ofDirective? directive with
    | none =>
      constructor
      · rintro ⟨⟩
      · rintro ⟨-, directive', rest', s, heq, hs', -⟩
        obtain ⟨rfl, rfl⟩ := List.cons.inj heq
        cases hs.symm.trans hs'
    | some s =>
      simp only [halone]
      constructor
      · intro h
        split at h
        · next hmore =>
          cases h
          exact ⟨rfl, directive, rest, s, rfl, hs, hmore⟩
        · cases h
      · rintro ⟨rfl, directive', rest', s', heq, -, hmore⟩
        obtain ⟨rfl, rfl⟩ := List.cons.inj heq
        exact if_pos hmore

/-- A line that is read as nothing is malformed. -/
theorem Line.parse_eq_error_iff {source : String} {cause : Cause} :
    Line.parse source = .error cause ↔ Malformed source cause := by
  constructor
  · intro h
    rw [Line.parse] at h
    cases hread : tokens? source with
    | none =>
      rw [hread] at h
      cases h
      exact .unreadable hread
    | some tokens =>
      rw [hread] at h
      dsimp only at h
      unfold Line.ofTokens at h
      split at h
      · cases h
      · next token rest =>
        split at h
        · next hcolon =>
          split at h
          · next name hname =>
            obtain ⟨rfl, directive, rest, s, rfl, hs, -⟩ := ofLabelAndTokens_eq_error_iff.1 h
            exact .labelledSegment hread hname hs
          · next hnone =>
            cases h
            exact .label hread hcolon hnone
        · obtain ⟨rfl, directive, more, s, heq, hs, hmore⟩ := ofLabelAndTokens_eq_error_iff.1 h
          obtain ⟨rfl, rfl⟩ := List.cons.inj heq
          obtain ⟨second, rest, rfl⟩ :=
            List.exists_cons_of_ne_nil (hmore.resolve_left Bool.false_ne_true)
          exact .segmentWithMore hread hs
  · intro h
    rw [Line.parse]
    cases h with
    | unreadable refused => rw [refused]
    | label read colon unnamed => simp only [read, Line.ofTokens, if_pos colon, unnamed]
    | labelledSegment read labelled names =>
      simp only [read, Line.ofTokens, if_pos (endsInColon_of_labelName? labelled), labelled]
      exact ofLabelAndTokens_eq_error_iff.2 ⟨rfl, _, _, _, rfl, names, .inl rfl⟩
    | segmentWithMore read names =>
      simp only [read, Line.ofTokens, if_neg (Segment.not_endsInColon_of_directive names)]
      exact ofLabelAndTokens_eq_error_iff.2
        ⟨rfl, _, _, _, rfl, names, .inr (List.cons_ne_nil _ _)⟩

/-! ## Bad declarations -/

/-- The text is a value that the kind has room for. -/
def IsValue (kind : VariableKind) (text : String) : Prop :=
  ∃ value, integer? text = some value ∧ kind.InRange value

/-- What is wrong with a declaration. Of several bad values it is the first. -/
inductive BadDeclaration : List String → Cause → Prop where
  | missing : BadDeclaration [] .missingDataDirective
  | directive {directive : String} {texts : List String}
      (unknown : VariableKind.ofDirective? (Text.lower directive) = none) :
      BadDeclaration (directive :: texts) (.unknownDataDirective (Text.lower directive))
  | valueless {directive : String} {kind : VariableKind}
      (known : VariableKind.ofDirective? (Text.lower directive) = some kind) :
      BadDeclaration [directive] (.noDataValue directive)
  | value {directive text : String} {before after : List String} {kind : VariableKind}
      (known : VariableKind.ofDirective? (Text.lower directive) = some kind)
      (values : ∀ text ∈ before, IsValue kind text) (bad : ¬IsValue kind text) :
      BadDeclaration (directive :: (before ++ text :: after)) (.invalidDataValue directive text)

theorem isValue_iff {kind : VariableKind} {text : String} :
    IsValue kind text ↔ ∃ value, literal? kind text = some value :=
  exists_congr fun _ => literal?_eq_some_iff.symm

namespace DataDraft

theorem pushValues_cons (l : DataDraft) (kind : VariableKind) (directive text : String)
    (texts : List String) :
    l.pushValues kind directive (text :: texts) =
      match literal? kind text with
      | some value => (l.push kind (BitVec.ofInt 32 value)).pushValues kind directive texts
      | none => .error (.invalidDataValue directive text) := by
  rw [pushValues, List.foldlM_cons, literal?]
  cases (integer? text).filter kind.admits <;> rfl

theorem pushValues_eq_error_iff {l : DataDraft} {kind : VariableKind} {directive : String}
    {texts : List String} {cause : Cause} :
    l.pushValues kind directive texts = .error cause ↔
      ∃ before text after, texts = before ++ text :: after ∧
        (∀ text ∈ before, IsValue kind text) ∧ ¬IsValue kind text ∧
        cause = .invalidDataValue directive text := by
  induction texts generalizing l with
  | nil => simp [pushValues, pure, Except.pure]
  | cons first rest ih =>
    rw [pushValues_cons]
    cases hfirst : literal? kind first with
    | none =>
      have hbad : ¬IsValue kind first := by simp [isValue_iff, hfirst]
      constructor
      · rintro ⟨⟩
        exact ⟨[], first, rest, rfl, by simp, hbad, rfl⟩
      · rintro ⟨before, text, after, heq, hvalues, -, rfl⟩
        cases before with
        | nil =>
          obtain ⟨rfl, -⟩ := List.cons.inj heq
          rfl
        | cons text' before =>
          obtain ⟨rfl, -⟩ := List.cons.inj heq
          exact absurd (hvalues first List.mem_cons_self) hbad
    | some value =>
      have hvalue : IsValue kind first := isValue_iff.2 ⟨value, hfirst⟩
      dsimp only
      rw [ih]
      constructor
      · rintro ⟨before, text, after, rfl, hvalues, hbad⟩
        exact ⟨first :: before, text, after, rfl, List.forall_mem_cons.2 ⟨hvalue, hvalues⟩, hbad⟩
      · rintro ⟨before, text, after, heq, hvalues, hbad⟩
        cases before with
        | nil =>
          obtain ⟨rfl, -⟩ := List.cons.inj heq
          exact absurd hvalue hbad.1
        | cons text' before =>
          obtain ⟨rfl, rfl⟩ := List.cons.inj heq
          exact ⟨before, text, after, rfl, (List.forall_mem_cons.1 hvalues).2, hbad⟩

/-- A declaration is refused if it is bad, whatever was declared before. -/
theorem addDeclaration_eq_error_iff {l : DataDraft} {line : Nat} {label : Option String}
    {tokens : List String} {cause : Cause} :
    l.addDeclaration line label tokens = .error cause ↔ BadDeclaration tokens cause := by
  constructor
  · intro h
    unfold addDeclaration at h
    split at h
    · cases h
      exact .missing
    · next directive texts =>
      split at h
      · next hunknown =>
        cases h
        exact .directive hunknown
      · next kind hknown =>
        split at h
        · next hempty =>
          cases h
          rw [List.isEmpty_iff.1 hempty]
          exact .valueless hknown
        · obtain ⟨before, text, after, rfl, hvalues, hbad, rfl⟩ := pushValues_eq_error_iff.1 h
          exact .value hknown hvalues hbad
  · intro h
    cases h with
    | missing => rfl
    | directive unknown => simp only [addDeclaration, unknown]
    | valueless known => simp only [addDeclaration, known, List.isEmpty_nil, if_true]
    | @value directive text before after kind known values bad =>
      have hsome : ¬(before ++ text :: after).isEmpty := by simp
      simp only [addDeclaration, known, if_neg hsome]
      exact pushValues_eq_error_iff.2 ⟨before, text, after, rfl, values, bad, rfl⟩

end DataDraft

/-! ## Lines with content -/

theorem Pseudo.expand_eq_error_iff {p : Pseudo} {operands : List String} {cause : Cause} :
    p.expand operands = .error cause ↔
      operands.length ≠ p.arity ∧ cause = .operandCount p.arity operands.length := by
  -- No pseudo-instruction has more than three operands.
  rcases operands with _ | ⟨a, _ | ⟨b, _ | ⟨c, _ | ⟨d, rest⟩⟩⟩⟩ <;>
    cases p <;> simp [expand, arity, eq_comm]

/-- The content is rejected in its segment, where names that have the property are bound. -/
inductive Content.Rejected (c : Content) (source : String) (bound : String → Prop) :
    Error → Prop where
  | declaration {cause : Cause} (segment : c.segment = .data)
      (bad : BadDeclaration c.tokens cause) :
      c.Rejected source bound ⟨c.number, Text.trim source, cause⟩
  | label {name : String} (segment : c.segment = .text) (labelled : c.label = some name)
      (isBound : bound name) :
      c.Rejected source bound ⟨c.number, name ++ ":", .duplicateLabel name⟩
  | operands {p : Pseudo} (segment : c.segment = .text) (free : ∀ name ∈ c.label, ¬bound name)
      (named : Pseudo.ofName? c.command.mnemonic = some p)
      (count : c.command.operands.length ≠ p.arity) :
      c.Rejected source bound
        ⟨c.number, c.command.mnemonic, .operandCount p.arity c.command.operands.length⟩

namespace Draft

variable {d d' : Draft} {c : Content} {source : String} {e : Error}

theorem bindLabel_eq_error_iff {labels : LabelTable} {line address : Nat} {name : String} :
    bindLabel labels line name address = .error e ↔
      name ∈ labels.entries.map (·.1) ∧ e = ⟨line, name ++ ":", .duplicateLabel name⟩ := by
  have hrefused : labels.insert? name address = none ↔ name ∈ labels.entries.map (·.1) :=
    LabelTable.insert?_eq_none_iff_mem
  rw [← hrefused, bindLabel]
  cases labels.insert? name address with
  | none => simp [eq_comm]
  | some labels' => simp

theorem addLabel_eq_error_iff {line : Nat} {name : String} :
    d.addLabel line name = .error e ↔
      name ∈ d.labels.entries.map (·.1) ∧ e = ⟨line, name ++ ":", .duplicateLabel name⟩ := by
  rw [addLabel, bind_eq_error, bindLabel_eq_error_iff]
  refine or_iff_left ?_
  rintro ⟨labels, -, h⟩
  cases h

theorem addCommand_eq_error_iff {line : Nat} {command : Command} :
    d.addCommand line command = .error e ↔ ∃ p, Pseudo.ofName? command.mnemonic = some p ∧
      command.operands.length ≠ p.arity ∧
      e = ⟨line, command.mnemonic, .operandCount p.arity command.operands.length⟩ := by
  have hexpand : d.addCommand line command = .error e ↔
      ∃ cause, command.expand = .error cause ∧ e = ⟨line, command.mnemonic, cause⟩ := by
    rw [addCommand]
    cases command.expand <;> simp [eq_comm]
  rw [hexpand, Command.expand]
  cases Pseudo.ofName? command.mnemonic with
  | none => simp
  | some p =>
    simp only [Pseudo.expand_eq_error_iff, Option.some.injEq, exists_eq_left']
    constructor
    · rintro ⟨cause, ⟨hcount, rfl⟩, rfl⟩
      exact ⟨hcount, rfl⟩
    · rintro ⟨hcount, rfl⟩
      exact ⟨_, ⟨hcount, rfl⟩, rfl⟩

/-- A line that says something is refused if it is rejected where the draft has its labels. -/
theorem addContent_eq_error_iff (hseg : d.segment = c.segment) :
    d.addContent c.number source c.label c.tokens = .error e ↔
      c.Rejected source (· ∈ d.labels.entries.map (·.1)) e := by
  rw [addContent, hseg]
  cases hsegment : c.segment with
  | data =>
    constructor
    · intro h
      dsimp only at h
      split at h
      · cases h
      · next cause hbad =>
        cases h
        exact .declaration hsegment (DataDraft.addDeclaration_eq_error_iff.1 hbad)
    · intro h
      cases h with
      | declaration _ bad => simp only [DataDraft.addDeclaration_eq_error_iff.2 bad]
      | label segment => cases hsegment.symm.trans segment
      | operands segment => cases hsegment.symm.trans segment
  | text =>
    dsimp only
    cases hlabel : c.label with
    | none =>
      rw [pure_bind, addCommand_eq_error_iff]
      constructor
      · rintro ⟨p, named, count, rfl⟩
        exact .operands hsegment (by simp [hlabel]) named count
      · intro h
        cases h with
        | declaration segment => cases hsegment.symm.trans segment
        | label _ labelled => cases hlabel.symm.trans labelled
        | operands _ _ named count => exact ⟨_, named, count, rfl⟩
    | some name =>
      rw [bind_eq_error, addLabel_eq_error_iff]
      constructor
      · rintro (⟨hmem, rfl⟩ | ⟨d₁, hd₁, hcommand⟩)
        · exact .label hsegment hlabel hmem
        · obtain ⟨p, named, count, rfl⟩ := addCommand_eq_error_iff.1 hcommand
          refine .operands hsegment ?_ named count
          intro name' hname' hmem
          obtain rfl := Option.some.inj (hlabel.symm.trans hname')
          cases hd₁.symm.trans (addLabel_eq_error_iff.2 ⟨hmem, rfl⟩)
      · intro h
        cases h with
        | declaration segment => cases hsegment.symm.trans segment
        | label _ labelled hmem =>
          obtain rfl := Option.some.inj (hlabel.symm.trans labelled)
          exact .inl ⟨hmem, rfl⟩
        | operands _ free named count =>
          refine .inr ?_
          cases hbind : d.addLabel c.number name with
          | error e => exact absurd (addLabel_eq_error_iff.1 hbind).1 (free name hlabel)
          | ok d₁ => exact ⟨d₁, rfl, addCommand_eq_error_iff.2 ⟨_, named, count, rfl⟩⟩

theorem segment_addContent {number : Nat} {label : Option String} {tokens : List String}
    (h : d.addContent number source label tokens = .ok d') : d'.segment = d.segment := by
  unfold addContent at h
  split at h
  · split at h
    · cases h
      rfl
    · cases h
  · have hcommand : ∀ {d₀ : Draft}, d₀.addCommand number (commandOf tokens) = .ok d' →
        d'.segment = d₀.segment := by
      intro d₀ h
      obtain ⟨commands, -, rfl⟩ := addCommand_eq_ok h
      rfl
    split at h
    · obtain ⟨d₁, hlabel, h⟩ := bind_eq_ok.1 h
      obtain ⟨labels, -, rfl⟩ := addLabel_eq_ok hlabel
      have hsame := hcommand h
      exact hsame
    · exact hcommand h

/-- The draft is in the segment that the lines lead to. -/
theorem segment_addLines {number : Nat} {lines : List String}
    (h : d.addLines number lines = .ok d') :
    d'.segment = Source.segmentAfter d.segment lines := by
  induction lines generalizing d number with
  | nil =>
    obtain rfl : d = d' := Except.ok.inj h
    rfl
  | cons source rest ih =>
    obtain ⟨d₁, hline, hrest⟩ := bind_eq_ok.1 h
    rw [ih hrest, Source.segmentAfter_cons]
    unfold addLine at hline
    cases hparse : Line.parse source with
    | error cause =>
      rw [hparse] at hline
      cases hline
    | ok parsed =>
      rw [hparse] at hline
      cases parsed with
      | blank =>
        cases hline
        rfl
      | segment s =>
        cases hline
        rfl
      | content label tokens => rw [segment_addContent hline]

end Draft

/-! ## Contents of lines -/

namespace Source

variable {lines : List String} {c : Content}

theorem mem_contentsFrom_iff {segment : Segment} {number : Nat} :
    c ∈ contentsFrom segment number lines ↔ ∃ i source, lines[i]? = some source ∧
      c.number = number + i ∧ Line.parse source = .ok (.content c.label c.tokens) ∧
      c.segment = segmentAfter segment (lines.take i) := by
  induction lines generalizing segment number with
  | nil => simp
  | cons first rest ih =>
    -- The first line has its own number, and the others are those of the rest.
    have hsplit : (∃ i source, (first :: rest)[i]? = some source ∧ c.number = number + i ∧
        Line.parse source = .ok (.content c.label c.tokens) ∧
        c.segment = segmentAfter segment ((first :: rest).take i)) ↔
        (c.number = number ∧ Line.parse first = .ok (.content c.label c.tokens) ∧
          c.segment = segment) ∨
        ∃ i source, rest[i]? = some source ∧ c.number = number + 1 + i ∧
          Line.parse source = .ok (.content c.label c.tokens) ∧
          c.segment = segmentAfter segment (first :: rest.take i) := by
      constructor
      · rintro ⟨_ | i, source, hsource, hnumber, hparse, hsegment⟩
        · obtain rfl := Option.some.inj hsource
          exact .inl ⟨hnumber, hparse, hsegment⟩
        · refine .inr ⟨i, source, hsource, ?_, hparse, hsegment⟩
          rw [hnumber, Nat.add_assoc, Nat.add_comm 1]
      · rintro (⟨hnumber, hparse, hsegment⟩ | ⟨i, source, hsource, hnumber, hparse, hsegment⟩)
        · exact ⟨0, first, rfl, hnumber, hparse, hsegment⟩
        · refine ⟨i + 1, source, hsource, ?_, hparse, hsegment⟩
          rw [hnumber, Nat.add_assoc, Nat.add_comm 1]
    rw [hsplit, contentsFrom_cons]
    simp only [segmentAfter_cons]
    cases hparse : Line.parse first with
    | error cause => simp [ih]
    | ok parsed =>
      cases parsed with
      | blank => simp [ih]
      | segment s => simp [ih]
      | content label tokens =>
        have hfirst : c = ⟨number, segment, label, tokens⟩ ↔ c.number = number ∧
            Except.ok (Line.content label tokens) =
              (.ok (.content c.label c.tokens) : Except Cause Line) ∧ c.segment = segment := by
          obtain ⟨number', segment', label', tokens'⟩ := c
          constructor
          · rintro ⟨⟩
            exact ⟨rfl, rfl, rfl⟩
          · rintro ⟨rfl, h, rfl⟩
            cases h
            rfl
        rw [List.mem_cons, hfirst, ih]

/-- What is on a line, and the segment that it is read in. -/
theorem mem_contents_iff :
    c ∈ contents lines ↔ ∃ source, lines[c.number]? = some source ∧
      Line.parse source = .ok (.content c.label c.tokens) ∧
      c.segment = segmentAfter .text (lines.take c.number) := by
  rw [contents, mem_contentsFrom_iff]
  constructor
  · rintro ⟨i, source, hsource, hnumber, h⟩
    rw [Nat.zero_add] at hnumber
    rw [hnumber]
    exact ⟨source, hsource, h⟩
  · rintro ⟨source, hsource, h⟩
    exact ⟨c.number, source, hsource, (Nat.zero_add _).symm, h⟩

theorem mem_text_iff : c ∈ text lines ↔ c ∈ contents lines ∧ c.segment = .text := by
  rw [text, List.mem_filter, decide_eq_true_iff]

/-- What the first lines say, they say by themselves. -/
theorem mem_contents_take_iff {k : Nat} :
    c ∈ contents (lines.take k) ↔ c ∈ contents lines ∧ c.number < k := by
  rw [mem_contents_iff, mem_contents_iff]
  constructor
  · rintro ⟨source, hsource, hparse, hsegment⟩
    rw [List.getElem?_take] at hsource
    split at hsource
    · next hlt =>
      rw [List.take_take, Nat.min_eq_left (Nat.le_of_lt hlt)] at hsegment
      exact ⟨⟨source, hsource, hparse, hsegment⟩, hlt⟩
    · cases hsource
  · rintro ⟨⟨source, hsource, hparse, hsegment⟩, hlt⟩
    refine ⟨source, ?_, hparse, ?_⟩
    · rw [List.getElem?_take, if_pos hlt, hsource]
    · rw [List.take_take, Nat.min_eq_left (Nat.le_of_lt hlt), hsegment]

/-! ## Rejected lines -/

/-- The seed, or a line of the text segment in front of the one with the number, binds the name. -/
def BoundBefore (lines : List String) (seed : LabelTable) (k : Nat) (name : String) : Prop :=
  name ∈ seed.entries.map (·.1) ∨ ∃ c ∈ text lines, c.number < k ∧ c.label = some name

/-- The line with the number is rejected for the error, by itself or for what it says. -/
inductive Rejects (lines : List String) (seed : LabelTable) (k : Nat) : Error → Prop where
  | malformed {source : String} {cause : Cause} (here : lines[k]? = some source)
      (malformed : Malformed source cause) : Rejects lines seed k ⟨k, Text.trim source, cause⟩
  | content {source : String} {c : Content} {e : Error} (here : lines[k]? = some source)
      (mem : c ∈ contents lines) (number : c.number = k)
      (rejected : c.Rejected source (BoundBefore lines seed k) e) : Rejects lines seed k e

/-- What a line is rejected for, if it is known how it is read. -/
theorem rejects_iff {seed : LabelTable} {k : Nat} {source : String} {e : Error}
    (here : lines[k]? = some source) :
    Rejects lines seed k e ↔
      (∃ cause, Line.parse source = .error cause ∧ e = ⟨k, Text.trim source, cause⟩) ∨
        ∃ label tokens, Line.parse source = .ok (.content label tokens) ∧
          Content.Rejected ⟨k, segmentAfter .text (lines.take k), label, tokens⟩ source
            (BoundBefore lines seed k) e := by
  constructor
  · intro h
    cases h with
    | malformed here' malformed =>
      obtain rfl := Option.some.inj (here.symm.trans here')
      exact .inl ⟨_, Line.parse_eq_error_iff.2 malformed, rfl⟩
    | content here' mem number rejected =>
      subst number
      obtain rfl := Option.some.inj (here.symm.trans here')
      obtain ⟨source', hsource, hparse, hsegment⟩ := mem_contents_iff.1 mem
      obtain rfl := Option.some.inj (here.symm.trans hsource)
      exact .inr ⟨_, _, hparse, hsegment ▸ rejected⟩
  · rintro (⟨cause, hparse, rfl⟩ | ⟨label, tokens, hparse, hrejected⟩)
    · exact .malformed here (Line.parse_eq_error_iff.1 hparse)
    · exact .content here (mem_contents_iff.2 ⟨source, here, hparse, rfl⟩) rfl hrejected

theorem Rejects.line {seed : LabelTable} {k : Nat} {e : Error} (h : Rejects lines seed k e) :
    e.line = k := by
  cases h with
  | malformed => rfl
  | content here mem number rejected => cases rejected <;> exact number

end Source

namespace Draft

variable {d : Draft} {seed : LabelTable} {lines : List String} {k : Nat} {source : String}
  {e : Error}

theorem Reads.mem_map_fst_labels_iff {text data : List Content} (hd : d.Reads seed text data)
    (name : String) :
    name ∈ d.labels.entries.map (·.1) ↔
      name ∈ seed.entries.map (·.1) ∨ ∃ c ∈ text, c.label = some name := by
  rw [hd.map_fst_labels, List.mem_append, List.mem_reverse, List.mem_filterMap, or_comm]

/-- The labels of a draft are those that are bound by now. -/
theorem Reads.mem_labels_iff
    (hd : d.Reads seed (Source.text (lines.take k)) (Source.data (lines.take k))) (name : String) :
    name ∈ d.labels.entries.map (·.1) ↔ Source.BoundBefore lines seed k name := by
  rw [hd.mem_map_fst_labels_iff, Source.BoundBefore]
  refine or_congr_right ?_
  simp only [Source.mem_text_iff, Source.mem_contents_take_iff]
  constructor
  · rintro ⟨c, ⟨⟨hc, hlt⟩, hsegment⟩, hlabel⟩
    exact ⟨c, ⟨hc, hsegment⟩, hlt, hlabel⟩
  · rintro ⟨c, ⟨hc, hsegment⟩, hlt, hlabel⟩
    exact ⟨c, ⟨⟨hc, hlt⟩, hsegment⟩, hlabel⟩

/-- **One line.** Behind a draft of the lines before it, a line is refused if it is rejected. -/
theorem Reads.addLine_eq_error_iff
    (hd : d.Reads seed (Source.text (lines.take k)) (Source.data (lines.take k)))
    (hseg : d.segment = Source.segmentAfter .text (lines.take k))
    (here : lines[k]? = some source) :
    d.addLine k source = .error e ↔ Source.Rejects lines seed k e := by
  rw [Source.rejects_iff here, addLine]
  cases hparse : Line.parse source with
  | error cause => simp [eq_comm]
  | ok parsed =>
    cases parsed with
    | blank => simp
    | segment s => simp
    | content label tokens =>
      have hbound : (· ∈ d.labels.entries.map (·.1)) = Source.BoundBefore lines seed k :=
        funext fun name => propext (hd.mem_labels_iff name)
      have hcontent : d.addContent k source label tokens = .error e ↔
          Content.Rejected ⟨k, d.segment, label, tokens⟩ source
            (· ∈ d.labels.entries.map (·.1)) e :=
        addContent_eq_error_iff (c := ⟨k, d.segment, label, tokens⟩) rfl
      rw [hbound, hseg] at hcontent
      simp [hcontent]

end Draft

/-! ## How far reading gets -/

namespace Source

variable {lines : List String} {seed : LabelTable}

/-- Reading gets through lines none of which is rejected. -/
theorem exists_addLines_take {n : Nat} (hle : n ≤ lines.length)
    (h : ∀ k < n, ∀ e, ¬Rejects lines seed k e) :
    ∃ d, (Draft.new seed).addLines 0 (lines.take n) = .ok d := by
  induction n with
  | zero => exact ⟨_, rfl⟩
  | succ n ih =>
    obtain ⟨d, hd⟩ := ih (Nat.le_of_succ_le hle) fun k hk => h k (Nat.lt_succ_of_lt hk)
    have here : lines[n]? = some lines[n] := List.getElem?_eq_getElem hle
    have hstep : ∀ e, d.addLine n lines[n] ≠ .error e := fun e he =>
      h n (Nat.lt_succ_self n) e
        (((Draft.reads_addLines hd).addLine_eq_error_iff (Draft.segment_addLines hd) here).1 he)
    have hlength : 0 + (lines.take n).length = n := by
      rw [Nat.zero_add, List.length_take, Nat.min_eq_left (Nat.le_of_succ_le hle)]
    rw [List.take_succ_eq_append_getElem hle, Draft.addLines_append, hd, hlength]
    cases hline : d.addLine n lines[n] with
    | error e => exact absurd hline (hstep e)
    | ok d' => exact ⟨d', by simp [Draft.addLines, hline, bind, Except.bind]⟩

/-- Reading stops at the first line that is rejected. -/
theorem Rejects.ofLines {k : Nat} {e : Error} (h : Rejects lines seed k e)
    (hfirst : ∀ j < k, ∀ e', ¬Rejects lines seed j e') (after : List String) :
    Program.ofLines (lines.take (k + 1) ++ after) seed = .error e := by
  obtain ⟨source, here⟩ : ∃ source, lines[k]? = some source := by
    cases h with
    | malformed here => exact ⟨_, here⟩
    | content here => exact ⟨_, here⟩
  obtain ⟨hlt, hsource⟩ := List.getElem?_eq_some_iff.1 here
  obtain ⟨d, hd⟩ := exists_addLines_take (Nat.le_of_lt hlt) hfirst
  have hline : d.addLine (lines.take k).length source = .error e := by
    rw [List.length_take, Nat.min_eq_left (Nat.le_of_lt hlt)]
    exact ((Draft.reads_addLines hd).addLine_eq_error_iff (Draft.segment_addLines hd) here).2 h
  rw [List.take_succ_eq_append_getElem hlt, hsource, List.append_assoc]
  exact Program.ofLines_eq_error_of_addLine hd hline

end Source

end Assembly

end Risc32
