import Mathlib.Logic.Relation
import Risc32.Proofs.Assembly.Recasing
import Risc32.Proofs.Assembly.Spacing

/-!
# Rewriting a source

A source can be written in many ways. Lines without code can be anywhere, gaps between tokens can be
any others, a comment can stand behind every line, and letters can be in either case where the
assembler folds it. This file says so for one rewrite of one line (`LineRewrites.parse_alike`), and
concludes that no number of rewrites changes what a source is assembled to
(`Program.toOption_ofLines_of_rewrites`).

A rewrite moves lines and changes their text. Both are kept for errors only, which is why nothing is
said of them.
-/

set_option autoImplicit false

namespace Risc32

namespace Assembly

/-! ## Rewrites -/

/-- The tokens of a line behind its label, up to the case of letters. The first one says how the
others are read. -/
inductive SameWords : List String → List String → Prop where
  | nothing : SameWords [] []
  | command {first first' : String} {os os' : List String}
      (same : SameLetters first.toList first'.toList)
      (operands : RelatedAt SameOperand (positions (Text.lower first)) os os') :
      SameWords (first :: os) (first' :: os')

/-- The tokens of a line, up to the case of letters. A label stays as it is. -/
inductive SameTokens : List String → List String → Prop where
  | labelled {label : String} {ws ws' : List String} (colon : endsInColon label)
      (words : SameWords ws ws') : SameTokens (label :: ws) (label :: ws')
  | unlabelled {ws ws' : List String} (colon : ∀ first ∈ ws.head?, ¬endsInColon first)
      (words : SameWords ws ws') : SameTokens ws ws'

/-- One rewrite of one line. -/
inductive LineRewrites : String → String → Prop where
  /-- Other separators between tokens. -/
  | gap {gap gap' : String} (separates : Gap gap) (nonempty : gap ≠ "") (separates' : Gap gap')
      (nonempty' : gap' ≠ "") (x y : String) : LineRewrites (x ++ gap ++ y) (x ++ gap' ++ y)
  /-- Separators at the beginning of the line. -/
  | leading {gap : String} (separates : Gap gap) (y : String) : LineRewrites y (gap ++ y)
  /-- Separators at the end of the code, behind which there is nothing or a comment. -/
  | trailing {gap y : String} (separates : Gap gap) (uncoded : Uncoded y) (x : String) :
      LineRewrites (x ++ y) (x ++ gap ++ y)
  | comment (x text : String) : LineRewrites x (x ++ ("#" ++ text))
  /-- Letters in the other case. -/
  | letters {line line' : String} (same : Text.lower line = Text.lower line')
      (tokens : ∀ ts ts', tokens? line = some ts → tokens? line' = some ts' → SameTokens ts ts') :
      LineRewrites line line'

/-- One rewrite of a source. -/
inductive Rewrites : List String → List String → Prop where
  /-- A new line without code: it is empty, or has separators or a comment or both. -/
  | insert {gap y : String} (separates : Gap gap) (uncoded : Uncoded y) (before after : List String) :
      Rewrites (before ++ after) (before ++ (gap ++ y) :: after)
  | line {line line' : String} (rewrite : LineRewrites line line') (before after : List String) :
      Rewrites (before ++ line :: after) (before ++ line' :: after)

/-! ## Lines -/

namespace Line

/-- What is read is the same up to the case of letters. -/
inductive Alike : Except Cause Line → Except Cause Line → Prop where
  | error (cause cause' : Cause) : Alike (.error cause) (.error cause')
  | blank : Alike (.ok .blank) (.ok .blank)
  | segment (s : Segment) : Alike (.ok (.segment s)) (.ok (.segment s))
  | content (label : Option String) {ws ws' : List String} (words : SameWords ws ws') :
      Alike (.ok (.content label ws)) (.ok (.content label ws'))

end Line

theorem RelatedAt.refl {R : Position → String → String → Prop} (hR : ∀ p o, R p o o)
    (ps : List Position) (os : List String) : RelatedAt R ps os os := by
  induction os generalizing ps with
  | nil => exact .nil
  | cons o os ih =>
    cases ps with
    | nil => exact .more (hR .value o) (ih [])
    | cons p ps => exact .cons (hR p o) (ih ps)

theorem SameWords.refl (ws : List String) : SameWords ws ws := by
  cases ws with
  | nil => exact .nothing
  | cons first os => exact .command (.refl _) (.refl (fun _ _ => .literal (.inl rfl)) _ os)

theorem Line.Alike.refl (parsed : Except Cause Line) : Alike parsed parsed := by
  cases parsed with
  | error cause => exact .error cause cause
  | ok parsed =>
    cases parsed with
    | blank => exact .blank
    | segment s => exact .segment s
    | content label ws => exact .content label (.refl ws)

namespace SameWords

variable {ws ws' : List String}

theorem ofLabelAndTokens_alike (h : SameWords ws ws') (label : Option String) :
    Line.Alike (Line.ofLabelAndTokens label ws) (Line.ofLabelAndTokens label ws') := by
  cases h with
  | nothing => exact .content label .nothing
  | @command first first' os os' same operands =>
    have hlower := lower_eq_iff.2 same
    have hdirective : Segment.ofDirective? first = Segment.ofDirective? first' := by
      rw [Segment.ofDirective?, Segment.ofDirective?, hlower]
    have hcount : (first :: os).length = (first' :: os').length := by
      rw [List.length_cons, List.length_cons, operands.length_eq]
    rw [Line.ofLabelAndTokens, Line.ofLabelAndTokens, hcount, List.head?_cons, List.head?_cons,
      Option.bind_some, Option.bind_some, hdirective]
    cases Segment.ofDirective? first' with
    | none => exact .content label (.command same operands)
    | some s => exact .refl _

/-- Values in other letters are the same literals, and so are declared as the same. -/
theorem declaration?_eq (h : SameWords ws ws') (number : Nat) (segment : Segment)
    (label : Option String) :
    Content.declaration? ⟨number, segment, label, ws⟩ =
      Content.declaration? ⟨number, segment, label, ws'⟩ := by
  cases h with
  | nothing => rfl
  | @command first first' os os' same operands =>
    have hlower := lower_eq_iff.2 same
    have hvalues : List.Forall₂ (fun o o' => integer? o = integer? o') os os' :=
      operands.forall₂ fun _ _ _ ho => ho.integer?_eq
    have hmapM : ∀ {os os' : List String},
        List.Forall₂ (fun o o' => integer? o = integer? o') os os' →
        ∀ kind, os.mapM (literal? kind) = os'.mapM (literal? kind) := by
      intro os os' hvalues kind
      induction hvalues with
      | nil => rfl
      | cons ho _ ih => simp only [List.mapM_cons, literal?, ho, ih]
    cases hvalues with
    | nil => rfl
    | cons ho hmore => simp only [Content.declaration?, hlower, literal?, ho, hmapM hmore]

/-- Lines in other letters say the same. -/
theorem content_alike (h : SameWords ws ws') (number : Nat) (segment : Segment)
    (label : Option String) :
    Content.Alike ⟨number, segment, label, ws⟩ ⟨number, segment, label, ws'⟩ where
  segment := rfl
  label := rfl
  mnemonic := by
    cases h with
    | nothing => rfl
    | command same _ => exact lower_eq_iff.2 same
  commands := by
    cases h with
    | nothing => exact (Content.Alike.refl ⟨number, segment, label, []⟩).commands
    | @command first first' os os' same operands =>
      have hexpand := Command.expand_alike operands
      rw [Content.command, Content.command, Draft.commandOf, Draft.commandOf,
        ← lower_eq_iff.2 same]
      exact hexpand
  declaration := by
    rw [h.declaration?_eq]
    exact (Content.Alike.refl ⟨number, segment, label, ws'⟩).declaration

end SameWords

theorem SameTokens.ofTokens_alike {ts ts' : List String} (h : SameTokens ts ts') :
    Line.Alike (Line.ofTokens ts) (Line.ofTokens ts') := by
  cases h with
  | @labelled label ws ws' colon words =>
    rw [Line.ofTokens, Line.ofTokens, if_pos colon, if_pos colon]
    cases labelName? label with
    | none => exact .error _ _
    | some name => exact words.ofLabelAndTokens_alike (some name)
  | unlabelled colon words =>
    cases words with
    | nothing => exact .blank
    | @command first first' os os' same operands =>
      have hcolon : ∀ token, endsInColon token ↔ token.toList.getLast? = some ':' :=
        fun token => beq_iff_eq
      have hfirst : ¬endsInColon first := colon first rfl
      have hfirst' : ¬endsInColon first' := by
        rw [hcolon, ← same.getLast?_iff rfl, ← hcolon]
        exact hfirst
      rw [Line.ofTokens, Line.ofTokens, if_neg hfirst, if_neg hfirst']
      exact (SameWords.command same operands).ofLabelAndTokens_alike none

/-- **One rewrite of a line** does not change what is read. -/
theorem LineRewrites.parse_alike {line line' : String} (h : LineRewrites line line') :
    Line.Alike (Line.parse line) (Line.parse line') := by
  have hsame : ∀ {line line' : String}, tokens? line = tokens? line' →
      Line.Alike (Line.parse line) (Line.parse line') := by
    intro line line' htokens
    rw [Line.parse, Line.parse, htokens]
    exact .refl _
  cases h with
  | gap separates nonempty separates' nonempty' x y =>
    exact hsame (tokens?_gap separates nonempty separates' nonempty' x y)
  | leading separates => exact hsame (tokens?_gap_append separates line).symm
  | trailing separates uncoded x =>
    exact hsame (by
      rw [tokens?_append_uncoded uncoded, tokens?_append_uncoded uncoded,
        tokens?_append_gap separates])
  | comment _ text =>
    have huncoded : Uncoded ("#" ++ text) := by simp [Uncoded, commentChar]
    exact hsame (tokens?_append_uncoded huncoded line).symm
  | letters same tokens =>
    have hsome := isSome_tokens?_of_lower_eq same
    rw [Line.parse, Line.parse]
    cases hts : tokens? line with
    | none =>
      rw [hts] at hsome
      rw [Option.isNone_iff_eq_none.1 (Option.isSome_eq_false_iff.1 hsome.symm)]
      exact .error _ _
    | some ts =>
      rw [hts] at hsome
      obtain ⟨ts', hts'⟩ := Option.isSome_iff_exists.1 hsome.symm
      rw [hts']
      exact (tokens ts ts' hts hts').ofTokens_alike

/-! ## Sources -/

namespace Source

theorem forall₂_refl (cs : List Content) : List.Forall₂ Content.Alike cs cs :=
  List.forall₂_same.2 fun c _ => .refl c

/-- The same lines further down say the same. -/
theorem contentsFrom_alike (segment : Segment) (number number' : Nat) (lines : List String) :
    List.Forall₂ Content.Alike (contentsFrom segment number lines)
      (contentsFrom segment number' lines) := by
  induction lines generalizing segment number number' with
  | nil => exact .nil
  | cons source rest ih =>
    rw [contentsFrom_cons, contentsFrom_cons]
    cases Line.parse source with
    | error cause => exact ih segment (number + 1) (number' + 1)
    | ok parsed =>
      cases parsed with
      | blank => exact ih segment (number + 1) (number' + 1)
      | segment s => exact ih s (number + 1) (number' + 1)
      | content label tokens =>
        exact .cons (Content.alike_number _ number') (ih segment (number + 1) (number' + 1))

/-- Contents that say the same do so in each of the segments. -/
theorem Alike.of_contents {lines lines' : List String} (hparses : Parses lines ↔ Parses lines')
    (h : List.Forall₂ Content.Alike (contents lines) (contents lines')) : Alike lines lines' where
  parses := hparses
  text := List.rel_filter (fun _ _ hc => by simp [hc.segment]) h
  data := List.rel_filter (fun _ _ hc => by simp [hc.segment]) h

/-- A line without code says nothing, and only moves those behind it. -/
theorem alike_insert {source : String} (h : Line.parse source = .ok .blank)
    (before after : List String) : Alike (before ++ after) (before ++ source :: after) := by
  apply Alike.of_contents
  · simp only [Parses, List.forall_mem_append, List.forall_mem_cons, h, Except.ok.injEq,
      exists_eq', true_and]
  · rw [contents, contents, contentsFrom_append, contentsFrom_append, contentsFrom_cons, h]
    exact List.rel_append (forall₂_refl _) (contentsFrom_alike _ _ _ after)

/-- A line can be replaced by one that is read the same. -/
theorem alike_line {source source' : String}
    (h : Line.Alike (Line.parse source) (Line.parse source')) (before after : List String) :
    Alike (before ++ source :: after) (before ++ source' :: after) := by
  apply Alike.of_contents
  · simp only [Parses, List.forall_mem_append, List.forall_mem_cons]
    generalize Line.parse source = parsed, Line.parse source' = parsed' at h
    cases h <;> simp
  · rw [contents, contents, contentsFrom_append, contentsFrom_append, contentsFrom_cons,
      contentsFrom_cons]
    apply List.rel_append (forall₂_refl _)
    generalize Line.parse source = parsed, Line.parse source' = parsed' at h
    cases h with
    | error cause cause' => exact forall₂_refl _
    | blank => exact forall₂_refl _
    | segment s => exact forall₂_refl _
    | content label words => exact .cons (words.content_alike _ _ label) (forall₂_refl _)

/-- **One rewrite of a source** leaves what it says. -/
theorem alike_of_rewrites {lines lines' : List String} (h : Rewrites lines lines') :
    Alike lines lines' := by
  cases h with
  | insert separates uncoded before after =>
    apply alike_insert
    rw [Line.parse, tokens?_of_uncoded separates uncoded]
    rfl
  | line rewrite before after => exact alike_line rewrite.parse_alike before after

end Source

/-! ## Many rewrites -/

section

open Relation

theorem eqvGen_rewrites_line {line line' : String} (h : EqvGen LineRewrites line line')
    (before after : List String) :
    EqvGen Rewrites (before ++ line :: after) (before ++ line' :: after) := by
  induction h with
  | rel _ _ hrewrites => exact .rel _ _ (.line hrewrites before after)
  | refl _ => exact .refl _
  | symm _ _ _ ih => exact ih.symm
  | trans _ _ _ _ _ ih ih' => exact ih.trans _ _ _ ih'

/-- All lines can be rewritten at once. -/
theorem eqvGen_rewrites_of_forall₂ {lines lines' : List String}
    (h : List.Forall₂ (EqvGen LineRewrites) lines lines') (before : List String) :
    EqvGen Rewrites (before ++ lines) (before ++ lines') := by
  induction h generalizing before with
  | nil => exact .refl _
  | @cons line line' rest rest' hline _ ih =>
    have hrest := ih (before ++ [line'])
    rw [List.append_assoc, List.append_assoc] at hrest
    exact (eqvGen_rewrites_line hline before rest).trans _ _ _ hrest

end

end Assembly

/-- **Rewriting a source** any number of times, there or back, does not change the program that it
is assembled to, nor whether it can be assembled. -/
theorem Program.toOption_ofLines_of_rewrites {lines lines' : List String}
    (h : Relation.EqvGen Assembly.Rewrites lines lines') (seed : LabelTable) :
    (ofLines lines seed).toOption = (ofLines lines' seed).toOption := by
  induction h with
  | rel _ _ hrewrites =>
    exact toOption_ofLines_of_alike (Assembly.Source.alike_of_rewrites hrewrites) seed
  | refl _ => rfl
  | symm _ _ _ ih => exact ih.symm
  | trans _ _ _ _ _ ih ih' => exact ih.trans ih'

namespace Program

/-- A table of one word, and its address. -/
def tabulated : List String := [
  "main:  movia r1, table",
  "ldw r2,%lo(0x0c)(r1)",
  ".data",
  "table: .word 0xff"]

/-- The same in other letters, with a comment and other separators. -/
def tabulatedAnew : List String := [
  "  # A table",
  "main:  MOVIA R1, table",
  " LDW R2 %LO(0X0C)(R1)",
  ".DATA # of one word",
  "table: .Word 0xFF,"]

end Program

namespace Assembly

theorem LineRewrites.of_tokens {line line' : String} (ts ts' : List String)
    (same : Text.lower line = Text.lower line') (hts : tokens? line = some ts)
    (hts' : tokens? line' = some ts') (h : SameTokens ts ts') : LineRewrites line line' := by
  refine .letters same ?_
  intro us us' hus hus'
  rw [hts] at hus
  rw [hts'] at hus'
  cases hus
  cases hus'
  exact h

theorem eqvGen_rewrites_tabulated :
    Relation.EqvGen Rewrites Program.tabulated Program.tabulatedAnew := by
  have hblank : Gap " " := by decide
  have hcomma : Gap "," := by decide
  have hend : Uncoded "" := by decide
  have hnew : Rewrites Program.tabulated ("  # A table" :: Program.tabulated) :=
    .insert (show Gap "  " by decide) (show Uncoded "# A table" by decide) [] Program.tabulated
  have hmain : LineRewrites "main:  movia r1, table" "main:  MOVIA R1, table" := by
    refine .of_tokens ["main:", "movia", "r1", "table"] ["main:", "MOVIA", "R1", "table"]
      (by decide +kernel) (by decide +kernel) (by decide +kernel)
      (.labelled (by decide +kernel) (.command (by decide +kernel) ?_))
    exact .cons (.register (by decide)) (.cons (.literal (.inl rfl)) .nil)
  have hload : LineRewrites "ldw r2,%lo(0x0c)(r1)" "LDW R2,%LO(0X0C)(R1)" := by
    refine .of_tokens ["ldw", "r2", "%lo(0x0c)(r1)"] ["LDW", "R2", "%LO(0X0C)(R1)"]
      (by decide +kernel) (by decide +kernel) (by decide +kernel)
      (.unlabelled (by decide +kernel) (.command (by decide +kernel) ?_))
    have hwritten : Expression.IsWritten ⟨['l', 'o'], "0x0c".toList⟩ :=
      ⟨by decide, List.all_eq_true.1 (by decide), by decide, by decide⟩
    have hlow : SameExpression ⟨['l', 'o'], "0x0c".toList⟩ ⟨['L', 'O'], "0X0C".toList⟩ :=
      ⟨hwritten, by decide, .inr ⟨by decide, by decide⟩⟩
    have hbase : SameLetters (MemoryOperand.base ⟨"%lo(0x0c)".toList, ['r', '1']⟩)
        (MemoryOperand.base ⟨"%LO(0X0C)".toList, ['R', '1']⟩) := by decide
    have hoffset : SameOperand .memory "%lo(0x0c)(r1)" "%LO(0X0C)(R1)" :=
      .memory (.expression hlow) (by decide) (by decide) hbase
    exact .cons (.register (by decide)) (.cons hoffset .nil)
  have hgap : LineRewrites "LDW R2,%LO(0X0C)(R1)" "LDW R2 %LO(0X0C)(R1)" :=
    .gap hcomma (by decide) hblank (by decide) "LDW R2" "%LO(0X0C)(R1)"
  have hleading : LineRewrites "LDW R2 %LO(0X0C)(R1)" " LDW R2 %LO(0X0C)(R1)" :=
    .leading hblank "LDW R2 %LO(0X0C)(R1)"
  have hdata : LineRewrites ".data" ".DATA" :=
    .of_tokens [".data"] [".DATA"] (by decide +kernel) (by decide +kernel) (by decide +kernel)
      (.unlabelled (by decide +kernel) (.command (by decide +kernel) .nil))
  have htrailing : LineRewrites ".DATA" ".DATA " := .trailing hblank hend ".DATA"
  have hcomment : LineRewrites ".DATA " ".DATA # of one word" := .comment ".DATA " " of one word"
  have htable : LineRewrites "table: .word 0xff" "table: .Word 0xFF" := by
    refine .of_tokens ["table:", ".word", "0xff"] ["table:", ".Word", "0xFF"]
      (by decide +kernel) (by decide +kernel) (by decide +kernel)
      (.labelled (by decide +kernel) (.command (by decide +kernel) ?_))
    exact .more (.literal (.inr ⟨by decide, by decide⟩)) .nil
  have hlast : LineRewrites "table: .Word 0xFF" "table: .Word 0xFF," :=
    .trailing hcomma hend "table: .Word 0xFF"
  refine (Relation.EqvGen.rel _ _ hnew).trans _ _ _
    (eqvGen_rewrites_of_forall₂ (.cons (.rel _ _ hmain) (.cons ?_ (.cons ?_ (.cons ?_ .nil))))
      ["  # A table"])
  · exact (Relation.EqvGen.rel _ _ hload).trans _ _ _
      ((Relation.EqvGen.rel _ _ hgap).trans _ _ _ (.rel _ _ hleading))
  · exact (Relation.EqvGen.rel _ _ hdata).trans _ _ _
      ((Relation.EqvGen.rel _ _ htrailing).trans _ _ _ (.rel _ _ hcomment))
  · exact (Relation.EqvGen.rel _ _ htable).trans _ _ _ (.rel _ _ hlast)

end Assembly

/-- `tabulatedAnew` becomes the same program as `tabulated`, which becomes one. -/
theorem Program.toOption_ofLines_tabulated :
    (ofLines tabulated .empty).toOption.isSome ∧
      Relation.EqvGen Assembly.Rewrites tabulated tabulatedAnew ∧
      (ofLines tabulated .empty).toOption = (ofLines tabulatedAnew .empty).toOption :=
  ⟨by decide +kernel, Assembly.eqvGen_rewrites_tabulated,
    toOption_ofLines_of_rewrites Assembly.eqvGen_rewrites_tabulated .empty⟩

end Risc32
