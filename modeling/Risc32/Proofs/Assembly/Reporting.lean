import Mathlib.Data.Nat.Find
import Risc32.Proofs.Assembly.Rejection

/-!
# Which error is reported

A source can be wrong in many ways at once, and one error is reported. This file says which one, in
terms of the source alone (`Source.Reports`): that of the first line that is rejected; if there is
none, that of the first label of data that is bound already, be it by a later line of the text
segment (`Source.Rebinds`); and if there is none of these either, that of the first statement that
is no instruction. Nothing else is an error (`Program.ofLines_reports`).

Labels of data come late because their addresses do. A draft has them in the order of their lines,
so the first one that cannot be bound is on the first of the lines that have one
(`Draft.Reads.allLabels_eq_error`).
-/

set_option autoImplicit false

namespace Risc32

namespace Assembly

namespace Source

variable {lines : List String} {seed : LabelTable} {k : Nat} {name : String}

/-! ## Labels of data -/

/-- The line with the number has a label of data that is bound already when labels of data are: by
the seed, by any line of the text segment, or by a line of the data segment in front of it. -/
structure Rebinds (lines : List String) (seed : LabelTable) (k : Nat) (name : String) : Prop where
  labelled : ∃ c ∈ data lines, c.number = k ∧ c.label = some name
  bound : name ∈ seed.entries.map (·.1) ∨ (∃ c ∈ text lines, c.label = some name) ∨
    ∃ c ∈ data lines, c.number < k ∧ c.label = some name

/-- The labels of a source, behind those of the seed, as a program has them. -/
def entries (lines : List String) (seed : LabelTable) : List (String × Nat) :=
  (dataLabels (4 * (statements lines).length) lines).reverse ++ (textLabels lines).reverse ++
    seed.entries

theorem pairwise_contentsFrom (segment : Segment) (number : Nat) :
    (contentsFrom segment number lines).Pairwise (·.number < ·.number) := by
  induction lines generalizing segment number with
  | nil => exact .nil
  | cons source rest ih =>
    rw [contentsFrom_cons]
    split
    · refine List.pairwise_cons.2 ⟨?_, ih segment (number + 1)⟩
      intro c hc
      obtain ⟨i, -, -, hnumber, -⟩ := mem_contentsFrom_iff.1 hc
      rw [hnumber]
      exact Nat.lt_of_lt_of_le (Nat.lt_succ_self number) (Nat.le_add_right _ i)
    all_goals exact ih _ (number + 1)

/-- What is declared under a label is on a line with this label, and the lines are in order. -/
theorem map_dataLabelsFrom {cs : List Content} {ds : List Declaration}
    (h : cs.map Content.declaration? = ds.map some) (offset : Nat) :
    (dataLabelsFrom offset ds).map (fun l => (l.line, l.name)) =
      cs.filterMap fun c => c.label.map (c.number, ·) := by
  induction cs generalizing ds offset with
  | nil =>
    obtain rfl : ds = [] := by simpa using h.symm
    rfl
  | cons c rest ih =>
    cases ds with
    | nil => cases h
    | cons d ds =>
      obtain ⟨hfirst, hrest⟩ := List.cons.inj h
      obtain ⟨hline, hlabel⟩ := Content.origin_of_declaration? hfirst
      rw [dataLabelsFrom, List.map_append, ih hrest, List.filterMap_cons, Declaration.labels, hline,
        hlabel]
      cases c.label <;> rfl

end Source

namespace Draft

variable {d : Draft} {seed : LabelTable} {lines : List String}

namespace Reads

variable (hd : d.Reads seed (Source.text lines) (Source.data lines))
include hd

theorem map_dataLabels :
    d.data.labels.toList.map (fun l => (l.line, l.name)) =
      (Source.data lines).filterMap fun c => c.label.map (c.number, ·) := by
  obtain ⟨hdeclares, -, hlabels⟩ := hd.declared
  rw [hlabels, Source.map_dataLabelsFrom hdeclares]

theorem mem_dataLabels_iff {k : Nat} {name : String} :
    (∃ l ∈ d.data.labels.toList, l.line = k ∧ l.name = name) ↔
      ∃ c ∈ Source.data lines, c.number = k ∧ c.label = some name := by
  have hmem : (k, name) ∈ d.data.labels.toList.map (fun l => (l.line, l.name)) ↔
      (k, name) ∈ (Source.data lines).filterMap fun c => c.label.map (c.number, ·) := by
    rw [hd.map_dataLabels]
  rw [List.mem_map, List.mem_filterMap] at hmem
  simpa [and_comm] using hmem

/-- Labels of data are in the order of their lines. -/
theorem pairwise_dataLabels : d.data.labels.toList.Pairwise (·.line < ·.line) := by
  have hcontents : (Source.data lines).Pairwise (·.number < ·.number) :=
    (Source.pairwise_contentsFrom .text 0).sublist List.filter_sublist
  have hmarks : ((Source.data lines).filterMap fun c => c.label.map (c.number, ·)).Pairwise
      (·.1 < ·.1) := by
    refine List.pairwise_filterMap.2 (hcontents.imp ?_)
    intro c c' hlt m hm m' hm'
    obtain ⟨name, -, rfl⟩ := Option.map_eq_some_iff.1 hm
    obtain ⟨name', -, rfl⟩ := Option.map_eq_some_iff.1 hm'
    exact hlt
  rw [← hd.map_dataLabels, List.pairwise_map] at hmarks
  exact hmarks

/-- Labels of data that come first and are not bound already are bound once. -/
theorem nodup_of_not_rebinds {before after : List DataLabel}
    (hsplit : d.data.labels.toList = before ++ after)
    (h : ∀ l ∈ before, ¬Source.Rebinds lines seed l.line l.name) :
    (before.map (·.name) ++ d.labels.entries.map (·.1)).Nodup := by
  have horder := hd.pairwise_dataLabels
  rw [hsplit] at horder
  have hlabelled : ∀ l ∈ before,
      ∃ c ∈ Source.data lines, c.number = l.line ∧ c.label = some l.name :=
    fun l hl => hd.mem_dataLabels_iff.1 ⟨l, hsplit ▸ List.mem_append_left after hl, rfl, rfl⟩
  refine List.nodup_append.2 ⟨?_, d.labels.names_nodup, ?_⟩
  · rw [List.Nodup, List.pairwise_map]
    refine (List.pairwise_append.1 horder).1.imp_of_mem ?_
    intro l l' hl hl' hlt heq
    obtain ⟨c, hc, hnumber, hlabel⟩ := hlabelled l hl
    exact h l' hl' ⟨hlabelled l' hl', .inr (.inr ⟨c, hc, hnumber ▸ hlt, heq ▸ hlabel⟩)⟩
  · rintro name hname name' hname' rfl
    obtain ⟨l, hl, rfl⟩ := List.mem_map.1 hname
    have hbound := (hd.mem_map_fst_labels_iff l.name).1 hname'
    exact h l hl ⟨hlabelled l hl, hbound.imp_right .inl⟩

/-- Labels of data that are not bound already are bound. -/
theorem exists_allLabels_of_not_rebinds (h : ∀ k name, ¬Source.Rebinds lines seed k name) :
    ∃ labels, d.allLabels = .ok labels :=
  exists_allLabels <| hd.nodup_of_not_rebinds (List.append_nil _).symm fun _ _ => h _ _

/-- Of the labels of data that are bound already the first is refused. -/
theorem allLabels_eq_error {k : Nat} {name : String} (h : Source.Rebinds lines seed k name)
    (hfirst : ∀ j < k, ∀ name', ¬Source.Rebinds lines seed j name') :
    d.allLabels = .error ⟨k, name ++ ":", .duplicateLabel name⟩ := by
  obtain ⟨l, hl, rfl, rfl⟩ := hd.mem_dataLabels_iff.2 h.labelled
  obtain ⟨before, after, hsplit⟩ := List.append_of_mem hl
  have horder := hd.pairwise_dataLabels
  rw [hsplit, List.pairwise_append, List.pairwise_cons] at horder
  obtain ⟨-, ⟨hafter, -⟩, hbefore⟩ := horder
  -- The labels in front are on earlier lines, so all of them are bound.
  have hnodup := hd.nodup_of_not_rebinds hsplit fun l' hl' =>
    hfirst l'.line (hbefore l' hl' l List.mem_cons_self) l'.name
  obtain ⟨labels, hlabels⟩ : ∃ labels, before.foldlM (fun labels l =>
      bindLabel labels l.line l.name (d.address + l.offset)) d.labels = .ok labels :=
    exists_foldlM_bindLabel hnodup
  have hmem : l.name ∈ labels.entries.map (·.1) := by
    rw [foldlM_bindLabel_eq_ok hlabels, List.map_append, List.mem_append]
    rcases h.bound with hbound | hbound | hbound
    · exact .inr ((hd.mem_map_fst_labels_iff l.name).2 (.inl hbound))
    · exact .inr ((hd.mem_map_fst_labels_iff l.name).2 (.inr hbound))
    · obtain ⟨c, hc, hlt, hlabel⟩ := hbound
      obtain ⟨l', hl', hline, hname⟩ := hd.mem_dataLabels_iff.2 ⟨c, hc, rfl, hlabel⟩
      rw [hsplit, List.mem_append, List.mem_cons] at hl'
      rcases hl' with hl' | rfl | hl'
      · refine .inl ?_
        simp only [List.map_reverse, List.map_map, List.mem_reverse, List.mem_map]
        exact ⟨l', hl', hname⟩
      · omega
      · have := hafter l' hl'
        omega
  have hbind : bindLabel labels l.line l.name (d.address + l.offset) =
      .error ⟨l.line, l.name ++ ":", .duplicateLabel l.name⟩ :=
    bindLabel_eq_error_iff.2 ⟨hmem, rfl⟩
  simp only [allLabels, hsplit, List.foldlM_append, hlabels, List.foldlM_cons, bind, Except.bind,
    hbind]

/-- The labels that statements are read with are those of the source. -/
theorem entries_of_allLabels {labels : LabelTable} (h : d.allLabels = .ok labels) :
    labels.entries = Source.entries lines seed := by
  obtain ⟨-, -, hdataLabels⟩ := hd.declared
  have haddress : d.address = 4 * (Source.statements lines).length := by
    rw [address, ← Array.length_toList, hd.statements, Source.statements]
  rw [allLabels_eq_ok h, hd.labels, hdataLabels, haddress, Source.entries, Source.dataLabels,
    Source.textLabels, List.append_assoc]

end Reads

end Draft

/-! ## Statements -/

/-- Instructions are made of statements until one is none. -/
theorem instructionsFrom_eq_error_iff {labels : LabelTable} {index : Nat}
    {statements : List Statement} {e : Error} :
    instructionsFrom labels index statements = .error e ↔
      ∃ k s cause, statements[k]? = some s ∧
        instructionOf ⟨labels, index + k⟩ s.toCommand = .error cause ∧
        (∀ j < k, ∀ t, statements[j]? = some t →
          ∃ i, instructionOf ⟨labels, index + j⟩ t.toCommand = .ok i) ∧ e = s.error cause := by
  constructor
  · intro h
    induction statements generalizing index with
    | nil => cases h
    | cons first rest ih =>
      rw [instructionsFrom] at h
      split at h
      · next cause hbad =>
        cases h
        exact ⟨0, first, cause, rfl, hbad, fun j hj => absurd hj (Nat.not_lt_zero j), rfl⟩
      · next i hi =>
        rcases bind_eq_error.1 h with hrest | ⟨is, -, hdone⟩
        · obtain ⟨k, s, cause, hs, hbad, hfirst, he⟩ := ih hrest
          refine ⟨k + 1, s, cause, hs, ?_, ?_, he⟩
          · rwa [Nat.add_assoc, Nat.add_comm 1] at hbad
          · intro j hj t ht
            cases j with
            | zero =>
              obtain rfl := Option.some.inj ht
              exact ⟨i, hi⟩
            | succ j =>
              rw [Nat.add_comm j, ← Nat.add_assoc]
              exact hfirst j (Nat.lt_of_succ_lt_succ hj) t ht
        · cases hdone
  · rintro ⟨k, s, cause, hs, hbad, hfirst, rfl⟩
    obtain ⟨e, he, hexact⟩ := instructionsFrom_eq_error hs hbad
    rw [he, hexact hfirst]

/-- A statement is from the line that it has the number of, one of those that this is written out
to. -/
theorem Source.line_of_mem_statements {lines : List String} {s : Statement}
    (h : s ∈ statements lines) : ∃ source label tokens commands, lines[s.line]? = some source ∧
      Line.parse source = .ok (.content label tokens) ∧
      (Draft.commandOf tokens).expand = .ok commands ∧ s.toCommand ∈ commands := by
  obtain ⟨c, hc, hs⟩ := List.mem_flatMap.1 h
  obtain ⟨source, hsource, hparse, -⟩ := mem_contents_iff.1 (mem_text_iff.1 hc).1
  unfold Content.statements at hs
  split at hs
  · next commands hcommands =>
    obtain ⟨command, hcommand, rfl⟩ := List.mem_map.1 hs
    exact ⟨source, c.label, c.tokens, commands, hsource, hparse, hcommands, hcommand⟩
  · cases hs

/-! ## Errors -/

namespace Source

variable {lines : List String} {seed : LabelTable} {e : Error}

/-- The error of a source: the first of those of the first pass, if there are any, or the first of
those of its labels of data, or the first of those of its statements. -/
inductive Reports (lines : List String) (seed : LabelTable) : Error → Prop where
  | line {k : Nat} {e : Error} (rejected : Rejects lines seed k e)
      (first : ∀ j < k, ∀ e', ¬Rejects lines seed j e') : Reports lines seed e
  | label {k : Nat} {name : String} (read : ∀ j e, ¬Rejects lines seed j e)
      (rebinds : Rebinds lines seed k name)
      (first : ∀ j < k, ∀ name', ¬Rebinds lines seed j name') :
      Reports lines seed ⟨k, name ++ ":", .duplicateLabel name⟩
  | statement {labels : LabelTable} {k : Nat} {s : Statement} {cause : Cause}
      (read : ∀ j e, ¬Rejects lines seed j e) (bound : ∀ j name, ¬Rebinds lines seed j name)
      (labels_eq : labels.entries = entries lines seed) (here : (statements lines)[k]? = some s)
      (refused : instructionOf ⟨labels, k⟩ s.toCommand = .error cause)
      (first : ∀ j < k, ∀ t, (statements lines)[j]? = some t →
        ∃ i, instructionOf ⟨labels, j⟩ t.toCommand = .ok i) :
      Reports lines seed ⟨s.line, s.text, cause⟩

theorem exists_addLines (h : ∀ k e, ¬Rejects lines seed k e) :
    ∃ d, (Draft.new seed).addLines 0 lines = .ok d := by
  have hread := exists_addLines_take (Nat.le_refl lines.length) fun k _ => h k
  rwa [List.take_length] at hread

theorem Reports.ofLines (h : Reports lines seed e) : Program.ofLines lines seed = .error e := by
  cases h with
  | @line k _ rejected first =>
    rw [← List.take_append_drop (k + 1) lines]
    exact rejected.ofLines first (lines.drop (k + 1))
  | label read rebinds first =>
    obtain ⟨d, hd⟩ := exists_addLines read
    have hlabels := (Draft.reads_addLines hd).allLabels_eq_error rebinds first
    simp only [Program.ofLines, hd, Draft.toProgram, hlabels, bind, Except.bind]
  | @statement labels k s cause read bound labels_eq here refused first =>
    obtain ⟨d, hd⟩ := exists_addLines read
    have hreads := Draft.reads_addLines hd
    obtain ⟨labels', hlabels⟩ := hreads.exists_allLabels_of_not_rebinds bound
    obtain rfl : labels' = labels :=
      LabelTable.ext_entries ((hreads.entries_of_allLabels hlabels).trans labels_eq.symm)
    have hstatements : d.statements.toList = statements lines := hreads.statements
    rw [← hstatements] at here first
    obtain ⟨e, he, hexact⟩ := Program.ofLines_eq_error hd hlabels here refused
    rw [he, hexact first, Statement.error]

/-- A source that has no error is accepted. -/
theorem exists_reports_or_ofLines (lines : List String) (seed : LabelTable) :
    (∃ e, Reports lines seed e) ∨ ∃ p, Program.ofLines lines seed = .ok p := by
  classical
  by_cases hread : ∃ k e, Rejects lines seed k e
  · obtain ⟨e, hrejects⟩ := Nat.find_spec hread
    exact .inl ⟨e, .line hrejects fun j hj => not_exists.1 (Nat.find_min hread hj)⟩
  simp only [not_exists] at hread
  by_cases hbound : ∃ k name, Rebinds lines seed k name
  · obtain ⟨name, hrebinds⟩ := Nat.find_spec hbound
    exact .inl ⟨_, .label hread hrebinds fun j hj => not_exists.1 (Nat.find_min hbound hj)⟩
  simp only [not_exists] at hbound
  obtain ⟨d, hd⟩ := exists_addLines hread
  have hreads := Draft.reads_addLines hd
  have hstatements : d.statements.toList = statements lines := hreads.statements
  obtain ⟨labels, hlabels⟩ := hreads.exists_allLabels_of_not_rebinds hbound
  cases hinstructions : instructionsFrom labels 0 (statements lines) with
  | error e =>
    obtain ⟨k, s, cause, hs, hbad, hfirst, -⟩ := instructionsFrom_eq_error_iff.1 hinstructions
    simp only [Nat.zero_add] at hbad hfirst
    exact .inl ⟨_, .statement hread hbound (hreads.entries_of_allLabels hlabels) hs hbad hfirst⟩
  | ok instructions =>
    obtain ⟨p, hp⟩ : ∃ p, d.toProgram = .ok p := by
      simp only [Draft.toProgram, hlabels, hstatements, hinstructions, bind, Except.bind]
      exact ⟨_, rfl⟩
    exact .inr ⟨p, bind_eq_ok.2 ⟨d, hd, hp⟩⟩

end Source

end Assembly

open Assembly

/-- **Which error is reported.** A source is refused for the error that it reports: that of the
first line that is rejected, else that of the first label of data that is bound already, else that
of the first statement that is no instruction. The first of these depends on no line behind the one
that is rejected, and it has the number of this line; the last has the number of the line that the
statement is from, whatever else stands there. -/
theorem Program.ofLines_reports (lines : List String) (seed : LabelTable) :
    (∀ e, ofLines lines seed = .error e ↔ Source.Reports lines seed e) ∧
      (∀ k e, Source.Rejects lines seed k e → (∀ j < k, ∀ e', ¬Source.Rejects lines seed j e') →
        e.line = k ∧ ∀ after, ofLines (lines.take (k + 1) ++ after) seed = .error e) ∧
      ∀ s ∈ Source.statements lines, ∃ source label tokens commands,
        lines[s.line]? = some source ∧ Line.parse source = .ok (.content label tokens) ∧
          (Draft.commandOf tokens).expand = .ok commands ∧ s.toCommand ∈ commands := by
  refine ⟨fun e => ⟨fun h => ?_, Source.Reports.ofLines⟩,
    fun k e hrejects hfirst => ⟨hrejects.line, hrejects.ofLines hfirst⟩,
    fun s => Source.line_of_mem_statements⟩
  rcases Source.exists_reports_or_ofLines lines seed with ⟨e', he'⟩ | ⟨p, hp⟩
  · obtain rfl : e' = e := Except.error.inj (he'.ofLines.symm.trans h)
    exact he'
  · cases hp.symm.trans h

/-- A label that is bound twice is reported whatever follows; a label of data in front of the label
of text that takes its name, and before what is no instruction; and an instruction by its line, also
behind one that is written out to two. -/
theorem Program.ofLines_reports_first :
    (∀ after, ofLines (["x: nop", "x: ret"] ++ after) .empty =
        .error ⟨1, "x:", .duplicateLabel "x"⟩) ∧
      Source.Reports [".data", "x: .word 1", ".text", "x: nop", "halt"] .empty
        ⟨1, "x:", .duplicateLabel "x"⟩ ∧
      Source.Reports ["movia r1, 5", "add r1, r2", "halt"] .empty
        ⟨1, "add r1, r2", .operandCount 3 2⟩ := by
  have hnop : ⟨0, .text, some "x", ["nop"]⟩ ∈ Source.contents ["x: nop", "x: ret"] := by
    decide +kernel
  have hret : ⟨1, .text, some "x", ["ret"]⟩ ∈ Source.contents ["x: nop", "x: ret"] := by
    decide +kernel
  have hfirst : ∀ j < 1, ∀ e, ¬Source.Rejects ["x: nop", "x: ret"] .empty j e := by
    intro j hj e h
    obtain rfl : j = 0 := Nat.lt_one_iff.1 hj
    have hreads : (Draft.new .empty).Reads .empty (Source.text (["x: nop", "x: ret"].take 0))
        (Source.data (["x: nop", "x: ret"].take 0)) := Draft.reads_new .empty
    have herror : (Draft.new .empty).addLine 0 "x: nop" = .error e :=
      (hreads.addLine_eq_error_iff rfl rfl).2 h
    have hread : ((Draft.new .empty).addLine 0 "x: nop").toOption.isSome := by decide +kernel
    rw [herror] at hread
    cases hread
  refine ⟨?_, ?_, ?_⟩
  · have hbound : Source.BoundBefore ["x: nop", "x: ret"] .empty 1 "x" :=
      .inr ⟨_, Source.mem_text_iff.2 ⟨hnop, rfl⟩, Nat.one_pos, rfl⟩
    exact ((ofLines_reports ["x: nop", "x: ret"] .empty).2.1 1 _
      (.content rfl hret rfl (.label rfl rfl hbound)) hfirst).2
  · exact ((ofLines_reports _ _).1 _).1 (by decide +kernel)
  · exact ((ofLines_reports _ _).1 _).1 (by decide +kernel)

end Risc32
