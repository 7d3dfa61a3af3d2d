import Risc32.Proofs.Assembly.Alike

/-!
# Segments in any order

A source may go back and forth between its two segments as often as it likes. It is assembled as if
the lines of text came first and those of data behind them (`Program.toOption_ofLines_separated`).

The induction over the lines is in `filter_contentsFrom_alike`: what is read in a segment is what
its lines alone would say. Everything else a program has is put together from what the two segments
say, also the labels, which only have to differ and so do not depend on which was there before.
-/

set_option autoImplicit false

namespace Risc32

namespace Assembly.Source

/-- The lines that are read in a segment, if the first one is read in `current`. A line that names a
segment is read in none. -/
def linesFrom (wanted current : Segment) : List String → List String
  | [] => []
  | source :: rest =>
    match Line.parse source with
    | .ok (.segment s) => linesFrom wanted s rest
    | .ok .blank | .ok (.content _ _) | .error _ =>
      if current = wanted then source :: linesFrom wanted current rest
      else linesFrom wanted current rest

/-- The lines of the text segment, in the order in which they stand in the source. -/
def textLines (lines : List String) : List String :=
  linesFrom .text .text lines

/-- The lines of the data segment, in the order in which they stand in the source. -/
def dataLines (lines : List String) : List String :=
  linesFrom .data .text lines

/-- The lines of the text segment, and behind them those of the data segment if there are any. -/
def separated (lines : List String) : List String :=
  textLines lines ++ if dataLines lines = [] then [] else ".data" :: dataLines lines

/-! ## Lines of one segment -/

section

variable {wanted current s : Segment} {source : String} {lines rest : List String}

@[simp] theorem linesFrom_nil : linesFrom wanted current [] = [] := rfl

theorem linesFrom_cons : linesFrom wanted current (source :: rest) =
    match Line.parse source with
    | .ok (.segment s) => linesFrom wanted s rest
    | .ok .blank | .ok (.content _ _) | .error _ =>
      if current = wanted then source :: linesFrom wanted current rest
      else linesFrom wanted current rest := rfl

theorem linesFrom_of_segment (h : Line.parse source = .ok (.segment s)) :
    linesFrom wanted current (source :: rest) = linesFrom wanted s rest := by
  rw [linesFrom_cons, h]

theorem linesFrom_of_other (h : ∀ s, Line.parse source ≠ .ok (.segment s)) :
    linesFrom wanted current (source :: rest) =
      (if current = wanted then [source] else []) ++ linesFrom wanted current rest := by
  rw [linesFrom_cons]
  split
  · next s hparse => exact absurd hparse (h s)
  all_goals
    split
    · rfl
    · rfl

/-- No line that is read in a segment names one. -/
theorem ne_segment_of_mem_linesFrom (h : source ∈ linesFrom wanted current lines) (s : Segment) :
    Line.parse source ≠ .ok (.segment s) := by
  induction lines generalizing current with
  | nil => simp at h
  | cons first rest ih =>
    by_cases hfirst : ∃ s, Line.parse first = .ok (.segment s)
    · obtain ⟨s', hs'⟩ := hfirst
      rw [linesFrom_of_segment hs'] at h
      exact ih h
    · have hother := not_exists.1 hfirst
      rw [linesFrom_of_other hother, List.mem_append] at h
      rcases h with h | h
      · split at h
        · rw [List.mem_singleton.1 h]
          exact hother s
        · simp at h
      · exact ih h

/-- What cannot be read is in one of the segments. -/
theorem parses_iff_linesFrom (current : Segment) (lines : List String) :
    Parses lines ↔
      Parses (linesFrom .text current lines) ∧ Parses (linesFrom .data current lines) := by
  induction lines generalizing current with
  | nil => simp [Parses]
  | cons source rest ih =>
    have hcons : Parses (source :: rest) ↔
        (∃ parsed, Line.parse source = .ok parsed) ∧ Parses rest := List.forall_mem_cons
    by_cases hfirst : ∃ s, Line.parse source = .ok (.segment s)
    · obtain ⟨s, hs⟩ := hfirst
      rw [hcons, linesFrom_of_segment hs, linesFrom_of_segment hs, ih s]
      exact and_iff_right ⟨_, hs⟩
    · have hother := not_exists.1 hfirst
      rw [hcons, linesFrom_of_other hother, linesFrom_of_other hother, ih current]
      cases current with
      | text => simp [Parses, and_assoc]
      | data => simp [Parses, and_left_comm]

/-- **What is read in a segment** is what the lines of the segment say by themselves. -/
theorem filter_contentsFrom_alike (number number' : Nat) :
    List.Forall₂ Content.Alike ((contentsFrom current number lines).filter (·.segment = wanted))
      (contentsFrom wanted number' (linesFrom wanted current lines)) := by
  induction lines generalizing current number number' with
  | nil => exact .nil
  | cons source rest ih =>
    rw [contentsFrom_cons, linesFrom_cons]
    cases hparse : Line.parse source with
    | error cause =>
      by_cases hwanted : current = wanted
      · simpa only [if_pos hwanted, contentsFrom_cons, hparse] using ih (number + 1) (number' + 1)
      · simpa only [if_neg hwanted] using ih (number + 1) number'
    | ok parsed =>
      cases parsed with
      | segment s => exact ih (number + 1) number'
      | blank =>
        by_cases hwanted : current = wanted
        · simpa only [if_pos hwanted, contentsFrom_cons, hparse] using ih (number + 1) (number' + 1)
        · simpa only [if_neg hwanted] using ih (number + 1) number'
      | content label tokens =>
        by_cases hwanted : current = wanted
        · subst hwanted
          simp only [if_true, contentsFrom_cons, hparse, List.filter_cons, decide_true]
          exact .cons (Content.alike_number _ number') (ih (number + 1) (number' + 1))
        · simp only [if_neg hwanted, List.filter_cons, decide_eq_true_eq]
          exact ih (number + 1) number'

/-- Lines none of which names a segment stay in the one that they begin in. -/
theorem segment_of_ne_segment (h : ∀ source ∈ lines, ∀ s, Line.parse source ≠ .ok (.segment s))
    (number : Nat) : segmentAfter current lines = current ∧
      ∀ c ∈ contentsFrom current number lines, c.segment = current := by
  induction lines generalizing number with
  | nil => simp
  | cons source rest ih =>
    obtain ⟨hfirst, hrest⟩ := List.forall_mem_cons.1 h
    obtain ⟨hsegment, hcontents⟩ := ih hrest (number + 1)
    rw [segmentAfter_cons, contentsFrom_cons]
    cases hparse : Line.parse source with
    | error cause => exact ⟨hsegment, hcontents⟩
    | ok parsed =>
      cases parsed with
      | blank => exact ⟨hsegment, hcontents⟩
      | segment s => exact absurd hparse (hfirst s)
      | content label tokens => exact ⟨hsegment, List.forall_mem_cons.2 ⟨rfl, hcontents⟩⟩

end

/-! ## The source in two parts -/

theorem parse_data : Line.parse ".data" = .ok (.segment .data) := by
  decide +kernel

/-- The lines of data are read in the data segment, wherever they begin. -/
theorem contents_separated (lines : List String) :
    ∃ number, contents (separated lines) =
      contentsFrom .text 0 (textLines lines) ++ contentsFrom .data number (dataLines lines) := by
  have hsegment : segmentAfter .text (textLines lines) = .text :=
    (segment_of_ne_segment (fun _ h => ne_segment_of_mem_linesFrom h) 0).1
  rw [contents, separated, contentsFrom_append, hsegment]
  by_cases hnone : dataLines lines = []
  · exact ⟨0, by rw [if_pos hnone, hnone]; rfl⟩
  · rw [if_neg hnone, contentsFrom_cons, parse_data]
    exact ⟨_, rfl⟩

theorem parses_separated (lines : List String) : Parses (separated lines) ↔ Parses lines := by
  have hdata : Parses (if dataLines lines = [] then [] else ".data" :: dataLines lines) ↔
      Parses (dataLines lines) := by
    by_cases hnone : dataLines lines = []
    · rw [if_pos hnone, hnone]
    · rw [if_neg hnone]
      exact List.forall_mem_cons.trans (and_iff_right ⟨_, parse_data⟩)
  rw [parses_iff_linesFrom .text lines, separated]
  exact List.forall_mem_append.trans (and_congr_right fun _ => hdata)

theorem separated_alike (lines : List String) : Alike lines (separated lines) := by
  obtain ⟨number, hcontents⟩ := contents_separated lines
  have hall : ∀ {wanted : Segment} (number : Nat),
      ∀ c ∈ contentsFrom wanted number (linesFrom wanted .text lines), c.segment = wanted :=
    fun number => (segment_of_ne_segment (fun _ h => ne_segment_of_mem_linesFrom h) number).2
  have hkept : ∀ (wanted other : Segment) (number : Nat), (contentsFrom wanted number
      (linesFrom wanted .text lines)).filter (·.segment = other) =
        if wanted = other then contentsFrom wanted number (linesFrom wanted .text lines) else [] := by
    intro wanted other number
    split
    · next heq => exact List.filter_eq_self.2 fun c hc => by simp [hall number c hc, heq]
    · next hne => exact List.filter_eq_nil_iff.2 fun c hc => by simp [hall number c hc, hne]
  refine ⟨(parses_separated lines).symm, ?_, ?_⟩
  · rw [text, text, hcontents, List.filter_append, textLines, dataLines, hkept, hkept, if_pos rfl,
      if_neg (by decide), List.append_nil]
    exact filter_contentsFrom_alike 0 0
  · rw [data, data, hcontents, List.filter_append, textLines, dataLines, hkept, hkept, if_pos rfl,
      if_neg (by decide), List.nil_append]
    exact filter_contentsFrom_alike 0 number

end Assembly.Source

/-- **Segments can be interleaved freely.** However often a source changes between its segments, it
is assembled to the same program as the lines of its text followed by the lines of its data, or
neither is assembled. A line on which a segment is named next to something else is a line like any
other here, and neither source is assembled. -/
theorem Program.toOption_ofLines_separated (lines : List String) (seed : LabelTable) :
    (ofLines (Assembly.Source.separated lines) seed).toOption = (ofLines lines seed).toOption :=
  (toOption_ofLines_of_alike (Assembly.Source.separated_alike lines) seed).symm

/-- A source that changes its segment twice. -/
example : Assembly.Source.separated
      [".data", "flags: .byte 1", ".text", "main: ret", ".data # again", "last: .byte 3"] =
    ["main: ret", ".data", "flags: .byte 1", "last: .byte 3"] := by
  decide +kernel

end Risc32
