import Mathlib.Algebra.Group.Int.Defs
import Risc32.Proofs.Assembly.Layout

/-!
# The data segment

What a source declares is what the machine can read. The lines of the data segment are laid out one
after the other while the source is read, long before it is known where the segment begins; the
size of the segment is found from the finished variables; and their bytes are written by a third
routine. `Program.data_ofLines` says that the three agree: every declared value can be read where
the declarations before it put it, and nothing else is in the segment.

The segment begins behind the instructions and so at a multiple of four. That is why words which are
aligned in the segment are aligned in memory.
-/

set_option autoImplicit false

namespace Risc32

open Assembly

/-! ## Values -/

/-- The signed and the unsigned numbers of the size. -/
def VariableKind.InRange : VariableKind → Int → Prop
  | .word, value => -2 ^ 31 ≤ value ∧ value ≤ 2 ^ 32 - 1
  | .byte, value => -2 ^ 7 ≤ value ∧ value ≤ 2 ^ 8 - 1

theorem VariableKind.admits_iff {kind : VariableKind} {value : Int} :
    kind.admits value ↔ kind.InRange value := by
  cases kind <;> simp [admits, InRange]

/-- What stands at the address, read as the kind says, is the value modulo the size. -/
def Memory.HasValue (m : Memory) (address : Word) (value : Int) : VariableKind → Prop
  | .word => ∀ site, ∃ w, m.readWord site address = .ok w ∧ (w.toNat : Int) = value % 2 ^ 32
  | .byte => ∀ site, ∃ b, m.readByte site address = .ok b ∧ (b.toNat : Int) = value % 2 ^ 8

theorem toNat_ofInt_word (value : Int) :
    ((BitVec.ofInt 32 value).toNat : Int) = value % 2 ^ 32 := by
  rw [BitVec.toNat_ofInt, Int.toNat_of_nonneg (Int.emod_nonneg _ (by decide))]
  rfl

/-- Memory with the bytes of a variable where the variable is has its value there, provided that it
is a place for a variable of the kind. -/
theorem Memory.hasValue_of_bytes {m : Memory} {v : Variable} {value : Int} {address : Word}
    (hvalue : v.value = BitVec.ofInt 32 value) (haddress : address.toNat = v.address)
    (haligned : v.kind = .word → v.address % 4 = 0) (hstop : v.stop ≤ m.size)
    (hbytes : ∀ k < v.kind.size, m.byteAt (v.address + k) = v.bytes.getD k 0) :
    m.HasValue address value v.kind := by
  cases hkind : v.kind with
  | word =>
    intro site
    simp only [hkind, VariableKind.size, Variable.bytes, Variable.stop] at hbytes hstop
    have ha : Word.Aligned address := by
      show address.toNat % 4 = 0
      rw [haddress, haligned hkind]
    refine ⟨v.value, ?_, by rw [hvalue, toNat_ofInt_word]⟩
    rw [readWord_eq, if_pos ha, if_pos (by omega), haddress, wordAt_eq_of_bytes hbytes]
  | byte =>
    intro site
    simp only [hkind, VariableKind.size, Variable.bytes, Variable.stop] at hbytes hstop
    have hbyte : m.byteAt v.address = v.value.setWidth 8 := hbytes 0 (by decide)
    refine ⟨v.value.setWidth 8, ?_, ?_⟩
    · rw [readByte_eq, if_pos (by omega), haddress, hbyte]
    · have hword := toNat_ofInt_word value
      rw [BitVec.toNat_setWidth, hvalue]
      omega

/-! ## Declarations -/

namespace Assembly

theorem literal?_eq_some_iff {kind : VariableKind} {text : String} {value : Int} :
    literal? kind text = some value ↔ integer? text = some value ∧ kind.InRange value := by
  rw [literal?, Option.filter_eq_some_iff, VariableKind.admits_iff]

/-- The texts are literals for these values, each of which the kind has room for. -/
theorem mapM_literal?_eq_some {kind : VariableKind} {texts : List String} {values : List Int}
    (h : texts.mapM (literal? kind) = some values) :
    texts.map integer? = values.map some ∧ ∀ value ∈ values, kind.InRange value := by
  induction texts generalizing values with
  | nil =>
    obtain rfl : values = [] := by simpa using h
    exact ⟨rfl, by simp⟩
  | cons text rest ih =>
    simp only [List.mapM_cons, Option.bind_eq_bind, Option.bind_eq_some_iff, Option.pure_def,
      Option.some.injEq] at h
    obtain ⟨value, hvalue, more, hmore, rfl⟩ := h
    obtain ⟨hliteral, hrange⟩ := literal?_eq_some_iff.1 hvalue
    obtain ⟨hliterals, hranges⟩ := ih hmore
    refine ⟨by simp [hliteral, hliterals], ?_⟩
    intro value' hmem
    rcases List.mem_cons.1 hmem with rfl | hmem
    · exact hrange
    · exact hranges value' hmem

/-- The line is a directive followed by literals, and the declaration has their values. -/
structure Content.Declares (c : Content) (d : Declaration) : Prop where
  reads : ∃ directive texts, c.tokens = directive :: texts ∧
    VariableKind.ofDirective? (Text.lower directive) = some d.kind ∧
    texts.map integer? = d.values.map some
  inRange : ∀ value ∈ d.values, d.kind.InRange value

theorem Content.declares_of_declaration? {c : Content} {d : Declaration}
    (h : c.declaration? = some d) : c.Declares d := by
  unfold declaration? at h
  split at h
  · next directive text texts htokens =>
    simp only [Option.bind_eq_bind, Option.bind_eq_some_iff, Option.pure_def,
      Option.some.injEq] at h
    obtain ⟨kind, hkind, first, hfirst, more, hmore, rfl⟩ := h
    have hall : (text :: texts).mapM (literal? kind) = some (first :: more) := by
      simp [List.mapM_cons, hfirst, hmore]
    obtain ⟨hliterals, hrange⟩ := mapM_literal?_eq_some hall
    exact ⟨⟨directive, text :: texts, htokens, hkind, hliterals⟩, hrange⟩
  · cases h

/-! ## Which lines are accepted -/

/-- Values are appended if all of them are literals in range, and only then. -/
theorem DataDraft.pushValues_accepts_iff {l : DataDraft} {kind : VariableKind}
    {directive : String} {texts : List String} :
    (∃ l', l.pushValues kind directive texts = .ok l') ↔
      ∀ text ∈ texts, ∃ value, integer? text = some value ∧ kind.InRange value := by
  induction texts generalizing l with
  | nil => simp [pushValues, pure, Except.pure]
  | cons text rest ih =>
    rw [List.forall_mem_cons]
    cases hliteral : literal? kind text with
    | none =>
      have hrefused : l.pushValues kind directive (text :: rest) =
          .error (.invalidDataValue directive text) := by
        rw [literal?] at hliteral
        simp [pushValues, List.foldlM_cons, hliteral, bind, Except.bind]
      constructor
      · rintro ⟨l', hl'⟩
        rw [hrefused] at hl'
        cases hl'
      · rintro ⟨⟨value, hvalue⟩, -⟩
        rw [literal?_eq_some_iff.2 hvalue] at hliteral
        cases hliteral
    | some value =>
      have hpushed : l.pushValues kind directive (text :: rest) =
          (l.push kind (BitVec.ofInt 32 value)).pushValues kind directive rest := by
        rw [literal?] at hliteral
        simp [pushValues, List.foldlM_cons, hliteral, bind, Except.bind]
      rw [hpushed, ih]
      exact ⟨fun hrest => ⟨⟨value, literal?_eq_some_iff.1 hliteral⟩, hrest⟩, fun h => h.2⟩

/-- A line that declares variables of a kind is accepted if its values are literals in range, and
only then. -/
theorem Draft.addLine_accepts_iff {draft : Draft} {line : Nat} {source : String}
    {label : Option String} {directive : String} {texts : List String} {kind : VariableKind}
    (hsegment : draft.segment = .data)
    (hparse : Line.parse source = .ok (.content label (directive :: texts)))
    (hkind : VariableKind.ofDirective? (Text.lower directive) = some kind) (htexts : texts ≠ []) :
    (∃ draft', draft.addLine line source = .ok draft') ↔
      ∀ text ∈ texts, ∃ value, integer? text = some value ∧ kind.InRange value := by
  have hdeclares : (∃ l, draft.data.addDeclaration line label (directive :: texts) = .ok l) ↔
      ∀ text ∈ texts, ∃ value, integer? text = some value ∧ kind.InRange value := by
    have hne : ¬texts.isEmpty := by simpa using htexts
    simp only [DataDraft.addDeclaration, hkind, if_neg hne]
    exact DataDraft.pushValues_accepts_iff
  rw [← hdeclares]
  simp only [addLine, hparse, addContent, hsegment]
  cases draft.data.addDeclaration line label (directive :: texts) with
  | error cause => simp
  | ok l => simp

/-- What is wrong with a line has its number. -/
theorem Draft.line_of_addLine_eq_error {draft : Draft} {line : Nat} {source : String} {e : Error}
    (hsegment : draft.segment = .data) (h : draft.addLine line source = .error e) :
    e.line = line := by
  unfold addLine addContent at h
  rw [hsegment] at h
  grind

theorem Draft.addLines_append {draft : Draft} {line : Nat} (before after : List String) :
    draft.addLines line (before ++ after) =
      draft.addLines line before >>= fun d => d.addLines (line + before.length) after := by
  induction before generalizing draft line with
  | nil => rfl
  | cons source rest ih =>
    rw [List.cons_append, addLines, addLines]
    cases hline : draft.addLine line source with
    | error e => rfl
    | ok d =>
      have hrest := @ih d (line + 1)
      rw [List.length_cons, Nat.add_comm rest.length, ← Nat.add_assoc]
      exact hrest

/-! ## Order -/

end Assembly

theorem VariableKind.le_align (kind : VariableKind) (n : Nat) : n ≤ kind.align n := by
  cases kind with
  | word =>
    rw [align]
    omega
  | byte => exact Nat.le_refl n

theorem VariableKind.align_word_lt (n : Nat) : word.align n < n + 4 := by
  rw [align]
  omega

/-- The variables lie between the addresses, one behind the other. -/
structure InOrder (low high : Nat) (vars : List Variable) : Prop where
  le : low ≤ high
  inside : ∀ v ∈ vars, low ≤ v.address ∧ v.stop ≤ high
  apart : vars.Pairwise fun v v' => v.stop ≤ v'.address

namespace InOrder

variable {low middle high : Nat} {vars vars' : List Variable}

theorem of_le (h : InOrder middle high vars) (hlow : low ≤ middle) : InOrder low high vars where
  le := Nat.le_trans hlow h.le
  inside v hv := ⟨Nat.le_trans hlow (h.inside v hv).1, (h.inside v hv).2⟩
  apart := h.apart

theorem append (h : InOrder low middle vars) (h' : InOrder middle high vars') :
    InOrder low high (vars ++ vars') where
  le := Nat.le_trans h.le h'.le
  inside v hv := by
    rcases List.mem_append.1 hv with hv | hv
    · exact ⟨(h.inside v hv).1, Nat.le_trans (h.inside v hv).2 h'.le⟩
    · exact ⟨Nat.le_trans h.le (h'.inside v hv).1, (h'.inside v hv).2⟩
  apart := by
    refine List.pairwise_append.2 ⟨h.apart, h'.apart, ?_⟩
    intro v hv v' hv'
    exact Nat.le_trans (h.inside v hv).2 (h'.inside v' hv').1

end InOrder

namespace Assembly

theorem variablesAt_inOrder (kind : VariableKind) (offset : Nat) (values : List Int) :
    InOrder offset (offset + kind.size * values.length) (variablesAt kind offset values) := by
  induction values generalizing offset with
  | nil => exact ⟨Nat.le_refl _, by simp [variablesAt], .nil⟩
  | cons value rest ih =>
    have hfirst : InOrder offset (offset + kind.size)
        [⟨offset, kind, BitVec.ofInt 32 value⟩] := by
      refine ⟨Nat.le_add_right _ _, ?_, List.pairwise_singleton _ _⟩
      intro v hv
      obtain rfl := List.mem_singleton.1 hv
      exact ⟨Nat.le_refl _, Nat.le_refl _⟩
    have hrest := hfirst.append (ih (offset + kind.size))
    rwa [Nat.add_assoc, Nat.add_comm kind.size, ← Nat.mul_succ] at hrest

namespace Source

theorem variablesFrom_inOrder (offset : Nat) (ds : List Declaration) :
    InOrder offset (stopFrom offset ds) (variablesFrom offset ds) := by
  induction ds generalizing offset with
  | nil => exact ⟨Nat.le_refl _, by simp [variablesFrom], .nil⟩
  | cons d rest ih =>
    have hfirst : InOrder offset (d.stop offset) (d.vars offset) :=
      (variablesAt_inOrder d.kind (d.start offset) d.values).of_le (d.kind.le_align offset)
    exact hfirst.append (ih (d.stop offset))

/-- A declaration has a variable, and the last one ends where the declaration does. -/
theorem getLast?_vars (d : Declaration) (offset : Nat) :
    (d.vars offset).getLast?.map (·.stop) = some (d.stop offset) := by
  have hlength : d.values.length - 1 = d.more.length := rfl
  obtain ⟨value, hlast⟩ : ∃ value, d.values[d.more.length]? = some value :=
    ⟨_, List.getElem?_eq_getElem (Nat.lt_succ_self d.more.length)⟩
  rw [Declaration.vars, List.getLast?_eq_getElem?, length_variablesAt, hlength,
    getElem?_variablesAt d.kind _ hlast, Option.map_some, Declaration.stop]
  show some (_ + d.kind.size * d.more.length + d.kind.size) =
    some (_ + d.kind.size * (d.more.length + 1))
  rw [Nat.mul_succ, Nat.add_assoc]

/-- Declarations end with their last variable. -/
theorem stopFrom_eq (offset : Nat) (ds : List Declaration) :
    ((variablesFrom offset ds).getLast?.map (·.stop)).getD offset = stopFrom offset ds := by
  induction ds generalizing offset with
  | nil => rfl
  | cons d rest ih =>
    rw [variablesFrom, stopFrom, List.getLast?_append, ← ih]
    cases (variablesFrom (d.stop offset) rest).getLast? with
    | none => simp [getLast?_vars]
    | some v => simp

/-- The first free byte of the data segment behind its first lines. -/
def endBefore (lines : List String) (index : Nat) : Nat :=
  stopFrom 0 ((declarations lines).take index)

theorem endBefore_succ {lines : List String} {index : Nat} {d : Declaration}
    (hd : (declarations lines)[index]? = some d) :
    endBefore lines (index + 1) = d.stop (endBefore lines index) := by
  rw [endBefore, List.take_add_one, hd, stopFrom_append]
  rfl

end Source

end Assembly

/-! ## The segment of a program -/

namespace Program

/-- The values that the line of the data segment declares are variables of the program. They stand
one behind the other from the offset `start`, which is where the lines before end, rounded up to a
multiple of four for words. -/
structure LaidOut (p : Program) (lines : List String) (index : Nat) (d : Declaration)
    (start : Nat) : Prop where
  word : d.kind = .word → start % 4 = 0 ∧
    Source.endBefore lines index ≤ start ∧ start < Source.endBefore lines index + 4
  byte : d.kind = .byte → start = Source.endBefore lines index
  stop : Source.endBefore lines (index + 1) = start + d.kind.size * d.values.length
  slot : ∀ (k : Nat) (value : Int), d.values[k]? = some value →
    p.data.vars[Source.variablesBefore lines index + k]? =
      some ⟨p.textEnd + (start + d.kind.size * k), d.kind, BitVec.ofInt 32 value⟩

namespace Assembles

variable {p : Program} {lines : List String} {seed : LabelTable}

theorem laidOut (h : p.Assembles lines seed) {index : Nat} {d : Declaration}
    (hd : (Source.declarations lines)[index]? = some d) :
    p.LaidOut lines index d (d.start (Source.endBefore lines index)) where
  word hword := by
    rw [Declaration.start, hword]
    exact ⟨VariableKind.align_word _, VariableKind.le_align _ _, VariableKind.align_word_lt _⟩
  byte hbyte := by
    rw [Declaration.start, hbyte]
    rfl
  stop := Source.endBefore_succ hd
  slot _ _ hk := h.variable_of_declaration hd hk

theorem start_data (h : p.Assembles lines seed) : p.data.start = p.textEnd := by
  rw [h.data]

theorem ordered (h : p.Assembles lines seed) : p.data.Ordered := by
  have horder := Source.variablesFrom_inOrder 0 (Source.declarations lines)
  rw [h.data]
  constructor
  · intro v hv
    obtain ⟨v', -, rfl⟩ := List.mem_map.1 hv
    exact Nat.le_add_right _ _
  · refine List.Pairwise.map _ ?_ horder.apart
    intro v v' hvv'
    show p.textEnd + v.address + v.kind.size ≤ p.textEnd + v'.address
    rw [Nat.add_assoc]
    exact Nat.add_le_add_left hvv' _

theorem length_image_eq_last (h : p.Assembles lines seed) :
    p.image.length = (p.data.vars.getLast?.map (·.stop)).getD p.textEnd := by
  rw [p.length_image, ← h.start_data, h.ordered.start_add_size]

theorem length_image_eq (h : p.Assembles lines seed) :
    p.image.length = p.textEnd + Source.endBefore lines (Source.data lines).length := by
  have hlength : (Source.data lines).length = (Source.declarations lines).length := by
    simpa using congrArg List.length h.declares
  rw [h.length_image_eq_last, h.data, Source.endBefore, hlength, List.take_length,
    ← Source.stopFrom_eq, List.getLast?_map]
  cases (Source.variablesFrom 0 (Source.declarations lines)).getLast? with
  | none => rfl
  | some v => exact Nat.add_assoc _ _ _

/-- Nothing else is in the segment. -/
theorem length_vars (h : p.Assembles lines seed) :
    p.data.vars.length = Source.variablesBefore lines (Source.data lines).length := by
  have hlength : (Source.data lines).length = (Source.declarations lines).length := by
    simpa using congrArg List.length h.declares
  rw [h.data, List.length_map, Source.length_variablesFrom, Source.variablesBefore, hlength,
    List.take_length]

/-- A declared value is read where it is laid out. -/
theorem hasValue (h : p.Assembles lines seed) {index start : Nat} {d : Declaration}
    (hd : p.LaidOut lines index d start) {k : Nat} {value : Int} (hk : d.values[k]? = some value)
    {m : Memory} (hfits : p.image.length ≤ m.size) {address : Word}
    (haddress : address.toNat = p.textEnd + (start + d.kind.size * k)) :
    (m.putBytes 0 p.image).HasValue address value d.kind := by
  have hv := List.mem_of_getElem? (hd.slot k value hk)
  refine Memory.hasValue_of_bytes (v := ⟨_, d.kind, BitVec.ofInt 32 value⟩) rfl haddress ?_ ?_ ?_
  · intro hword
    obtain ⟨hstart, -, -⟩ := hd.word hword
    show (p.textEnd + (start + d.kind.size * k)) % 4 = 0
    rw [textEnd, show d.kind.size = 4 from congrArg VariableKind.size hword]
    omega
  · rw [Memory.size_putBytes]
    exact Nat.le_trans (h.inside_of_mem hv).2 hfits
  · intro i hi
    exact byteAt_putBytes_image h.start_data h.ordered hv hi hfits

end Assembles

/-- A line that is refused behind accepted ones makes the source refused, whatever follows. -/
theorem ofLines_eq_error_of_addLine {before after : List String} {source : String}
    {seed : LabelTable} {draft : Draft} {e : Error}
    (hbefore : (Draft.new seed).addLines 0 before = .ok draft)
    (hline : draft.addLine before.length source = .error e) :
    ofLines (before ++ source :: after) seed = .error e := by
  have hread : (Draft.new seed).addLines 0 (before ++ source :: after) = .error e := by
    rw [Draft.addLines_append, hbefore, Nat.zero_add]
    show draft.addLines before.length (source :: after) = _
    rw [Draft.addLines, hline]
    rfl
  rw [ofLines, hread]
  rfl

/-- **The data segment.** Every line of the data segment of an accepted source is a declaration,
whose values have consecutive places behind the lines before it, words at a multiple of four. There
are no other variables. None overlaps another one or the instructions, the image ends with the last
of them, and between them it is zero. Once the program is loaded, each value can be read at its
place, modulo its size.

A declaring line that is reached in the data segment is accepted exactly if its values are literals
in the range of its kind; else the source is refused on account of this line. -/
theorem data_ofLines (lines : List String) (seed : LabelTable) :
    (∀ p, ofLines lines seed = .ok p →
      (∀ (index : Nat) (c : Content), (Source.data lines)[index]? = some c →
        ∃ d start, c.declaration? = some d ∧ c.Declares d ∧ p.LaidOut lines index d start ∧
          ∀ (σ : Type) (m : Machine σ), p.image.length ≤ m.cpu.memory.size →
            ∃ m', Machine.load p m = .ok () m' ∧
              ∀ (k : Nat) (value : Int), d.values[k]? = some value →
                ∀ address : Word, address.toNat = p.textEnd + (start + d.kind.size * k) →
                  m'.cpu.memory.HasValue address value d.kind) ∧
      p.data.vars.length = Source.variablesBefore lines (Source.data lines).length ∧
      (p.data.vars.Pairwise fun v v' => v.stop ≤ v'.address) ∧
      (∀ v ∈ p.data.vars, p.textEnd ≤ v.address) ∧
      p.image.length = (p.data.vars.getLast?.map (·.stop)).getD p.textEnd ∧
      p.image.length = p.textEnd + Source.endBefore lines (Source.data lines).length ∧
      ∀ i, p.textEnd ≤ i → i < p.image.length →
        (∀ v ∈ p.data.vars, i < v.address ∨ v.stop ≤ i) → p.image[i]? = some 0) ∧
    (∀ (before after : List String) (source : String) (draft : Draft) (label : Option String)
      (directive : String) (texts : List String) (kind : VariableKind),
      lines = before ++ source :: after → (Draft.new seed).addLines 0 before = .ok draft →
      draft.segment = .data → Line.parse source = .ok (.content label (directive :: texts)) →
      VariableKind.ofDirective? (Text.lower directive) = some kind → texts ≠ [] →
      ((∃ draft', draft.addLine before.length source = .ok draft') ↔
        ∀ text ∈ texts, ∃ value, integer? text = some value ∧ kind.InRange value) ∧
      ((¬∀ text ∈ texts, ∃ value, integer? text = some value ∧ kind.InRange value) →
        ∃ e, ofLines lines seed = .error e ∧ e.line = before.length)) := by
  constructor
  · intro p hp
    have h := assembles_ofLines hp
    refine ⟨?_, h.length_vars, h.ordered.apart, ?_, h.length_image_eq_last, h.length_image_eq, ?_⟩
    · intro index c hc
      obtain ⟨d, hd, hindex⟩ := h.declaration_of_data hc
      have hlaid := h.laidOut hindex
      refine ⟨d, _, hd, Content.declares_of_declaration? hd, hlaid, ?_⟩
      intro σ m hfits
      refine ⟨m.loaded p, (Machine.load_apply p m).trans (if_pos hfits), ?_⟩
      intro k value hk address haddress
      exact h.hasValue hlaid hk hfits haddress
    · intro v hv
      exact (h.inside_of_mem hv).1
    · intro i htext hi houtside
      exact getElem?_image_of_outside h.start_data h.ordered htext hi houtside
  · rintro before after source draft label directive texts kind rfl hbefore hsegment hparse hkind
      htexts
    -- The draft before the line is all that matters for it, and a line that is refused ends the
    -- reading.
    have haccepts : (∃ draft', draft.addLine before.length source = .ok draft') ↔ _ :=
      Draft.addLine_accepts_iff hsegment hparse hkind htexts
    refine ⟨haccepts, ?_⟩
    intro hrange
    rw [← haccepts] at hrange
    cases hline : draft.addLine before.length source with
    | error e =>
      exact ⟨e, ofLines_eq_error_of_addLine hbefore hline,
        Draft.line_of_addLine_eq_error hsegment hline⟩
    | ok draft' => exact absurd ⟨draft', hline⟩ hrange

/-- Words behind bytes, in two blocks, with the extreme values of both kinds. -/
def padded : List String := [
  "       .data",
  "flags: .byte -128, 255",
  "       .word -2147483648, 0xFFFFFFFF",
  "       .text",
  "main:  nop",
  "       .data",
  "last:  .byte 7"]

/-- In `padded`, the second word stands behind one instruction, two bytes, two bytes of padding and
a word. A byte cannot be declared as 256. -/
theorem data_ofLines_padded :
    (∃ p m', ofLines padded .empty = .ok p ∧
      (Source.data padded)[1]? = some ⟨2, .data, none, [".word", "-2147483648", "0xFFFFFFFF"]⟩ ∧
      p.LaidOut padded 1 ⟨2, none, .word, -2147483648, [0xFFFFFFFF]⟩ 4 ∧
      Machine.load p (Machine.new { memorySize := 64 } (#[] : Array Byte)) = .ok () m' ∧
      m'.cpu.memory.HasValue 12#32 0xFFFFFFFF .word ∧ p.image.length = 17) ∧
    ∃ e, ofLines ["  .data", "x: .byte 256"] .empty = .error e ∧ e.line = 1 := by
  constructor
  · have haccepted : (ofLines padded .empty).toOption.any fun p =>
        decide (p.textEnd = 4 ∧ p.image.length ≤ 64) := by decide +kernel
    obtain ⟨p, h, hp⟩ := any_toOption haccepted
    obtain ⟨htext, hfits⟩ := of_decide_eq_true hp
    obtain ⟨hlines, -, -, -, -, himage, -⟩ := (data_ofLines padded .empty).1 p h
    have hc : (Source.data padded)[1]? =
        some ⟨2, .data, none, [".word", "-2147483648", "0xFFFFFFFF"]⟩ := by decide +kernel
    obtain ⟨d, start, hd, -, hlaid, hread⟩ := hlines 1 _ hc
    have hdeclaration : Content.declaration?
        ⟨2, .data, none, [".word", "-2147483648", "0xFFFFFFFF"]⟩ =
        some ⟨2, none, .word, -2147483648, [0xFFFFFFFF]⟩ := by decide +kernel
    obtain rfl := Option.some.inj (hdeclaration.symm.trans hd)
    have hend : Source.endBefore padded 1 = 2 := by decide +kernel
    have hstart : start = 4 := by
      have := hlaid.word rfl
      omega
    subst hstart
    have hsize : p.image.length ≤
        (Machine.new { memorySize := 64 } (#[] : Array Byte)).cpu.memory.size := hfits
    obtain ⟨m', hload, hvalues⟩ := hread _ _ hsize
    have haddress : (12#32 : Word).toNat = p.textEnd + (4 + VariableKind.word.size * 1) := by
      rw [htext]
      rfl
    have htotal : Source.endBefore padded (Source.data padded).length = 13 := by decide +kernel
    refine ⟨p, m', h, hc, hlaid, hload, hvalues 1 _ rfl _ haddress, ?_⟩
    rw [himage, htext, htotal]
  · have hsegment : ((Draft.new .empty).addLines 0 ["  .data"]).toOption.any
        (·.segment = .data) := by decide +kernel
    obtain ⟨draft, hdraft, hdata⟩ := any_toOption hsegment
    have hparses : (Line.parse "x: .byte 256").toOption.any
        (· = .content (some "x") [".byte", "256"]) := by decide +kernel
    obtain ⟨line, hparse, hline⟩ := any_toOption hparses
    obtain rfl := of_decide_eq_true hline
    refine ((data_ofLines _ .empty).2 ["  .data"] [] "x: .byte 256" draft _ _ _ .byte rfl hdraft
      (of_decide_eq_true hdata) hparse (by decide +kernel) (by simp)).2 ?_
    intro hrange
    obtain ⟨value, hvalue, -, hhigh⟩ := hrange "256" (by simp)
    have hliteral : integer? "256" = some 256 := by decide +kernel
    obtain rfl := Option.some.inj (hliteral.symm.trans hvalue)
    exact absurd hhigh (by decide)

end Program

end Risc32
