import Risc32.Assembly.Assemble
import Risc32.Proofs.Assembly.Instructions
import Risc32.Proofs.Assembly.Scan
import Risc32.Proofs.Memory.Contents
import Risc32.Proofs.Machine.Runs

/-!
# Assembled programs

What is known of a program because it was assembled: its words are the encoded instructions of its
statements, one for each (`Program.Written`), and its functions lie inside of it and end in a
return (`Program.HasFunction`).

Together with the fact that assembled instructions fit, the first of these says that the machine
executes what was written: in memory, every word of the program is read back as the instruction
that its statement stands for.
-/

set_option autoImplicit false

namespace Risc32

open Assembly

namespace Assembly

/-- Statements have become instructions one by one, each at its own index. -/
theorem instructionsFrom_eq_ok {labels : LabelTable} {index : Nat} {statements : List Statement}
    {instructions : List Instruction}
    (h : instructionsFrom labels index statements = .ok instructions) :
    instructions.length = statements.length ∧
      ∀ {k : Nat} {s : Statement}, statements[k]? = some s →
        ∃ i, instructionOf ⟨labels, index + k⟩ s.toCommand = .ok i ∧ instructions[k]? = some i := by
  -- The rest counts from the next index, so the index is general.
  induction statements generalizing index instructions with
  | nil =>
    obtain rfl := Except.ok.inj h
    exact ⟨rfl, fun hs => by simp at hs⟩
  | cons s₀ rest ih =>
    rw [instructionsFrom] at h
    split at h
    · cases h
    · next i₀ hi₀ =>
      obtain ⟨is, his, h⟩ := bind_eq_ok.1 h
      obtain rfl := Except.ok.inj h
      obtain ⟨hlength, hrest⟩ := ih his
      refine ⟨by simp [hlength], ?_⟩
      intro k s hs
      cases k with
      | zero =>
        obtain rfl : s₀ = s := by simpa using hs
        exact ⟨i₀, hi₀, rfl⟩
      | succ k =>
        obtain ⟨i, hi, hk⟩ := hrest (by simpa using hs)
        rw [Nat.add_assoc, Nat.add_comm 1 k] at hi
        exact ⟨i, hi, by simpa using hk⟩

/-- A statement that is no instruction is an error, and the first one is the error. -/
theorem instructionsFrom_eq_error {labels : LabelTable} {index : Nat}
    {statements : List Statement} {k : Nat} {s : Statement} {cause : Cause}
    (hs : statements[k]? = some s)
    (hbad : instructionOf ⟨labels, index + k⟩ s.toCommand = .error cause) :
    ∃ e, instructionsFrom labels index statements = .error e ∧
      ((∀ j < k, ∀ t, statements[j]? = some t →
        ∃ i, instructionOf ⟨labels, index + j⟩ t.toCommand = .ok i) → e = s.error cause) := by
  induction statements generalizing index k with
  | nil => simp at hs
  | cons s₀ rest ih =>
    cases k with
    | zero =>
      obtain rfl : s₀ = s := by simpa using hs
      have hbad : instructionOf ⟨labels, index⟩ s₀.toCommand = .error cause := hbad
      exact ⟨s₀.error cause, by simp [instructionsFrom, hbad], fun _ => rfl⟩
    | succ k =>
      cases hfirst : instructionOf ⟨labels, index⟩ s₀.toCommand with
      | error cause₀ =>
        -- An earlier error hides this one, and then nothing is claimed of it.
        refine ⟨s₀.error cause₀, by simp [instructionsFrom, hfirst], ?_⟩
        intro hearlier
        obtain ⟨i, hi⟩ := hearlier 0 (Nat.zero_lt_succ k) s₀ rfl
        exact absurd (hfirst.symm.trans hi) (by simp)
      | ok i₀ =>
        rw [← Nat.add_assoc, Nat.add_right_comm] at hbad
        obtain ⟨e, he, hexact⟩ := ih (by simpa using hs) hbad
        refine ⟨e, by simp [instructionsFrom, hfirst, he, bind, Except.bind], ?_⟩
        intro hearlier
        apply hexact
        intro j hj t ht
        obtain ⟨i, hi⟩ := hearlier (j + 1) (Nat.succ_lt_succ hj) t (by simpa using ht)
        rw [← Nat.add_assoc, Nat.add_right_comm] at hi
        exact ⟨i, hi⟩

end Assembly

namespace Program

/-- The words of the program are the encoded instructions of the statements. -/
structure Written (p : Program) (labels : LabelTable) (statements : List Statement) : Prop where
  length : p.words.length = statements.length
  word : ∀ {k : Nat} {s : Statement}, statements[k]? = some s →
    ∃ i, instructionOf ⟨labels, k⟩ s.toCommand = .ok i ∧ p.words[k]? = some i.encode

/-- What the second pass makes of a draft. -/
theorem toProgram_eq_ok {draft : Draft} {p : Program} (h : draft.toProgram = .ok p) :
    draft.allLabels = .ok p.symbols ∧ p.Written p.symbols draft.statements.toList ∧
      p.data = draft.data.area draft.address ∧
      p.functions = functionsFrom draft.entries 0 none .empty draft.statements.toList := by
  obtain ⟨labels, hlabels, h⟩ := bind_eq_ok.1 h
  obtain ⟨instructions, hinstructions, h⟩ := bind_eq_ok.1 h
  obtain rfl := Except.ok.inj h
  obtain ⟨hlength, hword⟩ := instructionsFrom_eq_ok hinstructions
  refine ⟨hlabels, ⟨by simp [hlength], ?_⟩, rfl, rfl⟩
  intro k s hs
  obtain ⟨i, hi, hk⟩ := hword hs
  rw [Nat.zero_add] at hi
  exact ⟨i, hi, by simp [hk]⟩

/-- What assembling does, pass by pass. -/
theorem ofLines_eq_ok {lines : List String} {seed : LabelTable} {p : Program}
    (h : ofLines lines seed = .ok p) :
    ∃ draft labels, (Draft.new seed).addLines 0 lines = .ok draft ∧ draft.allLabels = .ok labels ∧
      p.Written labels draft.statements.toList ∧
      p.functions = functionsFrom draft.entries 0 none .empty draft.statements.toList := by
  obtain ⟨draft, hdraft, h⟩ := bind_eq_ok.1 h
  obtain ⟨hlabels, hwritten, -, hfunctions⟩ := toProgram_eq_ok h
  exact ⟨draft, p.symbols, hdraft, hlabels, hwritten, hfunctions⟩

/-- A source with a statement that is no instruction is refused, on account of the first one. -/
theorem ofLines_eq_error {lines : List String} {seed : LabelTable} {draft : Draft}
    {labels : LabelTable} (hdraft : (Draft.new seed).addLines 0 lines = .ok draft)
    (hlabels : draft.allLabels = .ok labels) {index : Nat} {s : Statement} {cause : Cause}
    (hs : draft.statements.toList[index]? = some s)
    (hbad : instructionOf ⟨labels, index⟩ s.toCommand = .error cause) :
    ∃ e, ofLines lines seed = .error e ∧
      ((∀ j < index, ∀ t, draft.statements.toList[j]? = some t →
        ∃ i, instructionOf ⟨labels, j⟩ t.toCommand = .ok i) → e = s.error cause) := by
  rw [← Nat.zero_add index] at hbad
  obtain ⟨e, he, hexact⟩ := instructionsFrom_eq_error hs hbad
  refine ⟨e, by simp [ofLines, Draft.toProgram, hdraft, hlabels, he, bind, Except.bind], ?_⟩
  intro hearlier
  apply hexact
  intro j hj t ht
  rw [Nat.zero_add]
  exact hearlier j hj t ht

/-- Every word of an assembled program is an instruction, the one its statement stands for. -/
theorem Written.decode {p : Program} {labels : LabelTable} {statements : List Statement}
    (h : p.Written labels statements) {k : Nat} {s : Statement} (hs : statements[k]? = some s) :
    ∃ i w, instructionOf ⟨labels, k⟩ s.toCommand = .ok i ∧ p.words[k]? = some w ∧
      Instruction.decode w = some i := by
  obtain ⟨i, hi, hw⟩ := h.word hs
  exact ⟨i, i.encode, hi, hw, Instruction.decode_encode (instructionOf_fits hi)⟩

/-- The extent is one of a function in the program: it has an instruction, and the last one is a
return. -/
def HasFunction (p : Program) (x : Extent) : Prop :=
  ∃ first w i, x.entry = 4 * first ∧ 0 < x.size ∧ p.words[first + x.size - 1]? = some w ∧
    Instruction.decode w = some i ∧ i.isReturn

/-- The functions of an assembled program lie inside of it and end in a return. -/
theorem hasFunction_of_mem {lines : List String} {seed : LabelTable} {p : Program}
    (h : ofLines lines seed = .ok p) {x : Extent} (hx : x ∈ p.functions.extents) :
    p.HasFunction x := by
  obtain ⟨draft, labels, -, -, hwritten, hfunctions⟩ := ofLines_eq_ok h
  rw [hfunctions] at hx
  have hx := (functionsOf_functionsFrom draft.entries draft.statements.toList).sound x hx
  obtain ⟨s, hs, hret⟩ := hx.returns
  obtain ⟨i, w, hi, hw, hdecode⟩ := hwritten.decode hs
  have hentry : x.entry = 4 * (x.entry / 4) := by
    have := hx.aligned
    omega
  exact ⟨x.entry / 4, w, i, hentry, hx.nonempty, hw, hdecode, (instructionOf_isReturn hi).2 hret⟩

end Program

/-! ## In memory -/

namespace Machine

variable {σ : Type}

/-- A program that fits stands in memory once it is loaded. -/
theorem holds_loaded {p : Program} {m : Machine σ} (hfits : p.image.length ≤ m.cpu.memory.size) :
    (m.loaded p).cpu.memory.Holds 0 p.words :=
  Memory.holds_putBytes (by rwa [Nat.zero_add])

/-- **What is executed is what was written.** When an assembled program is loaded, the word at four
times the index of a statement is the word of that statement, and it is decoded as the instruction
that the assembler made of the statement. The program ends behind its last statement. -/
theorem load_ofLines {lines : List String} {seed : LabelTable} {p : Program}
    (h : Program.ofLines lines seed = .ok p) (hcount : p.words.length < 2 ^ 30) (m : Machine σ)
    (hfits : p.image.length ≤ m.cpu.memory.size) :
    ∃ draft labels m', (Draft.new seed).addLines 0 lines = .ok draft ∧
      draft.allLabels = .ok labels ∧ load p m = .ok () m' ∧
      p.textEnd = 4 * draft.statements.size ∧ m'.programEnd.toNat = 4 * draft.statements.size ∧
      ∀ (index : Nat) (s : Statement), draft.statements[index]? = some s →
        ∃ i w, instructionOf ⟨labels, index⟩ s.toCommand = .ok i ∧ p.words[index]? = some w ∧
          (∀ site, m'.cpu.memory.readWord site (BitVec.ofNat 32 (4 * index)) = .ok w) ∧
          Instruction.decode w = some i := by
  obtain ⟨draft, labels, hdraft, hlabels, hwritten, -⟩ := Program.ofLines_eq_ok h
  have hlength : p.words.length = draft.statements.size := by
    rw [hwritten.length, Array.length_toList]
  refine ⟨draft, labels, m.loaded p, hdraft, hlabels, (load_apply p m).trans (if_pos hfits),
    by rw [Program.textEnd, hlength], ?_, ?_⟩
  · show (BitVec.ofNat 32 (4 * p.words.length)).toNat = _
    rw [BitVec.toNat_ofNat, Nat.mod_eq_of_lt (by omega), hlength]
  · intro index s hs
    obtain ⟨i, w, hi, hw, hdecode⟩ := hwritten.decode (k := index) (s := s) (by simpa using hs)
    have hindex : index < p.words.length := (List.getElem?_eq_some_iff.1 hw).1
    refine ⟨i, w, hi, hw, (holds_loaded hfits).readWord hw ?_ rfl, hdecode⟩
    rw [BitVec.toNat_ofNat, Nat.mod_eq_of_lt (by omega), Nat.zero_add]

/-- A line of every family, with a pseudo-instruction that becomes two. -/
def everyFamily : List String := [
  "main: movia r1, value",
  "      ldw   r2, 0(r1)",
  "      slli  r2, r2, 31",
  "      sub   r3, r0, r2",
  "      cmpgei r3, r3, -1",
  "loop: bne   r3, r0, loop",
  "      call  main",
  "      callr r1",
  "      ret",
  "      .data",
  "value: .word 7"]

/-- `everyFamily` is accepted and fits into a small machine, and is executed as it was written. -/
theorem load_ofLines_everyFamily :
    let m : Machine (Array Byte) := .new { memorySize := 64 } #[]
    ∃ p draft m', Program.ofLines everyFamily .empty = .ok p ∧
      (p.words.length < 2 ^ 30 ∧ p.image.length ≤ m.cpu.memory.size) ∧
      (Draft.new .empty).addLines 0 everyFamily = .ok draft ∧ load p m = .ok () m' ∧
      ∀ (index : Nat) (s : Statement), draft.statements[index]? = some s →
        ∃ i w, m'.cpu.memory.readWord ⟨"fetch", 0⟩ (BitVec.ofNat 32 (4 * index)) = .ok w ∧
          Instruction.decode w = some i := by
  intro m
  have haccepted : (Program.ofLines everyFamily .empty).toOption.any fun p =>
      decide (p.words.length < 2 ^ 30 ∧ p.image.length ≤ m.cpu.memory.size) := by
    decide +kernel
  obtain ⟨p, h, hp⟩ := any_toOption haccepted
  obtain ⟨hcount, hfits⟩ := of_decide_eq_true hp
  obtain ⟨draft, labels, m', hdraft, -, hload, -, -, hwords⟩ := load_ofLines h hcount m hfits
  refine ⟨p, draft, m', h, ⟨hcount, hfits⟩, hdraft, hload, ?_⟩
  intro index s hs
  obtain ⟨i, w, -, -, hread, hdecode⟩ := hwords index s hs
  exact ⟨i, w, hread _, hdecode⟩

end Machine

end Risc32
