import Risc32.Proofs.Assembly.Source
import Risc32.Proofs.Assembly.SymbolOperands
import Risc32.Proofs.Compiled.Calls

/-!
# Where symbols lead

A branch to a symbol goes to the address of the symbol, or is a fault there, or the source is not
accepted (`Machine.branches_ofLines`).

For a call this is not so. Its word has room for twenty-six bits of the address, counted in words,
and the rest of it is lost: which of four bytes it is, and which region of 256 MiB. The assembler
accepts every address all the same. A call reaches the address it was written with exactly if that
is a multiple of four in the region of the call, and else goes somewhere else
(`Machine.calls_ofLines`).
-/

set_option autoImplicit false

namespace Risc32

open Assembly

/-! ## Addresses -/

/-- The distance of a branch, added to where it is counted from. -/
theorem add_distance {index address : Nat} (h : InReach index address) :
    BitVec.ofNat 32 (4 * (index + 1)) + (BitVec.ofInt 16 (distance index address)).signExtend 32 =
      BitVec.ofNat 32 address := by
  have hfits : (BitVec.ofInt 16 (distance index address)).toInt = distance index address := by
    rw [BitVec.toInt_ofInt]
    apply Int.bmod_eq_of_le
    · exact h.1
    · exact Int.lt_of_le_of_lt h.2 (by decide)
  rw [BitVec.signExtend, hfits, ← BitVec.ofInt_natCast, ← BitVec.ofInt_add,
    ← BitVec.ofInt_natCast]
  congr 1
  rw [distance]
  omega

/-- The target is in the region of the program counter, where the form counts words. -/
theorem JumpForm.toNat_target {f : JumpForm} (h : f.immediate.toNat < 2 ^ 26) (pc : Word) :
    (f.target pc).toNat = pc.toNat / 2 ^ 28 * 2 ^ 28 + 4 * f.immediate.toNat := by
  have hwords : (f.immediate <<< 2).toNat = 4 * f.immediate.toNat := by
    rw [BitVec.toNat_shiftLeft, Nat.shiftLeft_eq]
    omega
  have hbits : pc &&& 0xF0000000#32 = pc >>> 28 <<< 28 := by
    have hmask : ∀ i < 32, (0xF0000000#32).getLsbD i = decide (28 ≤ i) := by decide
    apply BitVec.eq_of_getLsbD_eq
    intro i hi
    rw [BitVec.getLsbD_and, hmask i hi, BitVec.getLsbD_shiftLeft, BitVec.getLsbD_ushiftRight]
    by_cases hlow : i < 28
    · simp [hlow, Nat.not_le.2 hlow]
    · simp [hlow, Nat.not_lt.1 hlow, hi]
  have hregion : (pc &&& 0xF0000000#32).toNat = pc.toNat / 2 ^ 28 * 2 ^ 28 := by
    rw [hbits, BitVec.toNat_shiftLeft, BitVec.toNat_ushiftRight, Nat.shiftLeft_eq,
      Nat.shiftRight_eq_div_pow]
    omega
  rw [target, BitVec.toNat_or, hregion, hwords, ← Nat.shiftLeft_eq,
    ← Nat.shiftLeft_add_eq_or_of_lt (by omega)]

/-! ## Statements with a symbol as target -/

namespace Assembly.Source

/-- The statement at the index branches to a symbol with the address. -/
def BranchesTo (lines : List String) (labels : LabelTable) (index : Nat) (s : Statement)
    (taken : RegisterFile → Prop) (address : Nat) : Prop :=
  (statements lines)[index]? = some s ∧
    ∃ target, s.toCommand.IsBranch taken target ∧ isIdentifier target ∧
      labels.address? target = some address

/-- The statement at the index calls a symbol with the address. -/
def CallsTo (lines : List String) (labels : LabelTable) (index : Nat) (s : Statement)
    (address : Nat) : Prop :=
  (statements lines)[index]? = some s ∧
    ∃ name, s.toCommand = ⟨"call", [name]⟩ ∧ isIdentifier name ∧
      labels.address? name = some address

end Assembly.Source

namespace Machine

variable {σ : Type}

/-- The instruction at the index has just been fetched. -/
structure JustFetched (m : Machine σ) (p : Program) (index : Nat) : Prop where
  ir : p.words[index]? = some m.cpu.ir
  pc : m.cpu.pc = BitVec.ofNat 32 (4 * (index + 1))

/-- A machine that holds the program fetches its instructions. -/
theorem fetch_of_holds {m : Machine σ} {p : Program} {index : Nat} {w : Word}
    (h : m.cpu.memory.Holds 0 p.words) (hw : p.words[index]? = some w)
    (hpc : m.cpu.pc.toNat = 4 * index) :
    fetch m = .ok () (m.fetched w) ∧ (m.fetched w).JustFetched p index := by
  have hread := h.readWord hw (by rw [hpc, Nat.zero_add]) rfl ⟨"fetch", m.cpu.pc⟩
  refine ⟨by rw [fetch_apply, hread]; rfl, hw, ?_⟩
  show m.cpu.pc + 4 = _
  apply BitVec.eq_of_toNat_eq
  rw [BitVec.toNat_add, hpc, BitVec.toNat_ofNat]
  rfl

/-! ## Branches -/

/-- What a branch comes to. If it is taken it goes to the address, or faults there and changes
nothing. If it is not, nothing is changed either. -/
structure Lands (m : Machine σ) (name : String) (taken : Prop) (address : Nat)
    (r : EStateM.Result Halt (Machine σ) Unit) : Prop where
  goes : taken → address % 4 = 0 →
    r = .ok () { m with cpu := { m.cpu with pc := BitVec.ofNat 32 address } }
  faults : taken → address % 4 ≠ 0 →
    r = .error (.fault (.misaligned ⟨name, m.cpu.pc⟩ (BitVec.ofNat 32 address))) m
  stays : ¬taken → r = .ok () m

theorem lands_of_decode {m : Machine σ} {op : Opcode} {condition : Arithmetic.Condition}
    {a b : Byte} {offset : BitVec 16} {address : Nat} (fuel : Nat)
    (hdecode : Instruction.decode m.cpu.ir = some (.ofImmediate op a b offset))
    (hrole : op.role = .branch condition)
    (haddress : m.cpu.pc + offset.signExtend 32 = BitVec.ofNat 32 address) :
    m.Lands op.name (condition.holds (m.cpu.registers.get a) (m.cpu.registers.get b)) address
      (execute fuel m) := by
  have hact : execute fuel m = onProcessor (Instruction.ofImmediate op a b offset).act m :=
    execute_of_act fuel hdecode rfl
  have htarget : m.cpu.pc + ImmediateForm.signed ⟨op.code, a, b, offset⟩ =
      BitVec.ofNat 32 address := haddress
  rw [hact, onProcessor_apply]
  simp only [Instruction.act, Instruction.ofImmediate, hrole, Processor.register]
  constructor
  · intro htaken haligned
    have hword := (Word.aligned_ofNat_iff address).2 haligned
    simp [htaken, htarget, Processor.jump, checkAligned, hword]
  · intro htaken hmisaligned
    have hword : ¬Word.Aligned (BitVec.ofNat 32 address) := by
      rwa [Word.aligned_ofNat_iff]
    simp [htaken, htarget, Processor.jump, checkAligned, hword]
  · intro hnot
    simp [hnot]

/-- A branch to a symbol in an assembled program, once it has been fetched. -/
theorem lands_of_branchesTo {lines : List String} {seed : LabelTable} {p : Program}
    (h : p.Assembles lines seed) {index : Nat} {s : Statement} {taken : RegisterFile → Prop}
    {address : Nat} (hbranch : Source.BranchesTo lines p.symbols index s taken address) :
    InReach index address ∧
      ∀ (fuel : Nat) (m : Machine σ), m.JustFetched p index →
        m.Lands s.mnemonic (taken m.cpu.registers) address (execute fuel m) := by
  obtain ⟨hs, target, hbranch, hid, haddress⟩ := hbranch
  obtain ⟨op, condition, a, b, hrole, hop, hholds, hinstruction⟩ := hbranch.instructionOf_symbol hid
  obtain ⟨i, w, hi, hw, hdecode⟩ := h.written.decode hs
  rw [hinstruction ⟨p.symbols, index⟩ address haddress, ite_eq_ok] at hi
  obtain ⟨hreach, rfl⟩ := hi
  refine ⟨hreach, ?_⟩
  intro fuel m hm
  obtain rfl := Option.some.inj (hw.symm.trans hm.ir)
  have hpc : m.cpu.pc + (BitVec.ofInt 16 (distance index address)).signExtend 32 =
      BitVec.ofNat 32 address := by
    rw [hm.pc, add_distance hreach]
  have hlands := lands_of_decode fuel hdecode hrole hpc
  rw [hop, hholds] at hlands
  exact hlands

/-- **Branches to symbols land on the symbol.** In a source that is accepted, every branch to a
symbol is in reach of it, and once it has been fetched, it goes to the address of the symbol or
faults there, as its registers are. A source with a branch out of reach is not accepted, and that is
the error unless a statement before it is wrong. -/
theorem branches_ofLines (lines : List String) (seed : LabelTable) :
    (∀ p, Program.ofLines lines seed = .ok p →
      (∀ s ∈ Source.statements lines,
        (s.mnemonic = "br" ∨ ∃ asks, comparison? s.mnemonic = some asks) →
        ∃ taken target, s.toCommand.IsBranch taken target) ∧
      ∀ (index : Nat) (s : Statement) (taken : RegisterFile → Prop) (address : Nat),
        Source.BranchesTo lines p.symbols index s taken address →
        InReach index address ∧
        ∀ (fuel : Nat) (m : Machine σ), m.JustFetched p index →
          m.Lands s.mnemonic (taken m.cpu.registers) address (execute fuel m)) ∧
    ∀ (draft : Draft) (labels : LabelTable), (Draft.new seed).addLines 0 lines = .ok draft →
      draft.allLabels = .ok labels →
      ∀ (index : Nat) (s : Statement) (taken : RegisterFile → Prop) (address : Nat),
        Source.BranchesTo lines labels index s taken address →
        ((∃ i, instructionOf ⟨labels, index⟩ s.toCommand = .ok i) ↔ InReach index address) ∧
        (¬InReach index address →
          ∃ e, Program.ofLines lines seed = .error e ∧
            ((∀ k < index, ∀ t, (Source.statements lines)[k]? = some t →
              ∃ i, instructionOf ⟨labels, k⟩ t.toCommand = .ok i) →
              e = s.error (.branchRange (distance index address)))) := by
  constructor
  · intro p h
    have hassembles := Program.assembles_ofLines h
    constructor
    · intro s hs hname
      obtain ⟨index, hs⟩ := List.mem_iff_getElem?.1 hs
      obtain ⟨i, hi, -⟩ := hassembles.written.word hs
      exact isBranch_of_instructionOf hi hname
    · intro index s taken address hbranch
      exact lands_of_branchesTo hassembles hbranch
  · rintro draft labels hdraft hlabels index s taken address ⟨hs, target, hbranch, hid, haddress⟩
    obtain ⟨op, condition, a, b, -, -, -, hinstruction⟩ := hbranch.instructionOf_symbol hid
    have hstatements : draft.statements.toList = Source.statements lines :=
      (Draft.reads_addLines hdraft).statements
    -- What instruction the branch becomes depends on the distance only.
    constructor
    · simp only [hinstruction ⟨labels, index⟩ address haddress, ite_eq_ok, exists_and_left,
        exists_eq', and_true]
    · intro hfar
      have hbad := (hinstruction ⟨labels, index⟩ address haddress).trans (if_neg hfar)
      rw [← hstatements] at hs ⊢
      exact Program.ofLines_eq_error hdraft hlabels hs hbad

/-- Branches back, forth and to a place where no instruction can be. -/
def countdown : List String := [
  "main: movi r1, 2",
  "loop: subi r1, r1, 1",
  "      bgt  r1, r0, loop",
  "      ble  r1, r0, done",
  "      nop",
  "done: br   odd",
  "      .data",
  "      .byte 1",
  "odd:  .byte 2"]

/-- A symbol that the first instruction cannot branch to. -/
def remote : LabelTable :=
  ⟨[("far", 40000)], by simp⟩

/-- A small machine with the program in memory and one in `r1`, at an instruction. -/
def poised (p : Program) (index : Nat) : Machine (Array Byte) :=
  let m := (Machine.new { memorySize := 64 } #[]).loaded p
  { m with cpu := { m.cpu with
      registers := m.cpu.registers.set 1#8 1#32
      pc := BitVec.ofNat 32 (4 * index) } }

theorem poised_fetches {p : Program} (hfits : p.image.length ≤ 64) {index : Nat} {w : Word}
    (hw : p.words[index]? = some w) (hindex : index < 16) :
    fetch (poised p index) = .ok () ((poised p index).fetched w) ∧
      ((poised p index).fetched w).JustFetched p index := by
  apply fetch_of_holds
  · exact holds_loaded (m := Machine.new { memorySize := 64 } #[]) hfits
  · exact hw
  · show (BitVec.ofNat 32 (4 * index)).toNat = 4 * index
    rw [BitVec.toNat_ofNat]
    omega

/-- In `countdown`, the third instruction goes back to the second if `r1` is positive, and the last
one faults. A branch to `far` is too far. -/
theorem branches_ofLines_countdown :
    (∃ p, Program.ofLines countdown .empty = .ok p ∧
      (∃ m, fetch (poised p 2) = .ok () m ∧
        execute 0 m = .ok () { m with cpu := { m.cpu with pc := 4#32 } }) ∧
      ∃ m, fetch (poised p 5) = .ok () m ∧
        execute 0 m = .error (.fault (.misaligned ⟨"br", 24#32⟩ 25#32)) m) ∧
    ∃ e, Program.ofLines ["br far"] remote = .error e ∧
      e = ⟨0, "br far", .branchRange 39996⟩ := by
  constructor
  · have haccepted : (Program.ofLines countdown .empty).toOption.any fun p =>
        decide (p.words.length = 6 ∧ p.image.length ≤ 64 ∧
          p.symbols.address? "loop" = some 4 ∧ p.symbols.address? "odd" = some 25) := by
      decide +kernel
    obtain ⟨p, h, hp⟩ := any_toOption haccepted
    obtain ⟨hlength, hfits, hloop, hodd⟩ := of_decide_eq_true hp
    obtain ⟨-, hbranches⟩ := (@branches_ofLines (Array Byte) countdown .empty).1 p h
    have hless : comparison? "blt" = some fun a b => a.toInt < b.toInt := rfl
    have hr0 : Register.ofName? "r0" = some 0 := by decide
    have hr1 : Register.ofName? "r1" = some 1 := by decide
    have hback : Source.BranchesTo countdown p.symbols 2 ⟨⟨"blt", ["r0", "r1", "loop"]⟩, 2⟩
        (fun file => (file.read 0).toInt < (file.read 1).toInt) 4 :=
      ⟨by decide +kernel, "loop", .compare "loop" hless hr0 hr1, by decide, hloop⟩
    have hout : Source.BranchesTo countdown p.symbols 5 ⟨⟨"br", ["odd"]⟩, 5⟩ (fun _ => True) 25 :=
      ⟨by decide +kernel, "odd", .always "odd", by decide, hodd⟩
    refine ⟨p, h, ?_, ?_⟩
    · have hw : p.words[2]? = some p.words[2] := List.getElem?_eq_getElem (by omega)
      obtain ⟨hfetch, hm⟩ := poised_fetches hfits hw (by decide)
      have hlands := (hbranches 2 _ _ 4 hback).2 0 _ hm
      have htaken : ((RegisterFile.zero.set 1#8 1#32).read 0).toInt <
          ((RegisterFile.zero.set 1#8 1#32).read 1).toInt := by decide
      exact ⟨_, hfetch, hlands.goes htaken rfl⟩
    · have hw : p.words[5]? = some p.words[5] := List.getElem?_eq_getElem (by omega)
      obtain ⟨hfetch, hm⟩ := poised_fetches hfits hw (by decide)
      have hlands := (hbranches 5 _ _ 25 hout).2 0 _ hm
      exact ⟨_, hfetch, hlands.faults trivial (by decide)⟩
  · have hread : ((Draft.new remote).addLines 0 ["br far"]).toOption.any fun draft =>
        draft.allLabels.toOption.any fun labels => labels.address? "far" == some 40000 := by
      decide +kernel
    obtain ⟨draft, hdraft, hlabelled⟩ := any_toOption hread
    obtain ⟨labels, hlabels, hfar⟩ := any_toOption hlabelled
    have hout : Source.BranchesTo ["br far"] labels 0 ⟨⟨"br", ["far"]⟩, 0⟩ (fun _ => True) 40000 :=
      ⟨by decide +kernel, "far", .always "far", by decide, eq_of_beq hfar⟩
    have hbranches := (@branches_ofLines (Array Byte) ["br far"] remote).2
    obtain ⟨-, hfails⟩ := hbranches draft labels hdraft hlabels 0 _ _ _ hout
    obtain ⟨e, he, hexact⟩ := hfails (by decide)
    exact ⟨e, he, hexact (fun k hk => absurd hk (Nat.not_lt_zero k))⟩

/-! ## Calls -/

/-- The address that a call of an address goes to: what its word has room for, in the region of
the program counter. -/
def reached (pc address : Nat) : Nat :=
  pc / 2 ^ 28 * 2 ^ 28 + address % 2 ^ 28 / 4 * 4

theorem reached_eq_iff {pc address : Nat} :
    reached pc address = address ↔ address % 4 = 0 ∧ address / 2 ^ 28 = pc / 2 ^ 28 := by
  rw [reached]
  omega

theorem toNat_target_ofNat (opcode : Byte) (address : Nat) (pc : Word) :
    (JumpForm.target ⟨opcode, BitVec.ofNat 32 (address / 4 % 2 ^ 26)⟩ pc).toNat =
      reached pc.toNat address := by
  have hwords : (BitVec.ofNat 32 (address / 4 % 2 ^ 26)).toNat = address / 4 % 2 ^ 26 := by
    rw [BitVec.toNat_ofNat]
    omega
  have hfits : (BitVec.ofNat 32 (address / 4 % 2 ^ 26)).toNat < 2 ^ 26 := by
    rw [hwords]
    exact Nat.mod_lt _ (Nat.two_pow_pos 26)
  rw [JumpForm.toNat_target hfits, hwords, reached]
  omega

/-- **Calls of symbols.** In a source that is accepted, a call of a symbol goes to the symbol
exactly if the address of the symbol is a multiple of four in the region of the call. It goes to
another address otherwise, for the assembler accepts every address that is a word. -/
theorem calls_ofLines (lines : List String) (seed : LabelTable) :
    (∀ p, Program.ofLines lines seed = .ok p →
      ∀ (index : Nat) (s : Statement) (address : Nat),
        Source.CallsTo lines p.symbols index s address →
        address < 2 ^ 32 ∧ ∃ w f, p.words[index]? = some w ∧
          Instruction.decode w = some (.jump .call f) ∧
          (∀ pc : Word, (f.target pc).toNat = reached pc.toNat address ∧
            (f.target pc = BitVec.ofNat 32 address ↔
              address % 4 = 0 ∧ address / 2 ^ 28 = pc.toNat / 2 ^ 28)) ∧
          ∀ (fuel : Nat) (m : Machine σ), m.JustFetched p index →
            execute fuel m = call fuel "call" (f.target m.cpu.pc) m ∧
            (m.config.compileOnDemand = false →
              execute fuel m = .ok () (m.enter (m.calls.callee (f.target m.cpu.pc))))) ∧
    ∀ (labels : LabelTable) (index : Nat) (s : Statement) (address : Nat),
      Source.CallsTo lines labels index s address →
      ((∃ i, instructionOf ⟨labels, index⟩ s.toCommand = .ok i) ↔ address < 2 ^ 32) := by
  constructor
  · rintro p h index s address ⟨hs, name, hcall, hid, haddress⟩
    obtain ⟨i, w, hi, hw, hdecode⟩ := (Program.assembles_ofLines h).written.decode hs
    rw [hcall, instructionOf_call_symbol hid ⟨p.symbols, index⟩ haddress, ite_eq_ok] at hi
    obtain ⟨hword, rfl⟩ := hi
    refine ⟨hword, w, _, hw, hdecode, ?_, ?_⟩
    · intro pc
      have htarget := toNat_target_ofNat Opcode.call.code address pc
      refine ⟨htarget, ?_⟩
      rw [← reached_eq_iff, ← htarget, ← BitVec.toNat_inj, BitVec.toNat_ofNat,
        Nat.mod_eq_of_lt hword]
    · intro fuel m hm
      obtain rfl := Option.some.inj (hw.symm.trans hm.ir)
      have hexecute := execute_of_target fuel hdecode rfl
      refine ⟨hexecute, ?_⟩
      intro hoff
      rw [hexecute]
      exact call_callee fuel _ hoff (JumpForm.aligned_target _ _)
  · rintro labels index s address ⟨-, name, hcall, hid, haddress⟩
    simp only [hcall, instructionOf_call_symbol hid ⟨labels, index⟩ haddress, ite_eq_ok,
      exists_and_left, exists_eq', and_true]

/-- A symbol that is no multiple of four, and one in another region. -/
def scattered : LabelTable :=
  ⟨[("odd", 5002), ("other", 0x10000000)], by simp⟩

/-- A call of `odd`, which is at 5002, runs the system call at 5000, and one of `other` goes to
zero. -/
theorem calls_ofLines_scattered :
    ∃ p, Program.ofLines ["call odd", "call other"] scattered = .ok p ∧
      (∃ m, fetch (poised p 0) = .ok () m ∧ execute 0 m = .ok () (m.enter (.system 5000#32))) ∧
      ∃ m, fetch (poised p 1) = .ok () m ∧ execute 0 m = .ok () (m.enter (.function 0#32)) := by
  have haccepted : (Program.ofLines ["call odd", "call other"] scattered).toOption.any fun p =>
      decide (p.image.length ≤ 64 ∧ p.symbols.address? "odd" = some 5002 ∧
        p.symbols.address? "other" = some 0x10000000) := by
    decide +kernel
  obtain ⟨p, h, hp⟩ := any_toOption haccepted
  obtain ⟨hfits, hodd, hother⟩ := of_decide_eq_true hp
  have hcalls := (@calls_ofLines (Array Byte) ["call odd", "call other"] scattered).1 p h
  refine ⟨p, h, ?_, ?_⟩
  · obtain ⟨-, w, f, hw, -, htarget, hexecute⟩ := hcalls 0 ⟨⟨"call", ["odd"]⟩, 0⟩ 5002
      ⟨by decide +kernel, "odd", rfl, by decide, hodd⟩
    obtain ⟨hfetch, hm⟩ := poised_fetches hfits hw (by decide)
    have hgoes : f.target (BitVec.ofNat 32 (4 * (0 + 1))) = 5000#32 :=
      BitVec.eq_of_toNat_eq (htarget _).1
    refine ⟨_, hfetch, ((hexecute 0 _ hm).2 rfl).trans ?_⟩
    rw [hm.pc, hgoes]
    rfl
  · obtain ⟨-, w, f, hw, -, htarget, hexecute⟩ := hcalls 1 ⟨⟨"call", ["other"]⟩, 1⟩ 0x10000000
      ⟨by decide +kernel, "other", rfl, by decide, hother⟩
    obtain ⟨hfetch, hm⟩ := poised_fetches hfits hw (by decide)
    have hgoes : f.target (BitVec.ofNat 32 (4 * (1 + 1))) = 0#32 :=
      BitVec.eq_of_toNat_eq (htarget _).1
    refine ⟨_, hfetch, ((hexecute 0 _ hm).2 rfl).trans ?_⟩
    rw [hm.pc, hgoes]
    rfl

end Machine

end Risc32
