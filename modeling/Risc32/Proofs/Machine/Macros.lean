import Risc32.Proofs.Assembly.Decimals
import Risc32.Proofs.Machine.Addresses
import Risc32.Proofs.Machine.Targets

/-!
# What pseudo-instructions do

A pseudo-instruction has a meaning of its own (`Command.Means`), which does not say what it is
written out to: it writes a value to a register, or it goes to a label, or it does nothing. Here it
is shown that the instructions it is written out to do just that (`Machine.macros_mean`), in
whatever state the machine is and whichever registers are named, also if they are the same or `r0`.

On the way the operands change places, are negated as text and are read again. The meaning is about
the operands as they were written.
-/

set_option autoImplicit false

namespace Risc32

open Assembly

theorem ExtendedOpcode.role_add : add.role = .compute .add := rfl

/-! ## Meanings -/

/-- What a command does to the machine, besides going on to the next one. -/
inductive Effect where
  | nothing
  /-- Writes a value to a register. -/
  | write (d : Register) (value : RegisterFile → Word)
  /-- Goes to an address instead. -/
  | goes (taken : RegisterFile → Bool) (address : Word)

namespace Effect

/-- The registers after the effect. -/
def file : Effect → RegisterFile → RegisterFile
  | write d value, file => file.write d (value file)
  | _, file => file

/-- Where the machine goes on that would go on at `next`. -/
def next : Effect → RegisterFile → Word → Word
  | goes taken address, file, next => if taken file then address else next
  | _, _, next => next

end Effect

namespace Assembly

/-- What a pseudo-instruction means that has the given index. Literals are limited to what can be
meant: a value with sixteen bits, with or without a sign, and one that can be negated. -/
inductive Command.Means (labels : LabelTable) (index : Nat) : Command → Effect → Prop where
  | nop : Means labels index ⟨"nop", []⟩ .nothing
  | mov {dn sn : String} {d s : Register} (destination : Register.ofName? dn = some d)
      (source : Register.ofName? sn = some s) :
      Means labels index ⟨"mov", [dn, sn]⟩ (.write d fun file => file.read s)
  | movi {dn text : String} {d : Register} {k : Int} (destination : Register.ofName? dn = some d)
      (literal : integer? text = some k) (lower : -32768 ≤ k) (upper : k ≤ 65535) :
      Means labels index ⟨"movi", [dn, text]⟩
        (.write d fun _ => (BitVec.ofInt 16 k).signExtend 32)
  | movia {dn text : String} {d : Register} {value : Int}
      (destination : Register.ofName? dn = some d) (denotes : Denotes labels text value) :
      Means labels index ⟨"movia", [dn, text]⟩ (.write d fun _ => BitVec.ofInt 32 value)
  | subi {dn sn text : String} {d s : Register} {k : Int}
      (destination : Register.ofName? dn = some d) (source : Register.ofName? sn = some s)
      (literal : integer? text = some k) (lower : -32767 ≤ k) (upper : k ≤ 32768) :
      Means labels index ⟨"subi", [dn, sn, text]⟩
        (.write d fun file => file.read s - BitVec.ofInt 32 k)
  | cmple {dn an bn : String} {d a b : Register} (destination : Register.ofName? dn = some d)
      (left : Register.ofName? an = some a) (right : Register.ofName? bn = some b) :
      Means labels index ⟨"cmple", [dn, an, bn]⟩
        (.write d fun file => if (file.read a).toInt ≤ (file.read b).toInt then 1 else 0)
  | cmpgt {dn an bn : String} {d a b : Register} (destination : Register.ofName? dn = some d)
      (left : Register.ofName? an = some a) (right : Register.ofName? bn = some b) :
      Means labels index ⟨"cmpgt", [dn, an, bn]⟩
        (.write d fun file => if (file.read a).toInt > (file.read b).toInt then 1 else 0)
  | bgt {an bn label : String} {a b : Register} {address : Nat}
      (left : Register.ofName? an = some a) (right : Register.ofName? bn = some b)
      (identifier : isIdentifier label) (bound : labels.address? label = some address)
      (aligned : address % 4 = 0) (reach : InReach index address) :
      Means labels index ⟨"bgt", [an, bn, label]⟩
        (.goes (fun file => (file.read a).toInt > (file.read b).toInt) (BitVec.ofNat 32 address))
  | ble {an bn label : String} {a b : Register} {address : Nat}
      (left : Register.ofName? an = some a) (right : Register.ofName? bn = some b)
      (identifier : isIdentifier label) (bound : labels.address? label = some address)
      (aligned : address % 4 = 0) (reach : InReach index address) :
      Means labels index ⟨"ble", [an, bn, label]⟩
        (.goes (fun file => (file.read a).toInt ≤ (file.read b).toInt) (BitVec.ofNat 32 address))

end Assembly

namespace Machine

variable {σ : Type}

/-- The machine behind some words, after an effect. -/
def undergo (m : Machine σ) (ws : List Word) (e : Effect) : Machine σ :=
  { m with cpu := {
      registers := e.file m.cpu.registers
      memory := m.cpu.memory
      pc := e.next m.cpu.registers (m.cpu.pc + BitVec.ofNat 32 (4 * ws.length))
      ir := ws.getLastD m.cpu.ir } }

theorem undergo_write (m : Machine σ) (ws : List Word) (d : Register)
    (value : RegisterFile → Word) :
    m.undergo ws (.write d value) = m.wrote ws d (value m.cpu.registers) := rfl

theorem undergo_goes (m : Machine σ) (w : Word) (taken : RegisterFile → Bool) (address : Word) :
    m.undergo [w] (.goes taken address) =
      if taken m.cpu.registers then
        { m.fetched w with cpu := { (m.fetched w).cpu with pc := address } }
      else m.fetched w := by
  rw [undergo, Effect.next]
  cases taken m.cpu.registers <;> rfl

end Machine

namespace Assembly

/-- The command is written out to instructions that have the effect, when they are executed where
they belong. -/
def Command.Does (σ : Type) (labels : LabelTable) (index : Nat) (c : Command) (e : Effect) :
    Prop :=
  ∃ commands is, c.expand = .ok commands ∧
    (∀ line, instructionsFrom labels index (commands.map (Statement.mk · line)) = .ok is) ∧
    ∀ (fuel : Nat) (m : Machine σ), m.cpu.pc = BitVec.ofNat 32 (4 * index) →
      m.cpu.memory.ReadsFrom m.cpu.pc (is.map Instruction.encode) →
        Machine.steps fuel is.length m = .ok () (m.undergo (is.map Instruction.encode) e)

variable {σ : Type} {labels : LabelTable} {index : Nat}

namespace Command

/-- A command that is written out to one. -/
theorem does_of_single {c c' : Command} {e : Effect} (hexpand : c.expand = .ok [c'])
    {i : Instruction} (hi : instructionOf ⟨labels, index⟩ c' = .ok i)
    (hstep : ∀ (fuel : Nat) (m : Machine σ), m.cpu.pc = BitVec.ofNat 32 (4 * index) →
      m.cpu.memory.ReadsFrom m.cpu.pc [i.encode] →
        Machine.step fuel m = .ok () (m.undergo [i.encode] e)) :
    c.Does σ labels index e := by
  refine ⟨_, [i], hexpand, fun line => instructionsFrom_cons hi rfl, ?_⟩
  intro fuel m hpc hm
  exact (Machine.steps_one fuel m).trans (hstep fuel m hpc hm)

/-- A command that is written out to one with three registers. -/
theorem does_of_registers {c : Command} {dn an bn : String} {d a b : Register}
    (hd : Register.ofName? dn = some d) (ha : Register.ofName? an = some a)
    (hb : Register.ofName? bn = some b) {op : ExtendedOpcode} {g : Arithmetic.Function}
    (role : op.role = .compute g) (hexpand : c.expand = .ok [⟨op.name, [dn, an, bn]⟩])
    {value : RegisterFile → Word}
    (hvalue : ∀ file : RegisterFile, g.apply (file.read a) (file.read b) = value file) :
    c.Does σ labels index (.write d value) := by
  refine does_of_single hexpand (instructionOf_registers _ ha hb hd role) ?_
  intro fuel m _ hm
  rw [Machine.step_ofRegisters role a b d hm, hvalue, Machine.undergo_write]

/-- A command that is written out to one with an immediate. -/
theorem does_of_immediate {c : Command} {dn an text : String} {d a : Register}
    (hd : Register.ofName? dn = some d) (ha : Register.ofName? an = some a)
    {immediate : BitVec 16} (htext : immediateField ⟨labels, index⟩ text = .ok immediate)
    {op : Opcode} {g : Arithmetic.Function} (role : op.role = .compute g)
    (hexpand : c.expand = .ok [⟨op.name, [dn, an, text]⟩]) {value : RegisterFile → Word}
    (hvalue : ∀ file : RegisterFile, g.apply (file.read a) (op.operand immediate) = value file) :
    c.Does σ labels index (.write d value) := by
  refine does_of_single hexpand (instructionOf_immediate _ ha hd role htext) ?_
  intro fuel m _ hm
  rw [Machine.step_ofImmediate role a d immediate hm, hvalue, Machine.undergo_write]

/-- A command that is written out to a branch to a symbol in reach. -/
theorem does_of_branch {c : Command} {an bn label : String} {a b : Register} {address : Nat}
    (ha : Register.ofName? an = some a) (hb : Register.ofName? bn = some b)
    (identifier : isIdentifier label) (bound : labels.address? label = some address)
    (aligned : address % 4 = 0) (reach : InReach index address) {op : Opcode}
    {condition : Arithmetic.Condition} (role : op.role = .branch condition)
    (hcondition : condition ≠ .always) (hexpand : c.expand = .ok [⟨op.name, [an, bn, label]⟩])
    {taken : RegisterFile → Bool}
    (htaken : ∀ file : RegisterFile, condition.holds (file.read a) (file.read b) = taken file) :
    c.Does σ labels index (.goes taken (BitVec.ofNat 32 address)) := by
  have htarget : branchField ⟨labels, index⟩ label =
      .ok (BitVec.ofInt 16 (distance index address)) := by
    rw [branchField_symbol identifier bound, if_pos reach]
  refine does_of_single hexpand (instructionOf_branch _ ha hb role hcondition htarget) ?_
  intro fuel m hpc hm
  have hlayout : op.layout = .immediate := by rw [Opcode.layout, role]
  have hfetched : (m.fetched (Instruction.ofImmediate op a.index b.index
      (BitVec.ofInt 16 (distance index address))).encode).cpu.pc +
        (BitVec.ofInt 16 (distance index address)).signExtend 32 = BitVec.ofNat 32 address := by
    rw [← add_distance reach, Nat.mul_succ, BitVec.ofNat_add, ← hpc]
    rfl
  have hlands := Machine.lands_of_decode
    (m := m.fetched (Instruction.ofImmediate op a.index b.index
      (BitVec.ofInt 16 (distance index address))).encode) fuel
    (Instruction.decode_encode (ofImmediate_fits hlayout _ a.index_lt b.index_lt)) role hfetched
  have hholds : condition.holds (m.cpu.registers.get a.index) (m.cpu.registers.get b.index) =
      taken m.cpu.registers := htaken m.cpu.registers
  rw [Machine.step_of_ok fuel (hm.1 _)]
  cases htake : taken m.cpu.registers with
  | true =>
    rw [hlands.goes (hholds.trans htake) aligned, Machine.undergo_goes, if_pos htake]
  | false =>
    have hnot : ¬condition.holds (m.cpu.registers.get a.index) (m.cpu.registers.get b.index) := by
      rw [Bool.not_eq_true]
      exact hholds.trans htake
    rw [hlands.stays hnot, Machine.undergo_goes, if_neg (by rw [htake]; decide)]

/-! ## One pseudo-instruction after the other -/

/-- An immediate that is added with its sign. -/
theorem immediateField_literal {text : String} {k : Int} (h : integer? text = some k)
    (lower : -32768 ≤ k) (upper : k ≤ 65535) :
    immediateField ⟨labels, index⟩ text = .ok (BitVec.ofInt 16 k) := by
  have hvalue : valueOf ⟨labels, index⟩ text = .ok k := by rw [valueOf, h]
  exact immediateField_eq_ok hvalue lower upper

/-- The operand of `subi` is the negated literal. -/
theorem immediateField_negate {text : String} {k : Int} (h : integer? text = some k)
    (lower : -65535 ≤ k) (upper : k ≤ 32768) :
    immediateField ⟨labels, index⟩ (Pseudo.negate text) = .ok (BitVec.ofInt 16 (-k)) := by
  have hnegate : Pseudo.negate text = toString (-k) := by rw [Pseudo.negate, h]
  have hliteral : integer? (toString (-k)) = some (-k) := by
    apply integer?_toString
    rw [literalLimit]
    omega
  rw [hnegate]
  exact immediateField_literal hliteral (by omega) (by omega)

/-- Adding the negated literal with its sign is subtracting the literal. -/
theorem add_negated {k : Int} (lower : -32767 ≤ k) (upper : k ≤ 32768) (w : Word) :
    w + (BitVec.ofInt 16 (-k)).signExtend 32 = w - BitVec.ofInt 32 k := by
  have hfits : (BitVec.ofInt 16 (-k)).toInt = -k := by
    rw [BitVec.toInt_ofInt]
    apply Int.bmod_eq_of_le
    · show -32768 ≤ -k
      omega
    · show -k < 32768
      omega
  rw [BitVec.signExtend, hfits, BitVec.ofInt_neg, BitVec.sub_eq_add_neg]

theorem does_movia {dn text : String} {d : Register} {value : Int}
    (destination : Register.ofName? dn = some d) (denotes : Denotes labels text value) :
    Command.Does σ labels index ⟨"movia", [dn, text]⟩
      (.write d fun _ => BitVec.ofInt 32 value) := by
  let u := BitVec.ofInt 32 value
  refine ⟨_, [.upper d u, .lower d u], expand_movia dn text, ?_, ?_⟩
  · intro line
    exact instructionsFrom_cons (instructionOf_upper denotes destination index)
      (instructionsFrom_cons (instructionOf_lower denotes destination (index + 1)) rfl)
  · intro fuel m _ hm
    rw [Machine.undergo_write]
    exact Machine.steps_movia hm fuel

/-- **What a pseudo-instruction means, it does.** -/
theorem Means.does {c : Command} {e : Effect} (h : c.Means labels index e) :
    c.Does σ labels index e := by
  cases h with
  | nop =>
    refine does_of_single rfl
      (instructionOf_registers _ ofName?_r0 ofName?_r0 ofName?_r0 ExtendedOpcode.role_add) ?_
    intro fuel m _ hm
    -- What is written goes to `r0`, and so nowhere.
    rw [Machine.step_ofRegisters ExtendedOpcode.role_add 0 0 0 hm]
    rfl
  | mov destination source =>
    exact does_of_registers destination source ofName?_r0 ExtendedOpcode.role_add rfl
      fun file => BitVec.add_zero _
  | movi destination literal lower upper =>
    exact does_of_immediate destination ofName?_r0 (immediateField_literal literal lower upper)
      Opcode.role_addi rfl fun file => BitVec.zero_add _
  | movia destination denotes => exact does_movia destination denotes
  | subi destination source literal lower upper =>
    exact does_of_immediate destination source
      (immediateField_negate literal (by omega) upper) Opcode.role_addi rfl
      fun file => add_negated lower upper _
  | cmple destination left right =>
    have role : ExtendedOpcode.cmpge.role = .compute .greaterEqual := rfl
    exact does_of_registers destination right left role rfl
      fun file => by simp [Arithmetic.Function.apply, Word.ofBool, BitVec.sle]
  | cmpgt destination left right =>
    have role : ExtendedOpcode.cmplt.role = .compute .less := rfl
    exact does_of_registers destination right left role rfl
      fun file => by simp [Arithmetic.Function.apply, Word.ofBool, BitVec.slt]
  | bgt left right identifier bound aligned reach =>
    have role : Opcode.blt.role = .branch .less := rfl
    exact does_of_branch right left identifier bound aligned reach role (by decide) rfl
      fun file => rfl
  | ble left right identifier bound aligned reach =>
    have role : Opcode.bge.role = .branch .greaterEqual := rfl
    exact does_of_branch right left identifier bound aligned reach role (by decide) rfl
      fun file => rfl

end Command

end Assembly

namespace Machine

variable {σ : Type}

/-- **Pseudo-instructions do what they mean.** At whatever index one stands, it becomes
instructions, and a machine that comes to them and executes them goes on behind them, or where it is
sent, with nothing changed but the register that is written to, which is never `r0`. That is so in
particular at a line of a source that has been accepted. -/
theorem macros_mean {labels : LabelTable} {index : Nat} {c : Command} {e : Effect}
    (h : c.Means labels index e) :
    (∃ commands is, c.expand = .ok commands ∧
      (∀ line, instructionsFrom labels index (commands.map (Statement.mk · line)) = .ok is) ∧
      (∀ (fuel : Nat) (m : Machine σ), m.cpu.pc = BitVec.ofNat 32 (4 * index) →
        m.cpu.memory.ReadsFrom m.cpu.pc (is.map Instruction.encode) →
          steps fuel is.length m = .ok () (m.undergo (is.map Instruction.encode) e)) ∧
      ∀ (lines : List String) (seed : LabelTable) (p : Program) (n : Nat) (content : Content),
        Program.ofLines lines seed = .ok p → (Source.text lines)[n]? = some content →
          content.command = c → labels = p.symbols → index = Source.statementsBefore lines n →
          ∀ (fuel : Nat) (m : Machine σ), m.AtLine p lines n →
            steps fuel is.length m = .ok () (m.undergo (is.map Instruction.encode) e)) ∧
    ∀ d value, e = .write d value → ∀ (file : RegisterFile) (r : Register),
      (e.file file).read r = if r = d ∧ d ≠ 0 then value file else file.read r := by
  constructor
  · obtain ⟨commands, is, hexpand, his, hsteps⟩ := h.does (σ := σ)
    refine ⟨commands, is, hexpand, his, hsteps, ?_⟩
    rintro lines seed p n content hp hcontent rfl rfl rfl fuel m hm
    have hassembles := Program.assembles_ofLines hp
    apply hsteps fuel m
    · rw [← hm.pc, BitVec.ofNat_toNat, BitVec.setWidth_eq]
    · exact hm.readsFrom hassembles hcontent hexpand (his content.number)
  · rintro d value rfl file r
    exact RegisterFile.read_write file d r (value file)

/-- A source with pseudo-instructions, some of them with one register in several places. -/
def mixed : List String := [
  "      movi  r1, 65535",
  "loop: subi  r1, R1, -0x7FFF",
  "      movia ra, loop",
  "      cmple r1, r1, r1",
  "      ble   r0, r1, loop"]

theorem poised_atLine {p : Program} (hfits : p.image.length ≤ 64) {n index : Nat}
    (hindex : index = Source.statementsBefore mixed n) (hlt : index < 16)
    (hlength : p.words.length ≤ 16) : (poised p index).AtLine p mixed n where
  holds := holds_loaded (m := Machine.new { memorySize := 64 } #[]) hfits
  fits := by omega
  pc := by
    subst hindex
    show (BitVec.ofNat 32 _).toNat = _
    rw [BitVec.toNat_ofNat]
    omega

/-- In `mixed`, where `r1` is one, the second line adds 32767 to it, and the last line goes back to
the second. -/
theorem macros_mean_mixed :
    ∃ p, Program.ofLines mixed .empty = .ok p ∧
      (Command.Means p.symbols 1 ⟨"subi", ["r1", "R1", "-0x7FFF"]⟩
          (.write 1 fun file => file.read 1 - BitVec.ofInt 32 (-32767)) ∧
        ∃ m', step 0 (poised p 1) = .ok () m' ∧ m'.cpu.registers.read 1 = 32768#32 ∧
          m'.cpu.pc = 8#32) ∧
      Command.Means p.symbols 5 ⟨"ble", ["r0", "r1", "loop"]⟩
          (.goes (fun file => (file.read 0).toInt ≤ (file.read 1).toInt) 4#32) ∧
        ∃ m', step 0 (poised p 5) = .ok () m' ∧ m'.cpu.registers = (poised p 5).cpu.registers ∧
          m'.cpu.pc = 4#32 := by
  have haccepted : (Program.ofLines mixed .empty).toOption.any fun p =>
      decide (p.words.length ≤ 16 ∧ p.image.length ≤ 64) := by decide +kernel
  obtain ⟨p, h, hp⟩ := any_toOption haccepted
  obtain ⟨hlength, hfits⟩ := of_decide_eq_true hp
  have hr0 : Register.ofName? "r0" = some 0 := by decide
  have hr1 : Register.ofName? "r1" = some 1 := by decide
  have hR1 : Register.ofName? "R1" = some 1 := by decide
  have hlabel : ("loop", 4) ∈ Source.textLabels mixed := by decide +kernel
  have hloop := (Program.assembles_ofLines h).target_of_textLabel hlabel
  have hsubi : Command.Means p.symbols 1 ⟨"subi", ["r1", "R1", "-0x7FFF"]⟩
      (.write 1 fun file => file.read 1 - BitVec.ofInt 32 (-32767)) :=
    .subi hr1 hR1 (by decide) (by decide) (by decide)
  have hble : Command.Means p.symbols 5 ⟨"ble", ["r0", "r1", "loop"]⟩
      (.goes (fun file => (file.read 0).toInt ≤ (file.read 1).toInt) 4#32) :=
    .ble hr0 hr1 hloop.1 hloop.2.1 hloop.2.2 (by decide)
  refine ⟨p, h, ⟨hsubi, ?_⟩, hble, ?_⟩
  · obtain ⟨⟨commands, is, hcommands, his, -, hline⟩, -⟩ := macros_mean (σ := Array Byte) hsubi
    obtain rfl := Except.ok.inj hcommands
    obtain ⟨i, rfl⟩ := List.length_eq_one_iff.1 (instructionsFrom_eq_ok (his 0)).1
    have hrun := hline mixed .empty p 1
      ⟨1, .text, some "loop", ["subi", "r1", "R1", "-0x7FFF"]⟩ h (by decide +kernel)
      (by decide +kernel) rfl (by decide +kernel) 0 (poised p 1)
      (poised_atLine hfits (by decide +kernel) (by decide) hlength)
    exact ⟨_, (steps_one 0 _).symm.trans hrun, rfl, rfl⟩
  · obtain ⟨⟨commands, is, hcommands, his, -, hline⟩, -⟩ := macros_mean (σ := Array Byte) hble
    obtain rfl := Except.ok.inj hcommands
    obtain ⟨i, rfl⟩ := List.length_eq_one_iff.1 (instructionsFrom_eq_ok (his 0)).1
    have hrun := hline mixed .empty p 4 ⟨4, .text, none, ["ble", "r0", "r1", "loop"]⟩ h
      (by decide +kernel) (by decide +kernel) rfl (by decide +kernel) 0 (poised p 5)
      (poised_atLine hfits (by decide +kernel) (by decide) hlength)
    exact ⟨_, (steps_one 0 _).symm.trans hrun, rfl, rfl⟩

end Machine

end Risc32
