import Risc32.Proofs.Assembly.Halves
import Risc32.Proofs.Machine.Lines

/-!
# Addresses in two instructions

An address is put together by two instructions, and the second one adds the lower half with its
sign. That this gives the address for every value is a matter of three conventions that have to fit:
what the assembler makes of `%hiadj`, that `orhi` puts zeros below its immediate, and that `addi` and
the offsets of loads and stores have a sign (`Machine.addresses_split`).

The register in between has to be one that keeps what is written to it.
-/

set_option autoImplicit false

namespace Risc32

open Assembly

namespace Opcode

theorem role_orhi : orhi.role = .compute .or := rfl

theorem role_addi : addi.role = .compute .add := rfl

end Opcode

namespace Instruction

/-- The instruction that puts the adjusted upper half of a word into a register. -/
def upper (d : Register) (u : Word) : Instruction :=
  .ofImmediate .orhi 0 d.index (Half.highAdjusted.of u)

/-- The instruction that adds the lower half of a word to a register. -/
def lower (d : Register) (u : Word) : Instruction :=
  .ofImmediate .addi d.index d.index (Half.low.of u)

end Instruction

namespace Assembly

variable {labels : LabelTable} {text : String} {value : Int}

theorem ofName?_r0 : Register.ofName? "r0" = some 0 := by decide

theorem expand_movia (d x : String) :
    Command.expand ⟨"movia", [d, x]⟩ =
      .ok [⟨"orhi", [d, "r0", Half.highAdjusted.operand x]⟩,
        ⟨"addi", [d, d, Half.low.operand x]⟩] := by
  rfl

theorem instructionOf_upper (h : Denotes labels text value) {name : String} {d : Register}
    (hd : Register.ofName? name = some d) (index : Nat) :
    instructionOf ⟨labels, index⟩ ⟨"orhi", [name, "r0", Half.highAdjusted.operand text]⟩ =
      .ok (.upper d (BitVec.ofInt 32 value)) :=
  instructionOf_immediate _ ofName?_r0 hd Opcode.role_orhi
    (Half.highAdjusted.immediateField_operand h index)

theorem instructionOf_lower (h : Denotes labels text value) {name : String} {d : Register}
    (hd : Register.ofName? name = some d) (index : Nat) :
    instructionOf ⟨labels, index⟩ ⟨"addi", [name, name, Half.low.operand text]⟩ =
      .ok (.lower d (BitVec.ofInt 32 value)) :=
  instructionOf_immediate _ hd hd Opcode.role_addi (Half.low.immediateField_operand h index)

end Assembly

namespace Machine

variable {σ : Type} {m : Machine σ} {d : Register} {u : Word}

theorem read_wrote (hd : d ≠ 0) (m : Machine σ) (ws : List Word) (value : Word) :
    (m.wrote ws d value).cpu.registers.read d = value := by
  rw [registers_wrote, RegisterFile.read_write, if_pos ⟨rfl, hd⟩]

theorem step_upper {ws : List Word}
    (h : m.cpu.memory.ReadsFrom m.cpu.pc ((Instruction.upper d u).encode :: ws)) (fuel : Nat) :
    step fuel m = .ok ()
      (m.wrote [(Instruction.upper d u).encode] d (Half.highAdjusted.of u ++ 0#16)) := by
  have hvalue : 0#32 ||| (Half.highAdjusted.of u ++ 0#16) = Half.highAdjusted.of u ++ 0#16 :=
    BitVec.zero_or
  have hstep := step_ofImmediate Opcode.role_orhi 0 d _ h fuel
  rw [← hvalue]
  exact hstep

/-- What `movia` is written out to leaves the word in the register. -/
theorem steps_movia
    (h : m.cpu.memory.ReadsFrom m.cpu.pc
      [(Instruction.upper d u).encode, (Instruction.lower d u).encode]) (fuel : Nat) :
    steps fuel 2 m = .ok ()
      (m.wrote [(Instruction.upper d u).encode, (Instruction.lower d u).encode] d u) := by
  have hsecond := step_ofImmediate Opcode.role_addi
    (m := m.wrote [(Instruction.upper d u).encode] d (Half.highAdjusted.of u ++ 0#16))
    d d (Half.low.of u) h.2 fuel
  rw [steps_succ (step_upper h fuel), steps_succ hsecond, steps_zero, wrote_wrote]
  by_cases hd : d = 0
  · -- Nothing is written to `r0`, whatever it is.
    subst hd
    rfl
  · have hvalue : Arithmetic.Function.add.apply (Half.highAdjusted.of u ++ 0#16)
        (Opcode.addi.operand (Half.low.of u)) = u := Half.highAdjusted_add_low u
    rw [read_wrote hd, hvalue]
    rfl

/-- A load or a store behind the upper half of an address, with the lower half as its offset, is one
of the address. -/
theorem steps_access {op : Opcode} {kind : MemoryAccess} (role : op.role = .access kind)
    (hd : d ≠ 0) (b : Register) {w : Word}
    (hw : w = (Instruction.ofImmediate op d.index b.index (Half.low.of u)).encode)
    (h : m.cpu.memory.ReadsFrom m.cpu.pc [(Instruction.upper d u).encode, w]) (fuel : Nat) :
    let m' := m.wrote [(Instruction.upper d u).encode, w] d (Half.highAdjusted.of u ++ 0#16)
    steps fuel 2 m =
      onProcessor (Processor.access kind ⟨op.name, m'.cpu.pc⟩ b.index u) m' := by
  intro m'
  subst hw
  have hsecond := step_ofAccess role
    (m := m.wrote [(Instruction.upper d u).encode] d (Half.highAdjusted.of u ++ 0#16))
    d b (Half.low.of u) h.2 fuel
  rw [read_wrote hd, Half.highAdjusted_add_low, wrote_fetched] at hsecond
  have hsteps : steps fuel 2 m = steps fuel 1 _ := steps_succ (step_upper h fuel)
  rw [hsteps, steps_one, hsecond]

/-- **Splitting an address is exact.** Of a literal or a symbol, the expressions give two halves that
are its value modulo 2³², and an adjusted upper half that goes with the lower one if that is added
with its sign. So `movia` leaves the value in its register, and does nothing else. A load or a store
that has the lower half as its offset, behind an `orhi` with the adjusted upper half, is an access
of just this address. -/
theorem addresses_split {labels : LabelTable} {text : String} {value : Int}
    (h : Denotes labels text value) (index : Nat) :
    let u := BitVec.ofInt 32 value
    ∃ hi lo hiadj : BitVec 16,
      valueOf ⟨labels, index⟩ ("%hi(" ++ text ++ ")") = .ok hi.toNat ∧
      valueOf ⟨labels, index⟩ ("%lo(" ++ text ++ ")") = .ok lo.toNat ∧
      valueOf ⟨labels, index⟩ ("%hiadj(" ++ text ++ ")") = .ok hiadj.toNat ∧
      (hi.setWidth 32 <<< 16) ||| lo.setWidth 32 = u ∧
      (hiadj.setWidth 32 <<< 16) + lo.signExtend 32 = u ∧
      ∀ (name : String) (d : Register), Register.ofName? name = some d → d ≠ 0 →
        (∃ commands is, Command.expand ⟨"movia", [name, text]⟩ = .ok commands ∧
          (∀ line, instructionsFrom labels index (commands.map (Statement.mk · line)) = .ok is) ∧
          is.length = 2 ∧
          ∀ (fuel : Nat) (m : Machine σ),
            m.cpu.memory.ReadsFrom m.cpu.pc (is.map Instruction.encode) →
              ∃ m', steps fuel 2 m = .ok () m' ∧ m'.cpu.registers.read d = u ∧
                m' = m.wrote (is.map Instruction.encode) d u) ∧
        ∀ (op : Opcode) (kind : MemoryAccess) (base moved : String) (b : Register),
          op.role = .access kind → Register.ofName? base = some d →
          Register.ofName? moved = some b →
          ∃ is,
            (∀ line line', instructionsFrom labels index
              [⟨⟨"orhi", [name, "r0", "%hiadj(" ++ text ++ ")"]⟩, line⟩,
                ⟨⟨op.name, [moved, "%lo(" ++ text ++ ")" ++ "(" ++ base ++ ")"]⟩, line'⟩] =
              .ok is) ∧
            is.length = 2 ∧
            ∀ (fuel : Nat) (m : Machine σ),
              m.cpu.memory.ReadsFrom m.cpu.pc (is.map Instruction.encode) →
                let m' := m.wrote (is.map Instruction.encode) d (hiadj ++ 0#16)
                steps fuel 2 m =
                  onProcessor (Processor.access kind ⟨op.name, m'.cpu.pc⟩ b.index u) m' := by
  intro u
  refine ⟨Half.high.of u, Half.low.of u, Half.highAdjusted.of u, Half.high.valueOf_operand h index,
    Half.low.valueOf_operand h index, Half.highAdjusted.valueOf_operand h index,
    Half.high_or_low u, ?_, ?_⟩
  · rw [← Half.upper_eq_shift]
    exact Half.highAdjusted_add_low u
  · intro name d hd hne
    have hupper := instructionOf_upper h hd index
    refine ⟨⟨_, [.upper d u, .lower d u], expand_movia name text, ?_, rfl, ?_⟩, ?_⟩
    · intro line
      exact instructionsFrom_cons hupper
        (instructionsFrom_cons (instructionOf_lower h hd (index + 1)) rfl)
    · intro fuel m hm
      exact ⟨_, steps_movia hm fuel, read_wrote hne m _ u, rfl⟩
    · intro op kind base moved b role hbase hmoved
      have haccess := instructionOf_access ⟨labels, index + 1⟩ hmoved role
        (Half.low.memoryFields_operand h (index + 1) hbase)
      refine ⟨[.upper d u, .ofImmediate op d.index b.index (Half.low.of u)], ?_, rfl, ?_⟩
      · intro line line'
        exact instructionsFrom_cons hupper (instructionsFrom_cons haccess rfl)
      · intro fuel m hm
        exact steps_access role hne b rfl hm fuel

/-- A literal for which the adjusted upper half wraps around to zero, and a symbol whose lower half
is negative. -/
theorem addresses_split_wraps :
    (Denotes .empty "0xFFFF8000" 0xFFFF8000 ∧
      valueOf ⟨.empty, 3⟩ "%hiadj(0xFFFF8000)" = .ok 0 ∧
      ∃ is m',
        instructionsFrom .empty 3 [⟨⟨"orhi", ["r5", "r0", "%hiadj(0xFFFF8000)"]⟩, 0⟩,
          ⟨⟨"addi", ["r5", "r5", "%lo(0xFFFF8000)"]⟩, 0⟩] = .ok is ∧
        steps 0 2 (holding (is.map Instruction.encode)) = .ok () m' ∧
        m'.cpu.registers.read 5 = 0xFFFF8000#32) ∧
    ∃ labels : LabelTable, Denotes labels "far" 0x1234FFFC ∧
      ∃ is m',
        instructionsFrom labels 0 [⟨⟨"orhi", ["r6", "r0", "%hiadj(far)"]⟩, 0⟩,
          ⟨⟨"stw", ["r7", "%lo(far)(r6)"]⟩, 1⟩] = .ok is ∧
        m'.cpu.registers.read 6 = 0x12350000#32 ∧
        steps 0 2 (holding (is.map Instruction.encode)) =
          onProcessor (Processor.access .storeWord ⟨"stw", m'.cpu.pc⟩ 7#8 0x1234FFFC#32) m' := by
  constructor
  · have hdenotes : Denotes .empty "0xFFFF8000" 0xFFFF8000 := .literal (by decide)
    obtain ⟨hi, lo, hiadj, -, -, hvalue, -, -, hrest⟩ :=
      addresses_split (σ := Array Byte) hdenotes 3
    obtain ⟨⟨commands, is, hcommands, his, hlength, hrun⟩, -⟩ :=
      hrest "r5" 5 (by decide) (by decide)
    obtain rfl := Except.ok.inj hcommands
    obtain ⟨m', hm', hread, -⟩ := hrun 0 (holding (is.map Instruction.encode))
      (readsFrom_holding (by rw [List.length_map]; omega))
    exact ⟨hdenotes, Half.highAdjusted.valueOf_operand hdenotes 3, _, m', his 0, hm', hread⟩
  · have hdenotes : Denotes ⟨[("far", 0x1234FFFC)], by simp⟩ "far" 0x1234FFFC :=
      .of_isIdentifier (by decide) rfl
    refine ⟨_, hdenotes, ?_⟩
    obtain ⟨hi, lo, hiadj, -, -, hvalue, -, -, hrest⟩ :=
      addresses_split (σ := Array Byte) hdenotes 0
    obtain ⟨-, haccess⟩ := hrest "r6" 6 (by decide) (by decide)
    obtain ⟨is, his, hlength, hrun⟩ :=
      haccess .stw .storeWord "r6" "r7" 7 rfl (by decide) (by decide)
    have hhiadj : hiadj = 0x1235#16 := by
      have hworth := Half.highAdjusted.valueOf_operand hdenotes 0
      apply BitVec.eq_of_toNat_eq
      exact Int.ofNat.inj (Except.ok.inj (hvalue.symm.trans hworth))
    have hrun := hrun 0 (holding (is.map Instruction.encode))
      (readsFrom_holding (by rw [List.length_map]; omega))
    refine ⟨is, _, his 0 1, ?_, hrun⟩
    rw [read_wrote (by decide), hhiadj]
    rfl

end Machine

end Risc32
