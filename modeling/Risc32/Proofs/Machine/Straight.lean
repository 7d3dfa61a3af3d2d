import Risc32.Proofs.Assembly.Instructions
import Risc32.Proofs.Machine.Runs
import Risc32.Proofs.Memory.Contents
import Risc32.Proofs.Preservation

/-!
# Instructions one after the other

What the machine does with words that stand in memory from the program counter on. Nothing here
asks where the words come from: it is enough that the machine can read them
(`Memory.ReadsFrom`), wherever that is, and also where addresses wrap around.

An instruction that computes writes one register and goes on to the next word. The rest of the
machine is as it was.
-/

set_option autoImplicit false

namespace Risc32

/-! ## Registers by name -/

namespace Register

theorem index_injective {r s : Register} (h : r.index = s.index) : r = s := by
  have hr := r.isLt
  have hs := s.isLt
  have hnat := congrArg BitVec.toNat h
  simp only [index, BitVec.toNat_ofNat] at hnat
  apply Fin.ext
  omega

theorem slot_index (r : Register) : RegisterFile.slot r.index = r := by
  have hr := r.isLt
  apply Fin.ext
  show (BitVec.ofNat 8 r.val).toNat % 32 = r.val
  rw [BitVec.toNat_ofNat]
  omega

theorem index_eq_zero_iff {r : Register} : r.index = 0#8 ↔ r = 0 :=
  ⟨fun h => index_injective h, fun h => h ▸ rfl⟩

end Register

namespace RegisterFile

/-- A register reads as what was written to it, except for `r0`, which nothing can be written
to. -/
theorem read_write (file : RegisterFile) (d r : Register) (value : Word) :
    (file.write d value).read r = if r = d ∧ d ≠ 0 then value else file.read r := by
  simp only [write, read, get_set, Register.slot_index, ne_eq, Register.index_eq_zero_iff]
  by_cases h : d = r
  · subst h
    by_cases hd : d = 0
    · simp [hd]
    · simp [hd]
  · simp [h, Ne.symm h]

/-- What is written last stays. -/
theorem write_write (file : RegisterFile) (d : Register) (value value' : Word) :
    (file.write d value).write d value' = file.write d value' := by
  by_cases hd : d.index = 0#8
  · simp [write, set, hd]
  · simp [write, set, hd]

end RegisterFile

/-! ## Words to come -/

namespace Memory

/-- The words can be read one after the other from the address on. -/
def ReadsFrom (m : Memory) (address : Word) : List Word → Prop
  | [] => True
  | w :: ws => (∀ site, m.readWord site address = .ok w) ∧ m.ReadsFrom (address + 4) ws

/-- Words that are held can be read, as long as their addresses are words. -/
theorem Holds.readsFrom {m : Memory} {start : Nat} {ws : List Word} (h : m.Holds start ws)
    (haligned : start % 4 = 0) {address : Word} (haddress : address.toNat = start)
    (hend : start + 4 * ws.length ≤ 2 ^ 32) : m.ReadsFrom address ws := by
  induction ws generalizing start address with
  | nil => trivial
  | cons w ws ih =>
    refine ⟨h.readWord (i := 0) rfl haddress haligned, ?_⟩
    cases ws with
    | nil => trivial
    | cons w' ws =>
      rw [List.length_cons, List.length_cons] at hend
      apply ih h.tail (by omega)
      · rw [BitVec.toNat_add, haddress]
        exact Nat.mod_eq_of_lt (show start + 4 < 2 ^ 32 by omega)
      · rw [List.length_cons]
        omega

end Memory

namespace Processor

/-- The processor behind some words, of which it has fetched the last. -/
def past (cpu : Processor) (ws : List Word) : Processor :=
  { cpu with pc := cpu.pc + BitVec.ofNat 32 (4 * ws.length), ir := ws.getLastD cpu.ir }

theorem past_past (cpu : Processor) (w : Word) (ws : List Word) :
    (cpu.past [w]).past ws = cpu.past (w :: ws) := by
  have hpc : cpu.pc + BitVec.ofNat 32 4 + BitVec.ofNat 32 (4 * ws.length) =
      cpu.pc + BitVec.ofNat 32 (4 * (ws.length + 1)) := by
    rw [BitVec.add_assoc, ← BitVec.ofNat_add, Nat.mul_succ, Nat.add_comm]
  show (⟨_, _, cpu.pc + BitVec.ofNat 32 4 + BitVec.ofNat 32 (4 * ws.length), _⟩ : Processor) =
    ⟨_, _, cpu.pc + BitVec.ofNat 32 (4 * (ws.length + 1)), _⟩
  rw [hpc, List.getLastD_cons]
  rfl

theorem setRegister_setRegister (cpu : Processor) (d : Register) (value value' : Word) :
    (cpu.setRegister d.index value).setRegister d.index value' =
      cpu.setRegister d.index value' := by
  have hregisters := cpu.registers.write_write d value value'
  rw [RegisterFile.write, RegisterFile.write, RegisterFile.write] at hregisters
  rw [setRegister, setRegister, setRegister, hregisters]

end Processor

namespace Machine

variable {σ : Type}

/-- Executes as many instructions. -/
def steps (fuel : Nat) : Nat → Exec (Machine σ) Unit
  | 0 => pure ()
  | n + 1 => do
    step fuel
    steps fuel n

theorem steps_succ {fuel n : Nat} {m m' : Machine σ} (h : step fuel m = .ok () m') :
    steps fuel (n + 1) m = steps fuel n m' := by
  rw [steps, Exec.bind_apply, h]

theorem steps_zero (fuel : Nat) (m : Machine σ) : steps fuel 0 m = .ok () m := rfl

theorem steps_one (fuel : Nat) (m : Machine σ) : steps fuel 1 m = step fuel m := by
  rw [steps, Exec.bind_apply]
  cases step fuel m <;> rfl

/-! ## One instruction -/

/-- The machine behind some words, with a value in a register. -/
def wrote (m : Machine σ) (ws : List Word) (d : Register) (value : Word) : Machine σ :=
  { m with cpu := (m.cpu.past ws).setRegister d.index value }

theorem registers_wrote (m : Machine σ) (ws : List Word) (d : Register) (value : Word) :
    (m.wrote ws d value).cpu.registers = m.cpu.registers.write d value := rfl

theorem wrote_fetched (m : Machine σ) (w w' : Word) (d : Register) (value : Word) :
    (m.wrote [w] d value).fetched w' = m.wrote [w, w'] d value := by
  have hcpu : ((m.cpu.past [w]).setRegister d.index value).past [w'] =
      ((m.cpu.past [w]).past [w']).setRegister d.index value := rfl
  rw [Processor.past_past] at hcpu
  rw [wrote, wrote, ← hcpu]
  rfl

/-- What is written last stays. -/
theorem wrote_wrote (m : Machine σ) (w : Word) (ws : List Word) (d : Register)
    (value value' : Word) :
    (m.wrote [w] d value).wrote ws d value' = m.wrote (w :: ws) d value' := by
  have hcpu : ((((m.cpu.past [w]).setRegister d.index value).past ws).setRegister d.index value') =
      (((m.cpu.past [w]).past ws).setRegister d.index value).setRegister d.index value' := rfl
  rw [Processor.past_past, Processor.setRegister_setRegister] at hcpu
  rw [wrote, wrote, wrote, ← hcpu]

variable {m : Machine σ} {ws : List Word}

/-- An instruction with three registers. -/
theorem step_ofRegisters {op : ExtendedOpcode} {g : Arithmetic.Function}
    (role : op.role = .compute g) (a b c : Register)
    (h : m.cpu.memory.ReadsFrom m.cpu.pc
      ((Instruction.ofRegisters op a.index b.index c.index).encode :: ws)) (fuel : Nat) :
    step fuel m = .ok () (m.wrote [(Instruction.ofRegisters op a.index b.index c.index).encode] c
      (g.apply (m.cpu.registers.read a) (m.cpu.registers.read b))) := by
  have hfits : (Instruction.ofRegisters op a.index b.index c.index).Fits :=
    Assembly.ofRegisters_fits a.index_lt b.index_lt c.index_lt
  have htarget : (Instruction.ofRegisters op a.index b.index c.index).target?
      (m.fetched (Instruction.ofRegisters op a.index b.index c.index).encode).cpu = none := by
    simp [Instruction.ofRegisters, Instruction.target?, role]
  rw [step_of_act fuel (h.1 _) (Instruction.decode_encode hfits) htarget]
  simp only [Instruction.act, Instruction.ofRegisters, role, Exec.modify_apply]
  rfl

/-- An instruction with two registers and an immediate. -/
theorem step_ofImmediate {op : Opcode} {g : Arithmetic.Function} (role : op.role = .compute g)
    (a b : Register) (immediate : BitVec 16)
    (h : m.cpu.memory.ReadsFrom m.cpu.pc
      ((Instruction.ofImmediate op a.index b.index immediate).encode :: ws)) (fuel : Nat) :
    step fuel m = .ok () (m.wrote [(Instruction.ofImmediate op a.index b.index immediate).encode] b
      (g.apply (m.cpu.registers.read a) (op.operand immediate))) := by
  have hlayout : op.layout = .immediate := by rw [Opcode.layout, role]
  have hdecode := Instruction.decode_encode
    (Assembly.ofImmediate_fits hlayout immediate a.index_lt b.index_lt)
  rw [step_of_act fuel (h.1 _) hdecode rfl]
  simp only [Instruction.act, Instruction.ofImmediate, role, Exec.modify_apply]
  rfl

/-- An instruction that moves a register to memory or back does so at the sum of its base and its
offset. -/
theorem step_ofAccess {op : Opcode} {kind : MemoryAccess} (role : op.role = .access kind)
    (a b : Register) (offset : BitVec 16)
    (h : m.cpu.memory.ReadsFrom m.cpu.pc
      ((Instruction.ofImmediate op a.index b.index offset).encode :: ws)) (fuel : Nat) :
    let m' := m.fetched (Instruction.ofImmediate op a.index b.index offset).encode
    step fuel m = onProcessor (Processor.access kind ⟨op.name, m'.cpu.pc⟩ b.index
      (m.cpu.registers.read a + offset.signExtend 32)) m' := by
  intro m'
  have hlayout : op.layout = .immediate := by rw [Opcode.layout, role]
  have hfetched : Instruction.decode
      (m.fetched (Instruction.ofImmediate op a.index b.index offset).encode).cpu.ir = _ :=
    Instruction.decode_encode (Assembly.ofImmediate_fits hlayout offset a.index_lt b.index_lt)
  rw [step_of_ok fuel (h.1 _), execute_of_act fuel hfetched rfl, onProcessor_apply,
    onProcessor_apply]
  simp only [Instruction.act, Instruction.ofImmediate, role, Exec.bind_apply, Exec.get_apply]
  rfl

/-- A small machine with words at the beginning of its memory, about to execute them. -/
def holding (ws : List Word) : Machine (Array Byte) :=
  let m := new { memorySize := 64 } #[]
  { m with cpu := { m.cpu with memory := m.cpu.memory.putBytes 0 (ws.flatMap Word.bytes) } }

theorem readsFrom_holding {ws : List Word} (h : ws.length ≤ 16) :
    (holding ws).cpu.memory.ReadsFrom (holding ws).cpu.pc ws := by
  have hholds : (holding ws).cpu.memory.Holds 0 ws := by
    have hfits : 0 + (ws.flatMap Word.bytes ++ []).length ≤ (Memory.zero 64).size := by
      rw [List.append_nil, Memory.size_zero, Word.length_flatMap_bytes]
      omega
    have hputs := Memory.holds_putBytes hfits
    rwa [List.append_nil] at hputs
  exact hholds.readsFrom rfl rfl (by omega)

end Machine

end Risc32
