import Risc32.Assembly.Instructions
import Risc32.Proofs.Encoding.RoundTrip
import Risc32.Proofs.Sequence

/-!
# Assembled instructions fit

The assembler checks the values of operands, and with that it has made sure that every field fits
the room it gets in a word. So nothing is cut when an instruction is written
(`instructionOf_fits`). The instructions that return are those that are written as `ret`
(`instructionOf_isReturn`), so the table of functions, which goes by mnemonics, and the compiler,
which goes by words, agree on where a function ends.
-/

set_option autoImplicit false

namespace Risc32.Assembly

theorem registerField_lt {name : String} {b : Byte} (h : registerField name = .ok b) :
    b.toNat < 32 := by
  rw [registerField] at h
  split at h
  · next r _ =>
    obtain rfl := Except.ok.inj h
    have hr := r.isLt
    rw [Register.index, BitVec.toNat_ofNat]
    omega
  · cases h

theorem memoryFields_lt {s : Scope} {text : String} {offset : BitVec 16} {b : Byte}
    (h : memoryFields s text = .ok (offset, b)) : b.toNat < 32 := by
  rw [memoryFields] at h
  split at h
  · cases h
  · split at h <;>
    · obtain ⟨offset', -, h⟩ := bind_eq_ok.1 h
      obtain ⟨base, hbase, h⟩ := bind_eq_ok.1 h
      obtain ⟨-, rfl⟩ := Prod.mk.inj (Except.ok.inj h)
      exact registerField_lt hbase

theorem callField_lt {s : Scope} {text : String} {w : Word} (h : callField s text = .ok w) :
    w.toNat < 0x4000000 := by
  obtain ⟨address, -, h⟩ := bind_eq_ok.1 h
  split at h
  · obtain rfl := Except.ok.inj h
    rw [BitVec.toNat_setWidth]
    have := ((BitVec.ofInt 32 address).extractLsb' 2 26).isLt
    omega
  · cases h

/-! ## The register layout -/

theorem ofRegisters_fits {op : ExtendedOpcode} {a b c : Byte} (ha : a.toNat < 32)
    (hb : b.toNat < 32) (hc : c.toNat < 32) : (Instruction.ofRegisters op a b c).Fits :=
  .register rfl op.code_and_mask op.code_lt ha hb hc

/-- The amount of a shift goes where the operation does not look. -/
theorem ofShift_fits {op : ExtendedOpcode} {g : Arithmetic.Function} (hrole : op.role = .shift g)
    {a c : Byte} (amount : Byte) (ha : a.toNat < 32) (hc : c.toNat < 32) :
    (Instruction.ofShift op a c amount).Fits := by
  have hshift : op = .slli ∨ op = .srli := by
    cases op <;> simp [ExtendedOpcode.role] at hrole ⊢
  have hopx : ∀ low : BitVec 5, (op.code ||| low.setWidth 16) &&& op.mask = op.code ∧
      (op.code ||| low.setWidth 16).toNat < 2048 := by
    rcases hshift with rfl | rfl <;> decide
  exact .register rfl (hopx _).1 (hopx _).2 ha (Nat.zero_lt_succ 31) hc

theorem extendedInstruction_fits {s : Scope} {op : ExtendedOpcode} {operands : List String}
    {i : Instruction} (h : extendedInstruction s op operands = .ok i) : i.Fits := by
  unfold extendedInstruction at h
  split at h
  · obtain ⟨c, hc, h⟩ := bind_eq_ok.1 h
    obtain ⟨a, ha, h⟩ := bind_eq_ok.1 h
    obtain ⟨b, hb, h⟩ := bind_eq_ok.1 h
    obtain rfl := Except.ok.inj h
    exact ofRegisters_fits (registerField_lt ha) (registerField_lt hb) (registerField_lt hc)
  · next hrole =>
    obtain ⟨c, hc, h⟩ := bind_eq_ok.1 h
    obtain ⟨a, ha, h⟩ := bind_eq_ok.1 h
    obtain ⟨amount, -, h⟩ := bind_eq_ok.1 h
    obtain rfl := Except.ok.inj h
    exact ofShift_fits hrole amount (registerField_lt ha) (registerField_lt hc)
  · obtain ⟨a, ha, h⟩ := bind_eq_ok.1 h
    obtain rfl := Except.ok.inj h
    exact ofRegisters_fits (registerField_lt ha) (by decide) (by decide)
  · obtain rfl := Except.ok.inj h
    exact ofRegisters_fits (by decide) (by decide) (by decide)
  · cases h

/-! ## The other layouts -/

theorem ofImmediate_fits {op : Opcode} (hlayout : op.layout = .immediate) {a b : Byte}
    (immediate : BitVec 16) (ha : a.toNat < 32) (hb : b.toNat < 32) :
    (Instruction.ofImmediate op a b immediate).Fits :=
  .immediate hlayout rfl ha hb

theorem primaryInstruction_fits {s : Scope} {op : Opcode} {operands : List String}
    {i : Instruction} (h : primaryInstruction s op operands = .ok i) : i.Fits := by
  have hlayout : ∀ role, op.role = role → role ≠ .call → role ≠ .registers →
      op.layout = .immediate := by
    rintro role rfl hcall hregisters
    cases op <;> first | rfl | exact absurd rfl hcall | exact absurd rfl hregisters
  -- One case for each role. The immediate of a form has just its width, so only the registers and
  -- the target of a call could fail to fit.
  unfold primaryInstruction at h
  split at h
  · cases h
  · next hrole =>
    obtain ⟨target, htarget, h⟩ := bind_eq_ok.1 h
    obtain rfl := Except.ok.inj h
    exact .jump (by cases op <;> first | rfl | cases hrole) rfl (callField_lt htarget)
  · next hrole =>
    obtain ⟨offset, -, h⟩ := bind_eq_ok.1 h
    obtain rfl := Except.ok.inj h
    exact ofImmediate_fits (hlayout _ hrole (by simp) (by simp)) _ (by decide) (by decide)
  · cases h
  · next hrole =>
    obtain ⟨a, ha, h⟩ := bind_eq_ok.1 h
    obtain ⟨b, hb, h⟩ := bind_eq_ok.1 h
    obtain ⟨offset, -, h⟩ := bind_eq_ok.1 h
    obtain rfl := Except.ok.inj h
    exact ofImmediate_fits (hlayout _ hrole (by simp) (by simp)) _ (registerField_lt ha)
      (registerField_lt hb)
  · next hrole =>
    obtain ⟨b, hb, h⟩ := bind_eq_ok.1 h
    obtain ⟨⟨offset, a⟩, ha, h⟩ := bind_eq_ok.1 h
    obtain rfl := Except.ok.inj h
    exact ofImmediate_fits (hlayout _ hrole (by simp) (by simp)) _ (memoryFields_lt ha)
      (registerField_lt hb)
  · next hrole =>
    obtain ⟨b, hb, h⟩ := bind_eq_ok.1 h
    obtain ⟨a, ha, h⟩ := bind_eq_ok.1 h
    obtain ⟨immediate, -, h⟩ := bind_eq_ok.1 h
    obtain rfl := Except.ok.inj h
    exact ofImmediate_fits (hlayout _ hrole (by simp) (by simp)) _ (registerField_lt ha)
      (registerField_lt hb)
  · cases h

/-- Every instruction that the assembler makes fits into a word. -/
theorem instructionOf_fits {s : Scope} {c : Command} {i : Instruction}
    (h : instructionOf s c = .ok i) : i.Fits := by
  rw [instructionOf] at h
  split at h
  · exact extendedInstruction_fits h
  · split at h
    · exact primaryInstruction_fits h
    · cases h

/-! ## Returns -/

theorem extendedInstruction_eq_register {s : Scope} {op : ExtendedOpcode} {operands : List String}
    {i : Instruction} (h : extendedInstruction s op operands = .ok i) : ∃ f, i = .register op f := by
  unfold extendedInstruction at h
  split at h
  · obtain ⟨c, -, h⟩ := bind_eq_ok.1 h
    obtain ⟨a, -, h⟩ := bind_eq_ok.1 h
    obtain ⟨b, -, h⟩ := bind_eq_ok.1 h
    exact ⟨_, (Except.ok.inj h).symm⟩
  · obtain ⟨c, -, h⟩ := bind_eq_ok.1 h
    obtain ⟨a, -, h⟩ := bind_eq_ok.1 h
    obtain ⟨amount, -, h⟩ := bind_eq_ok.1 h
    exact ⟨_, (Except.ok.inj h).symm⟩
  · obtain ⟨a, -, h⟩ := bind_eq_ok.1 h
    exact ⟨_, (Except.ok.inj h).symm⟩
  · exact ⟨_, (Except.ok.inj h).symm⟩
  · cases h

theorem primaryInstruction_isReturn {s : Scope} {op : Opcode} {operands : List String}
    {i : Instruction} (h : primaryInstruction s op operands = .ok i) : i.isReturn = false := by
  unfold primaryInstruction at h
  split at h
  · cases h
  · obtain ⟨target, -, h⟩ := bind_eq_ok.1 h
    rw [← Except.ok.inj h]
    rfl
  · obtain ⟨offset, -, h⟩ := bind_eq_ok.1 h
    rw [← Except.ok.inj h]
    rfl
  · cases h
  · obtain ⟨a, -, h⟩ := bind_eq_ok.1 h
    obtain ⟨b, -, h⟩ := bind_eq_ok.1 h
    obtain ⟨offset, -, h⟩ := bind_eq_ok.1 h
    rw [← Except.ok.inj h]
    rfl
  · obtain ⟨b, -, h⟩ := bind_eq_ok.1 h
    obtain ⟨fields, -, h⟩ := bind_eq_ok.1 h
    rw [← Except.ok.inj h]
    rfl
  · obtain ⟨b, -, h⟩ := bind_eq_ok.1 h
    obtain ⟨a, -, h⟩ := bind_eq_ok.1 h
    obtain ⟨immediate, -, h⟩ := bind_eq_ok.1 h
    rw [← Except.ok.inj h]
    rfl
  · cases h

theorem ofName?_name {name : String} {op : ExtendedOpcode}
    (h : ExtendedOpcode.ofName? name = some op) : op.name = name := by
  simpa using List.find?_some h

/-- What returns is written as a return, and what is written as a return returns. -/
theorem instructionOf_isReturn {s : Scope} {c : Command} {i : Instruction}
    (h : instructionOf s c = .ok i) : i.isReturn ↔ c.mnemonic = "ret" := by
  rw [instructionOf] at h
  split at h
  · next op hop =>
    obtain ⟨f, rfl⟩ := extendedInstruction_eq_register h
    rw [← ofName?_name hop]
    cases op <;> simp [Instruction.isReturn, ExtendedOpcode.name]
  · next hnone =>
    have hother : c.mnemonic ≠ "ret" := fun heq => by
      rw [heq] at hnone
      exact absurd hnone (by decide)
    split at h
    · simp [primaryInstruction_isReturn h, hother]
    · cases h

end Risc32.Assembly
