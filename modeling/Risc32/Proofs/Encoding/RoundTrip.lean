import Mathlib.Algebra.Group.Nat.Defs
import Risc32.Encoding.Instruction

/-!
# Writing an instruction and reading it back

A word has less room than the fields of a form, so writing a form and reading the word again gives
the form with each field cut to its width. Nothing is lost of an instruction whose fields fit and
whose form carries the code of its operation: `Instruction.decode_encode` reads it back exactly.

The one place where this could go wrong is the extended opcode. Shifts by a constant keep their
amount in its low five bits and every other operation wants these bits to be zero, so whether two
operations can claim one field is not visible from their codes alone.
`ExtendedOpcode.ofCode?_eq_some_iff` says that they cannot: the upper six bits decide.
-/

set_option autoImplicit false

namespace Risc32

/-! ## Forms -/

theorem ImmediateForm.decode_encode (f : ImmediateForm) :
    decode f.encode =
      ⟨(f.opcode.setWidth 6).setWidth 8, (f.a.setWidth 5).setWidth 8,
        (f.b.setWidth 5).setWidth 8, f.immediate⟩ := by
  simp only [decode, encode, opcodeField, ImmediateForm.mk.injEq]
  refine ⟨?_, ?_, ?_, ?_⟩ <;>
  · apply BitVec.eq_of_getLsbD_eq
    intro i hi
    simp only [BitVec.getLsbD_setWidth, BitVec.getLsbD_extractLsb', BitVec.getLsbD_append]
    grind

theorem RegisterForm.decode_encode (f : RegisterForm) :
    decode f.encode =
      ⟨(f.opcode.setWidth 6).setWidth 8, (f.opx.setWidth 11).setWidth 16,
        (f.a.setWidth 5).setWidth 8, (f.b.setWidth 5).setWidth 8,
        (f.c.setWidth 5).setWidth 8⟩ := by
  simp only [decode, encode, opcodeField, RegisterForm.mk.injEq]
  refine ⟨?_, ?_, ?_, ?_, ?_⟩ <;>
  · apply BitVec.eq_of_getLsbD_eq
    intro i hi
    simp only [BitVec.getLsbD_setWidth, BitVec.getLsbD_extractLsb', BitVec.getLsbD_append]
    grind

theorem JumpForm.decode_encode (f : JumpForm) :
    decode f.encode =
      ⟨(f.opcode.setWidth 6).setWidth 8, (f.immediate.setWidth 26).setWidth 32⟩ := by
  simp only [decode, encode, opcodeField, JumpForm.mk.injEq]
  refine ⟨?_, ?_⟩ <;>
  · apply BitVec.eq_of_getLsbD_eq
    intro i hi
    simp only [BitVec.getLsbD_setWidth, BitVec.getLsbD_extractLsb', BitVec.getLsbD_append]
    grind

/-- A field that is no wider than its room comes back whole. -/
theorem setWidth_setWidth_of_lt {m : Nat} (n : Nat) {x : BitVec m} (h : x.toNat < 2 ^ n) :
    (x.setWidth n).setWidth m = x := by
  apply BitVec.eq_of_toNat_eq
  rw [BitVec.toNat_setWidth, BitVec.toNat_setWidth, Nat.mod_eq_of_lt h,
    Nat.mod_eq_of_lt x.isLt]

/-! ## Codes -/

theorem Opcode.code_lt (op : Opcode) : op.code.toNat < 64 := by
  cases op <;> decide

theorem Opcode.ofCode?_code (op : Opcode) : ofCode? op.code = some op := by
  cases op <;> rfl

namespace ExtendedOpcode

/-- The upper six bits of the field, which are all that the codes differ in. -/
theorem upper_eq_code {opx : BitVec 16} {op : ExtendedOpcode} (h : opx &&& op.mask = op.code) :
    opx &&& 0x7E0#16 = op.code := by
  have hmask : op.mask &&& 0x7E0#16 = 0x7E0#16 := by cases op <;> rfl
  have hcode : op.code &&& 0x7E0#16 = op.code := by cases op <;> rfl
  calc opx &&& 0x7E0#16
      = opx &&& (op.mask &&& 0x7E0#16) := by rw [hmask]
    _ = (opx &&& op.mask) &&& 0x7E0#16 := by rw [BitVec.and_assoc]
    _ = op.code := by rw [h, hcode]

theorem code_and_mask (op : ExtendedOpcode) : op.code &&& op.mask = op.code := by
  cases op <;> rfl

theorem code_lt (op : ExtendedOpcode) : op.code.toNat < 2048 := by
  cases op <;> decide

theorem code_injective {op op' : ExtendedOpcode} (h : op.code = op'.code) : op = op' := by
  cases op <;> cases op' <;> first | rfl | exact absurd h (by decide)

theorem mem_all (op : ExtendedOpcode) : op ∈ all := by
  cases op <;> decide

/-- An extended opcode names an operation exactly if it is that operation's code under its
mask. No other operation can then be found first. -/
theorem ofCode?_eq_some_iff {opx : BitVec 16} {op : ExtendedOpcode} :
    ofCode? opx = some op ↔ opx &&& op.mask = op.code := by
  constructor
  · intro h
    simpa using List.find?_some h
  · intro h
    cases hf : ofCode? opx with
    | none =>
      have hnone := List.find?_eq_none.1 hf op (mem_all op)
      exact absurd h (by simpa using hnone)
    | some op' =>
      have h' : opx &&& op'.mask = op'.code := by simpa using List.find?_some hf
      have heq : op'.code = op.code := by rw [← upper_eq_code h', upper_eq_code h]
      rw [code_injective heq]

end ExtendedOpcode

/-! ## Instructions -/

namespace Instruction

/-- The fields of an instruction have room in a word, and its form carries the code of its
operation. -/
inductive Fits : Instruction → Prop where
  | immediate {op : Opcode} {f : ImmediateForm} (layout : op.layout = .immediate)
      (opcode : f.opcode = op.code) (a : f.a.toNat < 32) (b : f.b.toNat < 32) :
      Fits (.immediate op f)
  | register {op : ExtendedOpcode} {f : RegisterForm} (opcode : f.opcode = Opcode.registers.code)
      (opx : f.opx &&& op.mask = op.code) (width : f.opx.toNat < 2048)
      (a : f.a.toNat < 32) (b : f.b.toNat < 32) (c : f.c.toNat < 32) :
      Fits (.register op f)
  | jump {op : Opcode} {f : JumpForm} (layout : op.layout = .jump)
      (opcode : f.opcode = op.code) (width : f.immediate.toNat < 0x4000000) :
      Fits (.jump op f)

/-- An instruction that fits is read back as it was written. -/
theorem decode_encode {i : Instruction} (h : i.Fits) : decode i.encode = some i := by
  cases h with
  | @immediate op f layout opcode a b =>
    have hform : ImmediateForm.decode f.encode = f := by
      rw [ImmediateForm.decode_encode, setWidth_setWidth_of_lt 6 (opcode ▸ op.code_lt),
        setWidth_setWidth_of_lt 5 a, setWidth_setWidth_of_lt 5 b]
    have hop : Opcode.ofCode? (opcodeField f.encode) = some op := by
      rw [show opcodeField f.encode = f.opcode from congrArg ImmediateForm.opcode hform, opcode,
        Opcode.ofCode?_code]
    simp [decode, encode, hop, layout, hform]
  | @register op f opcode opx width a b c =>
    have hform : RegisterForm.decode f.encode = f := by
      rw [RegisterForm.decode_encode, setWidth_setWidth_of_lt 6 (opcode ▸ Opcode.code_lt _),
        setWidth_setWidth_of_lt 11 width, setWidth_setWidth_of_lt 5 a,
        setWidth_setWidth_of_lt 5 b, setWidth_setWidth_of_lt 5 c]
    have hop : Opcode.ofCode? (opcodeField f.encode) = some .registers := by
      rw [show opcodeField f.encode = f.opcode from congrArg RegisterForm.opcode hform, opcode,
        Opcode.ofCode?_code]
    -- The field of the extended opcode may hold more than the code, such as the amount of a shift.
    have hext : ExtendedOpcode.ofCode? f.opx = some op := ExtendedOpcode.ofCode?_eq_some_iff.2 opx
    have hlayout : Opcode.registers.layout = .register := rfl
    simp [decode, encode, hop, hlayout, hform, hext]
  | @jump op f layout opcode width =>
    have hform : JumpForm.decode f.encode = f := by
      rw [JumpForm.decode_encode, setWidth_setWidth_of_lt 6 (opcode ▸ op.code_lt),
        setWidth_setWidth_of_lt 26 width]
    have hop : Opcode.ofCode? (opcodeField f.encode) = some op := by
      rw [show opcodeField f.encode = f.opcode from congrArg JumpForm.opcode hform, opcode,
        Opcode.ofCode?_code]
    simp [decode, encode, hop, layout, hform]

/-- The instruction has the layout of its operation and the fields of the word. -/
def Views (w : Word) : Instruction → Prop
  | .immediate op f => op.layout = .immediate ∧ f = ImmediateForm.decode w
  | .register _ f => f = RegisterForm.decode w
  | .jump op f => op.layout = .jump ∧ f = JumpForm.decode w

theorem views_of_decode {w : Word} {i : Instruction} (h : decode w = some i) : i.Views w := by
  simp only [decode, Option.bind_eq_bind, Option.bind_eq_some_iff] at h
  obtain ⟨op, -, h⟩ := h
  cases hl : op.layout with
  | immediate =>
    simp only [hl, Option.pure_def, Option.some.injEq] at h
    subst h
    exact ⟨hl, rfl⟩
  | jump =>
    simp only [hl, Option.pure_def, Option.some.injEq] at h
    subst h
    exact ⟨hl, rfl⟩
  | register =>
    simp only [hl, Option.bind_eq_some_iff, Option.pure_def, Option.some.injEq] at h
    obtain ⟨op', -, h⟩ := h
    subst h
    rfl

end Instruction

end Risc32
