import Mathlib.Data.Bool.Basic
import Risc32.Proofs.Encoding.RoundTrip

/-!
# Every word and every form

A form holds more than a word has room for, and a word holds more than an instruction means. So
the two directions of the codec are different statements. A word read in any of the three layouts
is written back as it was, because the fields of a layout cover the word; a form comes back with
each field cut to its width.

Which operation a word names is said a second time here, without a search: an operation claims a
word by its codes alone (`Operation.Claims`). `Operation.claims_iff` says that the operation which
claims a word is the one that it decodes to, so that no word is claimed twice and a word that does
not decode is claimed by none.
-/

set_option autoImplicit false

namespace Risc32

/-! ## Fields -/

/-- The low `n` bits of a field, and zeros above them. -/
def cut {m : Nat} (n : Nat) (x : BitVec m) : BitVec m :=
  (x.setWidth n).setWidth m

theorem toNat_cut {m n : Nat} (h : n ≤ m) (x : BitVec m) : (cut n x).toNat = x.toNat % 2 ^ n := by
  rw [cut, BitVec.toNat_setWidth, BitVec.toNat_setWidth]
  apply Nat.mod_eq_of_lt
  exact Nat.lt_of_lt_of_le (Nat.mod_lt _ (Nat.two_pow_pos n)) (Nat.pow_le_pow_right (by decide) h)

theorem cut_lt {m n : Nat} (h : n ≤ m) (x : BitVec m) : (cut n x).toNat < 2 ^ n := by
  rw [toNat_cut h]
  exact Nat.mod_lt _ (Nat.two_pow_pos n)

/-- A cut field is written like the field itself. -/
theorem setWidth_cut {m n : Nat} (h : n ≤ m) (x : BitVec m) :
    (cut n x).setWidth n = x.setWidth n := by
  apply BitVec.eq_of_toNat_eq
  rw [BitVec.toNat_setWidth, toNat_cut h, BitVec.toNat_setWidth, Nat.mod_mod]

/-! ## Forms -/

/-- The fields that a word has room for. -/
def ImmediateForm.truncate (f : ImmediateForm) : ImmediateForm :=
  ⟨cut 6 f.opcode, cut 5 f.a, cut 5 f.b, f.immediate⟩

/-- The fields that a word has room for. -/
def RegisterForm.truncate (f : RegisterForm) : RegisterForm :=
  ⟨cut 6 f.opcode, cut 11 f.opx, cut 5 f.a, cut 5 f.b, cut 5 f.c⟩

/-- The fields that a word has room for. -/
def JumpForm.truncate (f : JumpForm) : JumpForm :=
  ⟨cut 6 f.opcode, cut 26 f.immediate⟩

/-- The fields of the layout cover the word. -/
theorem ImmediateForm.encode_decode (w : Word) : (decode w).encode = w := by
  simp only [encode, decode, opcodeField]
  apply BitVec.eq_of_getLsbD_eq
  intro i hi
  simp only [BitVec.getLsbD_setWidth, BitVec.getLsbD_extractLsb', BitVec.getLsbD_append]
  grind

/-- The fields of the layout cover the word. -/
theorem RegisterForm.encode_decode (w : Word) : (decode w).encode = w := by
  simp only [encode, decode, opcodeField]
  apply BitVec.eq_of_getLsbD_eq
  intro i hi
  simp only [BitVec.getLsbD_setWidth, BitVec.getLsbD_extractLsb', BitVec.getLsbD_append]
  grind

/-- The fields of the layout cover the word. -/
theorem JumpForm.encode_decode (w : Word) : (decode w).encode = w := by
  simp only [encode, decode, opcodeField]
  apply BitVec.eq_of_getLsbD_eq
  intro i hi
  simp only [BitVec.getLsbD_setWidth, BitVec.getLsbD_extractLsb', BitVec.getLsbD_append]
  grind

/-! ## Operations -/

/-- An operation of the machine: one with an opcode of its own, or one of those that share the
opcode of the register layout. -/
inductive Operation where
  | primary (op : Opcode)
  | extended (op : ExtendedOpcode)
deriving DecidableEq, Repr

/-- The codes in the word are those of the operation. The shared opcode of the register layout is
not an operation by itself. -/
def Operation.Claims (w : Word) : Operation → Prop
  | .primary op => op.layout ≠ .register ∧ opcodeField w = op.code
  | .extended op =>
    opcodeField w = Opcode.registers.code ∧ (RegisterForm.decode w).opx &&& op.mask = op.code

def Instruction.operation : Instruction → Operation
  | .immediate op _ => .primary op
  | .register op _ => .extended op
  | .jump op _ => .primary op

theorem Opcode.ofCode?_eq_some_iff {c : Byte} {op : Opcode} :
    ofCode? c = some op ↔ c = op.code := by
  constructor
  · intro h
    have hcode := List.find?_some h
    exact (eq_of_beq hcode).symm
  · rintro rfl
    exact op.ofCode?_code

/-- The shared opcode is the only one with the register layout. -/
theorem Opcode.layout_eq_register_iff {op : Opcode} :
    op.layout = .register ↔ op = .registers := by
  cases op <;> decide

/-- At most one extended opcode is found in a field. -/
theorem ExtendedOpcode.code_unique {opx : BitVec 16} {op op' : ExtendedOpcode}
    (h : opx &&& op.mask = op.code) (h' : opx &&& op'.mask = op'.code) : op = op' :=
  code_injective ((upper_eq_code h).symm.trans (upper_eq_code h'))

namespace Instruction

/-- A word is an instruction exactly if its codes are those of an operation, and it is the
instruction that has this operation and the fields of its layout. -/
theorem decode_eq_some_iff {w : Word} {i : Instruction} :
    decode w = some i ↔ i.operation.Claims w ∧ i.Views w := by
  constructor
  · intro h
    have hviews := views_of_decode h
    simp only [decode, Option.bind_eq_bind, Option.bind_eq_some_iff] at h
    obtain ⟨op, hop, h⟩ := h
    rw [Opcode.ofCode?_eq_some_iff] at hop
    refine ⟨?_, hviews⟩
    -- An extended operation claims the word by two codes, all others by the opcode alone.
    cases hl : op.layout with
    | immediate =>
      obtain rfl : immediate op _ = i := by simpa [hl] using h
      exact ⟨by simp [hl], hop⟩
    | jump =>
      obtain rfl : jump op _ = i := by simpa [hl] using h
      exact ⟨by simp [hl], hop⟩
    | register =>
      obtain ⟨op', hop', rfl⟩ : ∃ op', ExtendedOpcode.ofCode? _ = some op' ∧ register op' _ = i := by
        simpa [hl, Option.bind_eq_some_iff] using h
      rw [Opcode.layout_eq_register_iff.1 hl] at hop
      exact ⟨hop, ExtendedOpcode.ofCode?_eq_some_iff.1 hop'⟩
  · rintro ⟨hclaims, hviews⟩
    cases i with
    | immediate op f =>
      obtain ⟨hl, rfl⟩ := hviews
      have hop := Opcode.ofCode?_eq_some_iff.2 hclaims.2
      simp [decode, hop, hl]
    | jump op f =>
      obtain ⟨hl, rfl⟩ := hviews
      have hop := Opcode.ofCode?_eq_some_iff.2 hclaims.2
      simp [decode, hop, hl]
    | register op f =>
      obtain rfl : f = RegisterForm.decode w := hviews
      have hop := Opcode.ofCode?_eq_some_iff.2 hclaims.1
      have hext := ExtendedOpcode.ofCode?_eq_some_iff.2 hclaims.2
      simp [decode, hop, Opcode.layout_eq_register_iff.2 rfl, hext]

/-- A word that means something is the one its instruction is written as. -/
theorem encode_of_decode {w : Word} {i : Instruction} (h : decode w = some i) : i.encode = w := by
  have hviews := views_of_decode h
  cases i with
  | immediate op f =>
    obtain ⟨-, rfl⟩ := hviews
    exact ImmediateForm.encode_decode w
  | register op f =>
    obtain rfl : f = RegisterForm.decode w := hviews
    exact RegisterForm.encode_decode w
  | jump op f =>
    obtain ⟨-, rfl⟩ := hviews
    exact JumpForm.encode_decode w

end Instruction

/-- An operation claims a word exactly if the word decodes to an instruction with this
operation. -/
theorem Operation.claims_iff {w : Word} {op : Operation} :
    op.Claims w ↔ ∃ i, Instruction.decode w = some i ∧ i.operation = op := by
  constructor
  · intro h
    cases op with
    | primary op =>
      cases hl : op.layout with
      | immediate =>
        exact ⟨.immediate op (ImmediateForm.decode w),
          Instruction.decode_eq_some_iff.2 ⟨h, hl, rfl⟩, rfl⟩
      | jump =>
        exact ⟨.jump op (JumpForm.decode w), Instruction.decode_eq_some_iff.2 ⟨h, hl, rfl⟩, rfl⟩
      | register => exact absurd hl h.1
    | extended op =>
      exact ⟨.register op (RegisterForm.decode w), Instruction.decode_eq_some_iff.2 ⟨h, rfl⟩, rfl⟩
  · rintro ⟨i, hi, rfl⟩
    exact (Instruction.decode_eq_some_iff.1 hi).1

/-- A word that decodes is claimed by its operation and by no other. -/
theorem Operation.claims_iff_of_decode {w : Word} {i : Instruction}
    (h : Instruction.decode w = some i) (op : Operation) : op.Claims w ↔ op = i.operation := by
  rw [claims_iff]
  constructor
  · rintro ⟨i', hi', rfl⟩
    rw [Option.some.inj (h.symm.trans hi')]
  · rintro rfl
    exact ⟨i, h, rfl⟩

/-! ## Built instructions -/

namespace Instruction

/-- Whatever the fields of an instruction are, it is read back like the one with the cut fields,
because both are written as one word. -/
theorem decode_encode_of_encode_eq {i j : Instruction} (h : i.encode = j.encode) (hj : j.Fits) :
    decode i.encode = some j := by
  rw [h, decode_encode hj]

theorem decode_ofImmediate {op : Opcode} (layout : op.layout = .immediate) (a b : Byte)
    (immediate : BitVec 16) :
    decode (ofImmediate op a b immediate).encode =
      some (.immediate op ⟨op.code, cut 5 a, cut 5 b, immediate⟩) := by
  apply decode_encode_of_encode_eq
  · simp only [ofImmediate, encode, ImmediateForm.encode, setWidth_cut (show 5 ≤ 8 by decide)]
  · exact .immediate layout rfl (cut_lt (by decide) a) (cut_lt (by decide) b)

theorem decode_ofRegisters (op : ExtendedOpcode) (a b c : Byte) :
    decode (ofRegisters op a b c).encode =
      some (.register op ⟨Opcode.registers.code, op.code, cut 5 a, cut 5 b, cut 5 c⟩) := by
  apply decode_encode_of_encode_eq
  · simp only [ofRegisters, encode, RegisterForm.encode, setWidth_cut (show 5 ≤ 8 by decide)]
  · exact .register rfl op.code_and_mask op.code_lt (cut_lt (by decide) a) (cut_lt (by decide) b)
      (cut_lt (by decide) c)

end Instruction

/-- The amount of a shift lies in the bits which the mask leaves out. -/
theorem ExtendedOpcode.shifted_code {op : ExtendedOpcode} (shift : op = .slli ∨ op = .srli)
    (amount : BitVec 5) :
    (op.code ||| amount.setWidth 16) &&& op.mask = op.code ∧
      (op.code ||| amount.setWidth 16).toNat < 2048 ∧
      (op.code ||| amount.setWidth 16).setWidth 5 = amount := by
  revert amount
  obtain rfl | rfl := shift <;> decide

namespace Instruction

/-- A shift is read back with its amount cut to five bits, which `RegisterForm.amount` finds. -/
theorem decode_ofShift {op : ExtendedOpcode} (shift : op = .slli ∨ op = .srli)
    (a c amount : Byte) :
    ∃ f : RegisterForm,
      decode (ofShift op a c amount).encode = some (.register op f) ∧
      f = ⟨Opcode.registers.code, op.code ||| (amount.setWidth 5).setWidth 16, cut 5 a, 0,
        cut 5 c⟩ ∧
      f.amount = (amount.setWidth 5).setWidth 32 := by
  obtain ⟨hcode, hlt, hamount⟩ := ExtendedOpcode.shifted_code shift (amount.setWidth 5)
  refine ⟨_, ?_, rfl, by rw [RegisterForm.amount, hamount]⟩
  apply decode_encode_of_encode_eq
  · simp only [ofShift, encode, RegisterForm.encode, setWidth_cut (show 5 ≤ 8 by decide)]
  · exact .register rfl hcode hlt (cut_lt (by decide) a) (show (0 : Byte).toNat < 32 by decide)
      (cut_lt (by decide) c)

theorem decode_ofJump {op : Opcode} (layout : op.layout = .jump) (immediate : Word) :
    decode (ofJump op immediate).encode = some (.jump op ⟨op.code, cut 26 immediate⟩) := by
  apply decode_encode_of_encode_eq
  · simp only [ofJump, encode, JumpForm.encode, setWidth_cut (show 26 ≤ 32 by decide)]
  · exact .jump layout rfl (cut_lt (by decide) immediate)

end Instruction

/-! ## The codec -/

/-- Reading a word and writing it again changes nothing, in each layout and for instructions.
Writing a form, or an instruction that was built from any fields at all, and reading it again cuts
its fields to their widths and does nothing else. A word that decodes belongs to one operation,
and an extended opcode to one at most. -/
theorem codec_round_trip :
    (∀ w : Word, (ImmediateForm.decode w).encode = w ∧ (RegisterForm.decode w).encode = w ∧
      (JumpForm.decode w).encode = w) ∧
    (∀ f : ImmediateForm, ImmediateForm.decode f.encode = f.truncate) ∧
    (∀ f : RegisterForm, RegisterForm.decode f.encode = f.truncate) ∧
    (∀ f : JumpForm, JumpForm.decode f.encode = f.truncate) ∧
    (∀ (w : Word) (i : Instruction), Instruction.decode w = some i →
      i.encode = w ∧ ∀ op : Operation, op.Claims w ↔ op = i.operation) ∧
    (∀ (opx : BitVec 16) (op op' : ExtendedOpcode),
      opx &&& op.mask = op.code → opx &&& op'.mask = op'.code → op = op') ∧
    (∀ (op : Opcode) (a b : Byte) (immediate : BitVec 16), op.layout = .immediate →
      Instruction.decode (Instruction.ofImmediate op a b immediate).encode =
        some (.immediate op ⟨op.code, cut 5 a, cut 5 b, immediate⟩)) ∧
    (∀ (op : ExtendedOpcode) (a b c : Byte),
      Instruction.decode (Instruction.ofRegisters op a b c).encode =
        some (.register op ⟨Opcode.registers.code, op.code, cut 5 a, cut 5 b, cut 5 c⟩)) ∧
    (∀ (op : ExtendedOpcode) (a c amount : Byte), op = .slli ∨ op = .srli →
      ∃ f : RegisterForm,
        Instruction.decode (Instruction.ofShift op a c amount).encode = some (.register op f) ∧
        f = ⟨Opcode.registers.code, op.code ||| (amount.setWidth 5).setWidth 16, cut 5 a, 0,
          cut 5 c⟩ ∧
        f.amount = (amount.setWidth 5).setWidth 32) ∧
    (∀ (op : Opcode) (immediate : Word), op.layout = .jump →
      Instruction.decode (Instruction.ofJump op immediate).encode =
        some (.jump op ⟨op.code, cut 26 immediate⟩)) := by
  refine ⟨?words, ImmediateForm.decode_encode, RegisterForm.decode_encode, JumpForm.decode_encode,
    ?decoded, ?extended, ?immediate, ?registers, ?shift, ?jump⟩
  case words =>
    intro w
    exact ⟨ImmediateForm.encode_decode w, RegisterForm.encode_decode w, JumpForm.encode_decode w⟩
  case decoded =>
    intro w i h
    exact ⟨Instruction.encode_of_decode h, Operation.claims_iff_of_decode h⟩
  case extended =>
    intro opx op op' h h'
    exact ExtendedOpcode.code_unique h h'
  case immediate =>
    intro op a b immediate layout
    exact Instruction.decode_ofImmediate layout a b immediate
  case registers => exact Instruction.decode_ofRegisters
  case shift =>
    intro op a c amount shift
    exact Instruction.decode_ofShift shift a c amount
  case jump =>
    intro op immediate layout
    exact Instruction.decode_ofJump layout immediate

/-- The word of `addi r2, r1, -1`, two codes of an extended opcode, and instructions whose fields
are too wide. -/
theorem codec_round_trip_of_addi :
    ((Instruction.immediate .addi ⟨4, 1, 2, 0xFFFF⟩).encode = 0x08BFFFC4#32 ∧
      ∀ op : Operation, op.Claims 0x08BFFFC4#32 ↔ op = .primary .addi) ∧
    (∀ op : ExtendedOpcode, 0x353#16 &&& op.mask = op.code → ExtendedOpcode.srli = op) ∧
    Instruction.decode (Instruction.ofImmediate .stw 33 62 7).encode =
      some (.immediate .stw ⟨0x15, 1, 30, 7⟩) ∧
    (∃ f : RegisterForm,
      Instruction.decode (Instruction.ofShift .slli 33 62 255).encode = some (.register .slli f) ∧
      f = ⟨0x3A, 0x25F, 1, 0, 30⟩ ∧ f.amount = 31) ∧
    Instruction.decode (Instruction.ofJump .call 0xFC000001#32).encode =
      some (.jump .call ⟨0, 1⟩) := by
  obtain ⟨-, -, -, -, decoded, extended, immediate, -, shift, jump⟩ := codec_round_trip
  exact ⟨decoded _ (.immediate .addi ⟨4, 1, 2, 0xFFFF⟩) (by decide),
    fun op h => extended _ _ _ (by decide) h, immediate .stw 33 62 7 (by decide),
    shift .slli 33 62 255 (.inl rfl), jump .call 0xFC000001#32 (by decide)⟩

end Risc32
