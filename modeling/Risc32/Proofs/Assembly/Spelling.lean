import Risc32.Assembly.Assemble
import Risc32.Proofs.Assembly.Decimals
import Risc32.Proofs.Assembly.Families
import Risc32.Proofs.Assembly.Halves
import Risc32.Proofs.Assembly.Tokens
import Risc32.Proofs.Encoding.Codec
import Risc32.Proofs.Machine.Execution

/-!
# Every instruction can be written

An instruction is spelled with the operands of its family in their order, registers by number and
numbers in decimal. The line is read back in four steps, and each of them returns what was written:
the tokens of the line, the command of the tokens, the fields of the operands, and the word of the
fields. What a family leaves out of the line is filled in by the assembler with values of its own,
so only words that have these values come back.
-/

set_option autoImplicit false

namespace Risc32

namespace Assembly

/-! ## A line with one command -/

/-- The name is one that a command of its own has: a token in lower case that is no label, names no
segment and stands for nothing else. -/
structure IsOperationName (name : String) : Prop where
  token : IsToken name
  lower : Text.lower name = name
  notLabel : endsInColon name = false
  notSegment : Segment.ofDirective? name = none
  real : Pseudo.ofName? name = none

theorem isOperationName_extended (op : ExtendedOpcode) : IsOperationName op.name := by
  cases op <;>
    exact ⟨.of_all (by decide) (by decide), by decide, by decide, by decide, by decide⟩

theorem isOperationName_primary {op : Opcode} (h : op ≠ .registers) : IsOperationName op.name := by
  cases op <;>
    first
    | exact ⟨.of_all (by decide) (by decide), by decide, by decide, by decide, by decide⟩
    | exact absurd rfl h

variable {c : Command} (hname : IsOperationName c.mnemonic)
  (hoperands : ∀ o ∈ c.operands, IsToken o)

include hname hoperands

theorem parse_text : Line.parse c.text = .ok (.content none (c.mnemonic :: c.operands)) := by
  rw [Line.parse, tokens?_text hname.token hoperands]
  simp [Line.ofTokens, hname.notLabel, Line.ofLabelAndTokens, hname.notSegment]

theorem addLine_text (seed : LabelTable) (line : Nat) :
    (Draft.new seed).addLine line c.text =
      .ok { Draft.new seed with
        statements := #[⟨c, line⟩]
        called := (Draft.calledBy c).foldl (fun called name => called.insert name) [] } := by
  have hcommand : Draft.commandOf (c.mnemonic :: c.operands) = c := by
    rw [Draft.commandOf, hname.lower]
  have hexpand : c.expand = .ok [c] := by rw [Command.expand, hname.real]
  rw [Draft.addLine, parse_text hname hoperands]
  simp [Draft.addContent, Draft.new, Draft.addCommand, hcommand, hexpand]

/-- A source of one line with one command is accepted if the command is an instruction, and it is
just this instruction. -/
theorem ofLines_text {seed : LabelTable} {i : Instruction}
    (hi : instructionOf ⟨seed, 0⟩ c = .ok i) :
    ∃ p, Program.ofLines [c.text] seed = .ok p ∧ p.words = [i.encode] := by
  have hread : (Draft.new seed).addLines 0 [c.text] = .ok _ :=
    bind_eq_ok.2 ⟨_, addLine_text hname hoperands seed 0, rfl⟩
  have hinstructions : instructionsFrom seed 0 [⟨c, 0⟩] = .ok [i] := instructionsFrom_cons hi rfl
  -- There is no data, so the labels are those of the seed.
  have hlabels : ∀ d : Draft, d.data = .empty → d.allLabels = .ok d.labels := by
    intro d hd
    rw [Draft.allLabels, hd]
    rfl
  exact ⟨_, bind_eq_ok.2 ⟨_, hread, bind_eq_ok.2 ⟨seed, hlabels _ rfl,
    bind_eq_ok.2 ⟨[i], hinstructions, rfl⟩⟩⟩, rfl⟩

omit hname hoperands

/-! ## Operands -/

theorem ofName?_registerName (r : Register) : Register.ofName? r.name = some r := by
  have hall : ∀ r : Register, Register.ofName? r.name = some r := by decide +kernel
  exact hall r

theorem isToken_name (r : Register) : IsToken r.name := by
  have hall : ∀ r : Register, r.name.toList ≠ [] ∧ r.name.toList.all isTokenChar = true := by
    decide +kernel
  exact .of_all (hall r).1 (hall r).2

theorem isTokenChar_of_mem {v : Int} {c : Char} (h : c ∈ (toString v).toList) :
    isTokenChar c = true := by
  rcases isDigit_or_minus_of_mem h with hdigit | rfl
  · simp [isTokenChar, Char.isAlphanum, hdigit]
  · rfl

theorem isToken_toString (v : Int) : IsToken (toString v) :=
  ⟨toString_ne_nil v, fun _ => isTokenChar_of_mem⟩

theorem isToken_memory (v : Int) (r : Register) :
    IsToken (toString v ++ "(" ++ r.name ++ ")") := by
  constructor
  · simp
  · intro c hc
    simp only [String.toList_append, List.mem_append] at hc
    rcases hc with ((hc | hc) | hc) | hc
    · exact isTokenChar_of_mem hc
    · rw [List.mem_singleton.1 hc]
      rfl
    · exact (isToken_name r).chars c hc
    · rw [List.mem_singleton.1 hc]
      rfl

/-! Numbers that are read back. Each kind of operand takes all the values that its field can have. -/

variable (s : Scope)

theorem valueOf_toString {v : Int} (h : v.natAbs ≤ literalLimit) :
    valueOf s (toString v) = .ok v := by
  rw [valueOf, integer?_toString h]

theorem toInt_bounds (x : BitVec 16) : -32768 ≤ x.toInt ∧ x.toInt ≤ 32767 :=
  ⟨BitVec.le_toInt x, Int.le_of_lt_add_one BitVec.toInt_lt⟩

theorem natAbs_toInt_le (x : BitVec 16) : x.toInt.natAbs ≤ literalLimit := by
  have hbounds := toInt_bounds x
  rw [literalLimit]
  omega

theorem immediateField_toString (x : BitVec 16) : immediateField s (toString x.toInt) = .ok x := by
  obtain ⟨lower, upper⟩ := toInt_bounds x
  rw [immediateField_eq_ok (valueOf_toString s (natAbs_toInt_le x)) lower (by omega),
    BitVec.ofInt_toInt]

theorem branchField_toString (x : BitVec 16) : branchField s (toString x.toInt) = .ok x := by
  simp only [branchField, integer?_toString (natAbs_toInt_le x)]
  show (if _ then _ else _) = _
  rw [if_pos (toInt_bounds x), BitVec.ofInt_toInt]
  rfl

theorem shiftField_toString {amount : Byte} (h : amount.toNat < 32) :
    shiftField s (toString (amount.toNat : Int)) = .ok amount := by
  simp only [shiftField, valueOf_toString s (v := amount.toNat) (by rw [literalLimit]; omega)]
  show (if _ then _ else _) = _
  rw [if_pos (by omega), BitVec.ofInt_natCast, BitVec.ofNat_toNat, BitVec.setWidth_eq]
  rfl

/-- The target of a call in bytes. -/
theorem callField_toString {target : Word} (h : target.toNat < 2 ^ 26) :
    callField s (toString (4 * target.toNat : Int)) = .ok target := by
  have hvalue : valueOf s (toString (4 * target.toNat : Int)) = .ok (4 * target.toNat) :=
    valueOf_toString s (by rw [literalLimit]; omega)
  have hwords : ((BitVec.ofInt 32 (4 * target.toNat : Int)).extractLsb' 2 26).setWidth 32 =
      target := by
    apply BitVec.eq_of_toNat_eq
    rw [show (4 * target.toNat : Int) = (4 * target.toNat : Nat) by omega, BitVec.ofInt_natCast,
      BitVec.toNat_setWidth, BitVec.extractLsb'_toNat, BitVec.toNat_ofNat,
      Nat.shiftRight_eq_div_pow]
    omega
  simp only [callField, hvalue]
  show (if _ then _ else _) = _
  rw [if_pos (by omega), hwords]
  rfl

theorem memoryFields_toString (x : BitVec 16) (r : Register) :
    memoryFields s (toString x.toInt ++ "(" ++ r.name ++ ")") = .ok (x, r.index) := by
  -- A number has neither the sign of an expression in it nor a parenthesis.
  have hnumber : ∀ c ∈ (toString x.toInt).toList, c ≠ '%' ∧ c ≠ '(' := by
    intro c hc
    rcases isDigit_or_minus_of_mem hc with hdigit | rfl
    · constructor <;>
      · rintro rfl
        exact absurd hdigit (by decide)
    · decide
  have hoffset : IsOffset (toString x.toInt).toList := by
    refine .plain (fun hmem => (hnumber _ hmem).2 rfl) ?_
    rintro ⟨kind, heq, -⟩
    exact (hnumber '%' (heq ▸ List.mem_cons_self)).1 rfl
  exact memoryFields_eq_ok s hoffset (toString_ne_nil _) (immediateField_toString s x)
    (ofName?_registerName r)

end Assembly

open Assembly

/-! ## Fields -/

/-- A field that is narrow enough names a register. -/
theorem Register.index_slot {b : Byte} (h : b.toNat < 32) :
    Register.index (RegisterFile.slot b) = b := by
  apply BitVec.eq_of_toNat_eq
  rw [index, BitVec.toNat_ofNat]
  show b.toNat % 32 % 2 ^ 8 = b.toNat
  omega

namespace ExtendedOpcode

/-- Where the mask leaves nothing out, the extended opcode is the code. -/
theorem eq_code {opx : BitVec 16} {op : ExtendedOpcode} (hlt : opx.toNat < 2048)
    (hmask : op.mask = 0x7FF) (h : opx &&& op.mask = op.code) : opx = op.code := by
  rw [← h, hmask]
  apply BitVec.eq_of_toNat_eq
  rw [BitVec.toNat_and]
  show opx.toNat = opx.toNat &&& 2 ^ 11 - 1
  rw [Nat.and_two_pow_sub_one_eq_mod, Nat.mod_eq_of_lt hlt]

/-- Where it leaves out the amount of a shift, the extended opcode is the code with the amount. -/
theorem eq_code_or_amount {opx : BitVec 16} {op : ExtendedOpcode} (hlt : opx.toNat < 2048)
    (hmask : op.mask = 0x7E0#16) (h : opx &&& op.mask = op.code) :
    opx = op.code ||| (opx.setWidth 5).setWidth 16 := by
  have hbits : ∀ i < 16, (0x7E0#16).getLsbD i = (decide (5 ≤ i) && decide (i < 11)) := by decide
  have hhigh : ∀ i, 11 ≤ i → opx.getLsbD i = false := fun i hi =>
    Nat.testBit_lt_two_pow (Nat.lt_of_lt_of_le hlt (Nat.pow_le_pow_right Nat.two_pos hi))
  rw [← h, hmask]
  apply BitVec.eq_of_getLsbD_eq
  intro i hi
  rw [BitVec.getLsbD_or, BitVec.getLsbD_and, hbits i hi]
  simp only [BitVec.getLsbD_setWidth]
  by_cases hlow : i < 5
  · simp [hlow, hi]
  · by_cases hlt : i < 11
    · simp [hlow, hlt, Nat.le_of_not_lt hlow]
    · simp [hhigh i (Nat.le_of_not_lt hlt)]

end ExtendedOpcode

/-! ## Instructions -/

namespace Instruction

/-- The name of the register in a field. -/
def registerName (b : Byte) : String :=
  Register.name (RegisterFile.slot b)

/-- How the instruction is written: with the operands of its family, the names `r0` to `r31` and
numbers in decimal. The target of a call is a number of bytes. -/
def spelling : Instruction → Command
  | register op f =>
    ⟨op.name,
      match op.role with
      | .compute _ => [registerName f.c, registerName f.a, registerName f.b]
      | .shift _ => [registerName f.c, registerName f.a, toString (f.amount.toNat : Int)]
      | .callRegister => [registerName f.a]
      | .ret => []⟩
  | immediate op f =>
    ⟨op.name,
      match op.role with
      | .branch .always => [toString f.immediate.toInt]
      | .branch _ => [registerName f.a, registerName f.b, toString f.immediate.toInt]
      | .access _ => [registerName f.b, toString f.immediate.toInt ++ "(" ++ registerName f.a ++ ")"]
      | _ => [registerName f.b, registerName f.a, toString f.immediate.toInt]⟩
  | jump op f => ⟨op.name, [toString (4 * f.immediate.toNat : Int)]⟩

/-- The fields that are not written have the values that the assembler gives them. -/
def Canonical : Instruction → Prop
  | register op f =>
    match op.role with
    | .compute _ => True
    | .shift _ => f.b = 0
    | .callRegister => f.b = 0 ∧ f.c = Register.returnAddress.index
    | .ret => f.a = Register.returnAddress.index ∧ f.b = 0 ∧ f.c = 0
  | immediate op f =>
    match op.role with
    | .branch .always => f.a = 0 ∧ f.b = 0
    | _ => True
  | jump _ _ => True

variable (s : Scope)

theorem field_lt (x : BitVec 5) : (x.setWidth 8).toNat < 32 := by
  have hx := x.isLt
  rw [BitVec.toNat_setWidth]
  omega

/-- What is written with the immediate layout is assembled again, once the registers fit. -/
theorem instructionOf_spelling_immediate {op : Opcode} {f : ImmediateForm}
    (hopcode : f.opcode = op.code) (ha : f.a.toNat < 32) (hb : f.b.toNat < 32)
    (hhandled : (immediate op f).Handled) (hcanonical : (immediate op f).Canonical) :
    instructionOf s (immediate op f).spelling = .ok (immediate op f) := by
  obtain ⟨opcode, a, b, field⟩ := f
  obtain rfl : opcode = op.code := hopcode
  have hnameA := ofName?_registerName (RegisterFile.slot a)
  have hnameB := ofName?_registerName (RegisterFile.slot b)
  have hindexA := Register.index_slot ha
  have hindexB := Register.index_slot hb
  cases hhandled with
  | compute role =>
    have h := instructionOf_immediate s hnameA hnameB role (immediateField_toString s field)
    rw [hindexA, hindexB] at h
    simp only [spelling, role]
    exact h
  | @branch _ _ condition role =>
    have htarget := branchField_toString s field
    cases condition with
    | always =>
      simp only [Canonical, role] at hcanonical
      obtain ⟨rfl, rfl⟩ := hcanonical
      simp only [spelling, role]
      exact instructionOf_branchAlways s role htarget
    | _ =>
      have h := instructionOf_branch s hnameA hnameB role (by simp) htarget
      rw [hindexA, hindexB] at h
      simp only [spelling, role]
      exact h
  | access role =>
    have haddress := memoryFields_toString s field (RegisterFile.slot a)
    have h := instructionOf_access s hnameB role haddress
    rw [hindexA, hindexB] at h
    simp only [spelling, role]
    exact h

/-- What is written with the register layout is assembled again, once the fields fit. -/
theorem instructionOf_spelling_register {op : ExtendedOpcode} {f : RegisterForm}
    (hopcode : f.opcode = Opcode.registers.code) (hopx : f.opx &&& op.mask = op.code)
    (hlt : f.opx.toNat < 2048) (ha : f.a.toNat < 32) (hb : f.b.toNat < 32) (hc : f.c.toNat < 32)
    (hcanonical : (register op f).Canonical) :
    instructionOf s (register op f).spelling = .ok (register op f) := by
  obtain ⟨opcode, opx, a, b, c⟩ := f
  obtain rfl : opcode = Opcode.registers.code := hopcode
  have hnameA := ofName?_registerName (RegisterFile.slot a)
  have hnameB := ofName?_registerName (RegisterFile.slot b)
  have hnameC := ofName?_registerName (RegisterFile.slot c)
  have hindexA := Register.index_slot ha
  have hindexB := Register.index_slot hb
  have hindexC := Register.index_slot hc
  have hcode : op.shift? = none → opx = op.code := fun hnone =>
    ExtendedOpcode.eq_code hlt (by rw [ExtendedOpcode.mask, hnone]; rfl) hopx
  cases role : op.role with
  | compute g =>
    obtain rfl := hcode (by rw [ExtendedOpcode.shift?, role])
    have h := instructionOf_registers s hnameA hnameB hnameC role
    rw [hindexA, hindexB, hindexC] at h
    simp only [spelling, role]
    exact h
  | shift g =>
    simp only [Canonical, role] at hcanonical
    subst hcanonical
    have hmask : op.mask = 0x7E0#16 := by
      rw [ExtendedOpcode.mask, ExtendedOpcode.shift?, role]
      rfl
    let amount : Byte := (opx.setWidth 5).setWidth 8
    have hnat : amount.toNat = ((opx.setWidth 5).setWidth 32).toNat :=
      (BitVec.toNat_setWidth_of_le (by decide)).trans (BitVec.toNat_setWidth_of_le (by decide)).symm
    have hfield : amount.setWidth 5 = opx.setWidth 5 := by
      rw [BitVec.setWidth_setWidth_of_le _ (by decide), BitVec.setWidth_eq]
    have hamount : shiftField s (toString (amount.toNat : Int)) = .ok amount :=
      shiftField_toString s (field_lt _)
    have h := instructionOf_shift s hnameA hnameC role hamount
    rw [hindexA, hindexC, hnat] at h
    simp only [spelling, role]
    refine h.trans ?_
    rw [Instruction.ofShift, hfield, ← ExtendedOpcode.eq_code_or_amount hlt hmask hopx]
  | callRegister =>
    obtain rfl := hcode (by rw [ExtendedOpcode.shift?, role])
    simp only [Canonical, role] at hcanonical
    obtain ⟨rfl, rfl⟩ := hcanonical
    have h := instructionOf_callRegister s hnameA role
    rw [hindexA] at h
    simp only [spelling, role]
    exact h
  | ret =>
    obtain rfl := hcode (by rw [ExtendedOpcode.shift?, role])
    simp only [Canonical, role] at hcanonical
    obtain ⟨rfl, rfl, rfl⟩ := hcanonical
    simp only [spelling, role]
    exact instructionOf_ret s role

theorem instructionOf_spelling_jump {op : Opcode} {f : JumpForm} (hopcode : f.opcode = op.code)
    (hlt : f.immediate.toNat < 2 ^ 26) (hhandled : (jump op f).Handled) :
    instructionOf s (jump op f).spelling = .ok (jump op f) := by
  obtain ⟨opcode, target⟩ := f
  obtain rfl : opcode = op.code := hopcode
  cases hhandled with
  | call role => exact instructionOf_callField s role (callField_toString s hlt)

variable {w : Word}

/-- What is written of an instruction that a word decodes to is assembled to this instruction. -/
theorem instructionOf_spelling {i : Instruction} (h : decode w = some i)
    (hcanonical : i.Canonical) : instructionOf s i.spelling = .ok i := by
  have hhandled := handled_of_decode h
  obtain ⟨hclaims, hviews⟩ := decode_eq_some_iff.1 h
  cases i with
  | immediate op f =>
    obtain ⟨-, rfl⟩ := hviews
    exact instructionOf_spelling_immediate s hclaims.2 (field_lt _) (field_lt _) hhandled hcanonical
  | register op f =>
    obtain rfl : f = RegisterForm.decode w := hviews
    have hlt : (RegisterForm.decode w).opx.toNat < 2048 := by
      have hx := (w.extractLsb' 6 11).isLt
      rw [RegisterForm.decode, BitVec.toNat_setWidth]
      omega
    exact instructionOf_spelling_register s hclaims.1 hclaims.2 hlt (field_lt _) (field_lt _)
      (field_lt _) hcanonical
  | jump op f =>
    obtain ⟨-, rfl⟩ := hviews
    have hlt : (JumpForm.decode w).immediate.toNat < 2 ^ 26 := by
      have hx := (w.extractLsb' 6 26).isLt
      rw [JumpForm.decode, BitVec.toNat_setWidth]
      omega
    exact instructionOf_spelling_jump s hclaims.2 hlt hhandled

/-! ## Lines -/

theorem isToken_of_mem_operands (i : Instruction) : ∀ o ∈ i.spelling.operands, IsToken o := by
  cases i with
  | register op f =>
    cases role : op.role <;>
      simp only [spelling, role, registerName, List.forall_mem_cons, isToken_name, isToken_toString,
        List.not_mem_nil, false_imp_iff, implies_true, and_self]
  | immediate op f =>
    simp only [spelling]
    split <;>
      simp only [registerName, List.forall_mem_cons, isToken_name, isToken_toString, isToken_memory,
        List.not_mem_nil, false_imp_iff, implies_true, and_self]
  | jump op f =>
    exact List.forall_mem_singleton.2 (isToken_toString _)

/-- Only the opcode of the register layout has a name that no command has. -/
theorem isOperationName_mnemonic {i : Instruction} (h : decode w = some i) :
    IsOperationName i.spelling.mnemonic := by
  have hviews := views_of_decode h
  cases i with
  | register op f => exact isOperationName_extended op
  | immediate op f =>
    refine isOperationName_primary ?_
    rintro rfl
    exact absurd hviews.1 (by decide)
  | jump op f =>
    refine isOperationName_primary ?_
    rintro rfl
    exact absurd hviews.1 (by decide)

/-- Every word that means something, and has nothing in the fields that its family does not use, is
what the line that spells it is assembled to. -/
theorem ofLines_spelling {i : Instruction} (h : decode w = some i) (hcanonical : i.Canonical)
    (seed : LabelTable) :
    ∃ p, Program.ofLines [i.spelling.text] seed = .ok p ∧ p.words = [w] := by
  obtain ⟨p, hp, hwords⟩ := ofLines_text (isOperationName_mnemonic h) (isToken_of_mem_operands i)
    (instructionOf_spelling ⟨seed, 0⟩ h hcanonical)
  exact ⟨p, hp, hwords.trans (congrArg ([·]) (encode_of_decode h))⟩

/-- The largest amount, the smallest offset, the last target and the lines with nothing to write. -/
theorem ofLines_spelling_extremes :
    (∃ p, Program.ofLines ["slli r31, r1, 31"] .empty = .ok p ∧ p.words = [0x083E97FA]) ∧
    (∃ p, Program.ofLines ["ldw r4, -32768(r27)"] .empty = .ok p ∧ p.words = [0xD9200017]) ∧
    (∃ p, Program.ofLines ["call 268435452"] .empty = .ok p ∧ p.words = [0xFFFFFFC0]) ∧
    (∃ p, Program.ofLines ["br -4"] .empty = .ok p ∧ p.words = [0x003FFF06]) ∧
    (∃ p, Program.ofLines ["ret"] .empty = .ok p ∧ p.words = [0xF800283A]) :=
  ⟨ofLines_spelling (i := ofShift .slli 1 31 31) (by decide) rfl .empty,
    ofLines_spelling (i := .immediate .ldw ⟨0x17, 27, 4, 0x8000⟩) (by decide) trivial .empty,
    ofLines_spelling (i := ofJump .call 0x3FFFFFF) (by decide) trivial .empty,
    ofLines_spelling (i := .immediate .br ⟨0x06, 0, 0, 0xFFFC⟩) (by decide) ⟨rfl, rfl⟩ .empty,
    ofLines_spelling (i := ofRegisters .ret 31 0 0) (by decide) ⟨rfl, rfl, rfl⟩ .empty⟩

end Instruction

end Risc32
