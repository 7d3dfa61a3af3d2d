import Risc32.Proofs.Assembly.Instructions
import Risc32.Proofs.Assembly.Literals
import Risc32.Register.File

/-!
# Symbols as targets

An identifier is neither a literal nor an expression, so as an operand it is a symbol and nothing
else, and its value is the address that the symbol is bound to. From this follows what the
assembler makes of a branch or a call to a symbol, and when it refuses to.

A branch holds the distance to its target. It is refused exactly if the distance does not fit
(`Command.IsBranch.instructionOf_symbol`). A call holds the address of its target, and it is
refused only if the address is no word (`instructionOf_call_symbol`). So the room that there is for
the target of a call is not what decides about it.
-/

set_option autoImplicit false

namespace Risc32.Assembly

/-! ## Identifiers -/

/-- Letters come behind the digits. -/
theorem le_of_isAlpha {c : Char} (h : c.isAlpha) : 'A'.val ≤ c.val := by
  rcases (Bool.or_eq_true _ _).mp h with hupper | hlower
  · have hbounds : 'A'.val ≤ c.val ∧ c.val ≤ 'Z'.val := of_decide_eq_true hupper
    exact hbounds.1
  · have hle : 'a'.val ≤ c.val := of_decide_eq_true ((Bool.and_eq_true _ _).mp hlower).1
    exact UInt32.le_trans (by decide) hle

theorem not_isDigit_of_isIdentifierStart {c : Char} (h : isIdentifierStart c) :
    c.isDigit = false := by
  rw [isIdentifierStart, Bool.or_eq_true, Bool.or_eq_true, beq_iff_eq, beq_iff_eq] at h
  rcases h with (hletter | rfl) | rfl
  · apply Bool.eq_false_iff.2
    intro hdigit
    have hle : c.val ≤ '9'.val := of_decide_eq_true ((Bool.and_eq_true _ _).mp hdigit).2
    exact absurd (UInt32.le_trans (le_of_isAlpha hletter) hle) (by decide)
  · rfl
  · rfl

theorem toList_of_isIdentifier {name : String} (h : isIdentifier name) :
    ∃ c cs, name.toList = c :: cs ∧ isIdentifierStart c := by
  rw [isIdentifier] at h
  cases hchars : name.toList with
  | nil =>
    rw [hchars] at h
    cases h
  | cons c cs =>
    rw [hchars, isIdentifierOfChars, Bool.and_eq_true] at h
    exact ⟨c, cs, rfl, h.1⟩

theorem ne_of_isIdentifierStart {c d : Char} (hc : isIdentifierStart c)
    (hd : isIdentifierStart d = false) : c ≠ d := by
  rintro rfl
  rw [hc] at hd
  cases hd

theorem integer?_of_isIdentifier {name : String} (h : isIdentifier name) :
    integer? name = none := by
  obtain ⟨c, cs, hchars, hstart⟩ := toList_of_isIdentifier h
  have hminus := ne_of_isIdentifierStart hstart (by decide : isIdentifierStart '-' = false)
  have hplus := ne_of_isIdentifierStart hstart (by decide : isIdentifierStart '+' = false)
  have hzero := ne_of_isIdentifierStart hstart (by decide : isIdentifierStart '0' = false)
  have hdigits : digits? 10 decimalDigit? (c :: cs) = none := by
    simp [digits?, digitsFrom?, decimalDigit?, not_isDigit_of_isIdentifierStart hstart]
  simp [integer?, integerOfChars?, magnitude?_eq, hchars, hminus, hplus, hzero, hdigits]

theorem expression?_of_isIdentifier {name : String} (h : isIdentifier name) :
    expression? name.toList = none := by
  obtain ⟨c, cs, hchars, hstart⟩ := toList_of_isIdentifier h
  have hpercent := ne_of_isIdentifierStart hstart (by decide : isIdentifierStart '%' = false)
  simp [expression?, expressionPart?, hchars, hpercent]

theorem symbolValue?_of_isIdentifier (s : Scope) {name : String} (h : isIdentifier name) :
    symbolValue? s name = s.symbol? name := by
  obtain ⟨c, cs, hchars, hstart⟩ := toList_of_isIdentifier h
  have hminus := ne_of_isIdentifierStart hstart (by decide : isIdentifierStart '-' = false)
  rw [isIdentifier, hchars] at h
  simp [symbolValue?, hchars, hminus, h]

/-- The value of a symbol is its address. -/
theorem valueOf_symbol {s : Scope} {name : String} {address : Nat} (h : isIdentifier name)
    (haddress : s.labels.address? name = some address) : valueOf s name = .ok address := by
  have hsymbol : symbolValue? s name = some (address : Int) := by
    rw [symbolValue?_of_isIdentifier s h, Scope.symbol?, haddress]
    rfl
  rw [valueOf, integer?_of_isIdentifier h, expression?_of_isIdentifier h, hsymbol]

/-! ## Operations -/

theorem instructionOf_of_ofName? {name : String} {op : Opcode}
    (hextended : ExtendedOpcode.ofName? name = none) (hprimary : Opcode.ofName? name = some op)
    (s : Scope) (operands : List String) :
    instructionOf s ⟨name, operands⟩ = primaryInstruction s op operands := by
  rw [instructionOf, hextended, hprimary]

/-! ## Branches -/

/-- The distance from behind the instruction at an index to an address. -/
def distance (index address : Nat) : Int :=
  address - 4 * (index + 1)

/-- A branch has room for the distance. -/
def InReach (index address : Nat) : Prop :=
  -32768 ≤ distance index address ∧ distance index address ≤ 32767

instance (index address : Nat) : Decidable (InReach index address) :=
  inferInstanceAs (Decidable (_ ∧ _))

theorem branchField_symbol {s : Scope} {name : String} {address : Nat} (h : isIdentifier name)
    (haddress : s.labels.address? name = some address) :
    branchField s name =
      if InReach s.index address then .ok (BitVec.ofInt 16 (distance s.index address))
      else .error (.branchRange (distance s.index address)) := by
  have hdistance : (address : Int) - (s.index + 1) * 4 = distance s.index address := by
    rw [distance]
    omega
  simp only [branchField, integer?_of_isIdentifier h, valueOf_symbol h haddress]
  simp only [bind, Except.bind, pure, Except.pure, hdistance]
  rfl

/-- What a branch asks of the values of two registers. -/
def comparison? : String → Option (Word → Word → Prop)
  | "beq" => some fun a b => a = b
  | "bne" => some fun a b => a ≠ b
  | "bge" => some fun a b => b.toInt ≤ a.toInt
  | "blt" => some fun a b => a.toInt < b.toInt
  | _ => none

/-- A command that branches, with the registers for which it does and its target as written. -/
inductive Command.IsBranch : Command → (RegisterFile → Prop) → String → Prop where
  | always (target : String) : IsBranch ⟨"br", [target]⟩ (fun _ => True) target
  | compare {name a b : String} {asks : Word → Word → Prop} {ra rb : Register} (target : String)
      (comparison : comparison? name = some asks) (left : Register.ofName? a = some ra)
      (right : Register.ofName? b = some rb) :
      IsBranch ⟨name, [a, b, target]⟩ (fun file => asks (file.read ra) (file.read rb)) target

/-- The operations of the branches that compare. -/
theorem opcode_of_comparison? {name : String} {asks : Word → Word → Prop}
    (h : comparison? name = some asks) :
    ∃ op condition, op.role = .branch condition ∧ op.name = name ∧ condition ≠ .always ∧
      ExtendedOpcode.ofName? name = none ∧ Opcode.ofName? name = some op ∧
      ∀ a b, condition.holds a b ↔ asks a b := by
  unfold comparison? at h
  split at h
  · obtain rfl := Option.some.inj h
    refine ⟨.beq, .equal, rfl, rfl, by decide, by decide, by decide, ?_⟩
    intro a b
    simp [Arithmetic.Condition.holds]
  · obtain rfl := Option.some.inj h
    refine ⟨.bne, .notEqual, rfl, rfl, by decide, by decide, by decide, ?_⟩
    intro a b
    simp [Arithmetic.Condition.holds]
  · obtain rfl := Option.some.inj h
    refine ⟨.bge, .greaterEqual, rfl, rfl, by decide, by decide, by decide, ?_⟩
    intro a b
    simp [Arithmetic.Condition.holds, BitVec.sle]
  · obtain rfl := Option.some.inj h
    refine ⟨.blt, .less, rfl, rfl, by decide, by decide, by decide, ?_⟩
    intro a b
    simp [Arithmetic.Condition.holds, BitVec.slt]
  · cases h

/-- The instruction of a branch, which is there as soon as the target is. -/
theorem Command.IsBranch.instructionOf_eq {c : Command} {taken : RegisterFile → Prop}
    {target : String} (h : c.IsBranch taken target) :
    ∃ op condition a b, op.role = .branch condition ∧ op.name = c.mnemonic ∧
      (∀ file : RegisterFile, condition.holds (file.get a) (file.get b) ↔ taken file) ∧
      ∀ s, instructionOf s c = (branchField s target).map (Instruction.ofImmediate op a b) := by
  cases h with
  | always target =>
    refine ⟨.br, .always, 0, 0, rfl, rfl, fun _ => by simp [Arithmetic.Condition.holds], ?_⟩
    intro s
    rw [instructionOf_of_ofName? (by decide) (by decide : Opcode.ofName? "br" = some .br)]
    show (branchField s target >>= fun offset => pure (Instruction.ofImmediate .br 0 0 offset)) = _
    cases branchField s target <;> rfl
  | @compare name a b asks ra rb target comparison left right =>
    obtain ⟨op, condition, hrole, hname, hnot, hextended, hprimary, hholds⟩ :=
      opcode_of_comparison? comparison
    refine ⟨op, condition, ra.index, rb.index, hrole, hname, fun file => hholds _ _, ?_⟩
    intro s
    have hra : registerField a = .ok ra.index := by rw [registerField, left]
    have hrb : registerField b = .ok rb.index := by rw [registerField, right]
    rw [instructionOf_of_ofName? hextended hprimary]
    simp only [primaryInstruction, hrole, hra, hrb]
    cases condition with
    | always => exact absurd rfl hnot
    | _ => cases branchField s target <;> rfl

/-- The instruction of a branch to a symbol, which is there if the symbol is in reach. -/
theorem Command.IsBranch.instructionOf_symbol {c : Command} {taken : RegisterFile → Prop}
    {target : String} (h : c.IsBranch taken target) (hid : isIdentifier target) :
    ∃ op condition a b, op.role = .branch condition ∧ op.name = c.mnemonic ∧
      (∀ file : RegisterFile, condition.holds (file.get a) (file.get b) ↔ taken file) ∧
      ∀ (s : Scope) (address : Nat), s.labels.address? target = some address →
        instructionOf s c =
          if InReach s.index address then
            .ok (.ofImmediate op a b (BitVec.ofInt 16 (distance s.index address)))
          else .error (.branchRange (distance s.index address)) := by
  obtain ⟨op, condition, a, b, hrole, hname, hholds, hinstruction⟩ := h.instructionOf_eq
  refine ⟨op, condition, a, b, hrole, hname, hholds, ?_⟩
  intro s address haddress
  rw [hinstruction, branchField_symbol hid haddress, apply_ite (Except.map _)]
  rfl

theorem ofName?_of_registerField {name : String} {b : Byte} (h : registerField name = .ok b) :
    ∃ r, Register.ofName? name = some r := by
  rw [registerField] at h
  split at h
  · next r hr => exact ⟨r, hr⟩
  · cases h

theorem operands_of_branch {s : Scope} {op : Opcode} {operands : List String} {i : Instruction}
    {condition : Arithmetic.Condition} (h : primaryInstruction s op operands = .ok i)
    (hrole : op.role = .branch condition) :
    (condition = .always ∧ ∃ target, operands = [target]) ∨
      (condition ≠ .always ∧ ∃ a b target ra rb, operands = [a, b, target] ∧
        Register.ofName? a = some ra ∧ Register.ofName? b = some rb) := by
  unfold primaryInstruction at h
  rw [hrole] at h
  split at h
  · cases h
  · next heq => cases heq
  · next target heq => exact .inl ⟨Opcode.Role.branch.inj heq, target, rfl⟩
  · cases h
  · next _ a b target hnot heq =>
    rw [← Opcode.Role.branch.inj heq] at hnot
    obtain ⟨_, ha, h⟩ := bind_eq_ok.1 h
    obtain ⟨_, hb, h⟩ := bind_eq_ok.1 h
    obtain ⟨ra, hra⟩ := ofName?_of_registerField ha
    obtain ⟨rb, hrb⟩ := ofName?_of_registerField hb
    exact .inr ⟨hnot, a, b, target, ra, rb, rfl, hra, hrb⟩
  · next heq => cases heq
  · next heq => cases heq
  · cases h

/-- What is written as a branch and is an instruction has the operands of a branch. -/
theorem isBranch_of_instructionOf {s : Scope} {c : Command} {i : Instruction}
    (h : instructionOf s c = .ok i)
    (hname : c.mnemonic = "br" ∨ ∃ asks, comparison? c.mnemonic = some asks) :
    ∃ taken target, c.IsBranch taken target := by
  obtain ⟨name, operands⟩ := c
  obtain rfl | ⟨asks, hasks⟩ := hname
  · rw [instructionOf_of_ofName? (by decide) (by decide : Opcode.ofName? "br" = some .br)] at h
    have hrole : Opcode.br.role = .branch .always := rfl
    obtain ⟨-, target, rfl⟩ | ⟨hnot, -⟩ := operands_of_branch h hrole
    · exact ⟨_, target, .always target⟩
    · exact absurd rfl hnot
  · obtain ⟨op, condition, hrole, -, hnot, hextended, hprimary, -⟩ := opcode_of_comparison? hasks
    rw [instructionOf_of_ofName? hextended hprimary] at h
    obtain ⟨halways, -⟩ | ⟨-, a, b, target, ra, rb, rfl, hra, hrb⟩ := operands_of_branch h hrole
    · exact absurd halways hnot
    · exact ⟨_, target, .compare target hasks hra hrb⟩

/-! ## Calls -/

/-- The field of a call to a symbol. What it has no room for is not looked at. -/
theorem callField_symbol {s : Scope} {name : String} {address : Nat} (h : isIdentifier name)
    (haddress : s.labels.address? name = some address) :
    callField s name =
      if address < 2 ^ 32 then .ok (BitVec.ofNat 32 (address / 4 % 2 ^ 26))
      else .error (.callRange address) := by
  have hfield : ((BitVec.ofInt 32 address).extractLsb' 2 26).setWidth 32 =
      BitVec.ofNat 32 (address / 4 % 2 ^ 26) := by
    apply BitVec.eq_of_toNat_eq
    rw [BitVec.ofInt_natCast, BitVec.toNat_setWidth, BitVec.extractLsb'_toNat, BitVec.toNat_ofNat,
      BitVec.toNat_ofNat, Nat.shiftRight_eq_div_pow]
    omega
  simp only [callField, valueOf_symbol h haddress, bind, Except.bind, hfield]
  by_cases hword : address < 2 ^ 32
  · rw [if_pos hword, if_pos (by omega)]
    rfl
  · rw [if_neg hword, if_neg (by omega)]
    rfl

theorem instructionOf_call (s : Scope) (name : String) :
    instructionOf s ⟨"call", [name]⟩ = (callField s name).map (Instruction.ofJump .call) := by
  rw [instructionOf_of_ofName? (by decide) (by decide : Opcode.ofName? "call" = some .call)]
  show (callField s name >>= fun field => pure (Instruction.ofJump .call field)) = _
  cases callField s name <;> rfl

/-- The instruction of a call to a symbol, which is there if the address of the symbol is a word. -/
theorem instructionOf_call_symbol {name : String} (h : isIdentifier name) (s : Scope)
    {address : Nat} (haddress : s.labels.address? name = some address) :
    instructionOf s ⟨"call", [name]⟩ =
      if address < 2 ^ 32 then .ok (.ofJump .call (BitVec.ofNat 32 (address / 4 % 2 ^ 26)))
      else .error (.callRange address) := by
  rw [instructionOf_call, callField_symbol h haddress, apply_ite (Except.map _)]
  rfl

end Risc32.Assembly
