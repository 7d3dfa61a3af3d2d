import Risc32.Assembly.Assemble
import Risc32.Proofs.Assembly.Instructions
import Risc32.Proofs.Assembly.MemoryOperands

/-!
# Families of instructions

What the assembler makes of a command, family by family, once it is known what the operands stand
for. Every field of the instruction comes from one operand, and in each family the operands are
written in an order of their own, which is what these equations are about.
-/

set_option autoImplicit false

namespace Risc32.Assembly

theorem registerField_eq_ok {name : String} {r : Register} (h : Register.ofName? name = some r) :
    registerField name = .ok r.index := by
  rw [registerField, h]

theorem immediateField_eq_ok {s : Scope} {text : String} {value : Int}
    (h : valueOf s text = .ok value) (lower : -32768 ≤ value) (upper : value ≤ 65535) :
    immediateField s text = .ok (BitVec.ofInt 16 value) := by
  rw [immediateField, h]
  exact if_pos ⟨lower, upper⟩

/-- A name of a register can stand in parentheses. -/
theorem enclosable_of_ofName? {name : String} {r : Register}
    (h : Register.ofName? name = some r) : name.toList ≠ [] ∧ ')' ∉ name.toList := by
  have hnames : ∀ e ∈ Register.names, e.1.toList ≠ [] ∧ ')' ∉ e.1.toList := by decide +kernel
  obtain ⟨before, later, heq, -⟩ := List.lookup_eq_some_iff.1 h
  obtain ⟨hne, hclosed⟩ := hnames (Text.lower name, r) (by simp [heq])
  -- Lower case keeps a parenthesis, and it keeps the length.
  simp only [Text.lower, String.toList_ofList] at hne hclosed
  exact ⟨fun hnil => hne (by simp [hnil]), fun hmem => hclosed (List.mem_map.2 ⟨')', hmem, rfl⟩)⟩

/-- The fields of a memory operand whose parts can be read. -/
theorem memoryFields_eq_ok (s : Scope) {offset base : String} {r : Register} {field : BitVec 16}
    (hoffset : IsOffset offset.toList) (hne : offset.toList ≠ [])
    (hfield : immediateField s offset = .ok field) (hbase : Register.ofName? base = some r) :
    memoryFields s (offset ++ "(" ++ base ++ ")") = .ok (field, r.index) := by
  obtain ⟨hbased, hclosed⟩ := enclosable_of_ofName? hbase
  have hoperand : memoryOperand? (offset ++ "(" ++ base ++ ")").toList =
      some ⟨offset.toList, base.toList⟩ :=
    memoryOperand?_eq_some_iff.2 ⟨⟨hbased, hclosed, hoffset⟩, by simp [MemoryOperand.chars]⟩
  have hempty : offset.toList.isEmpty = false := List.isEmpty_eq_false_iff.2 hne
  simp only [memoryFields, hoperand, hempty, String.ofList_toList, hfield,
    registerField_eq_ok hbase]
  rfl

/-- Statements become instructions one after the other. -/
theorem instructionsFrom_cons {labels : LabelTable} {index : Nat} {s : Statement} {i : Instruction}
    (h : instructionOf ⟨labels, index⟩ s.toCommand = .ok i) {rest : List Statement}
    {is : List Instruction} (hrest : instructionsFrom labels (index + 1) rest = .ok is) :
    instructionsFrom labels index (s :: rest) = .ok (i :: is) := by
  simp only [instructionsFrom, h, hrest]
  rfl

theorem instructionOf_extended (s : Scope) (op : ExtendedOpcode) (operands : List String) :
    instructionOf s ⟨op.name, operands⟩ = extendedInstruction s op operands := by
  have hname : ExtendedOpcode.ofName? op.name = some op := by cases op <;> decide
  rw [instructionOf, hname]

theorem instructionOf_primary (s : Scope) (op : Opcode) (operands : List String) :
    instructionOf s ⟨op.name, operands⟩ = primaryInstruction s op operands := by
  have hextended : ExtendedOpcode.ofName? op.name = none := by cases op <;> decide
  have hname : Opcode.ofName? op.name = some op := by cases op <;> decide
  rw [instructionOf, hextended, hname]

section

variable (s : Scope) {a b c text : String} {ra rb rc : Register}
  (ha : Register.ofName? a = some ra) (hb : Register.ofName? b = some rb)
  (hc : Register.ofName? c = some rc)

/-! ## The register layout -/

section

variable {op : ExtendedOpcode}

include ha hb hc in
/-- The result comes first. -/
theorem instructionOf_registers {g : Arithmetic.Function} (role : op.role = .compute g) :
    instructionOf s ⟨op.name, [c, a, b]⟩ = .ok (.ofRegisters op ra.index rb.index rc.index) := by
  rw [instructionOf_extended]
  unfold extendedInstruction
  simp only [role, registerField_eq_ok ha, registerField_eq_ok hb,
    registerField_eq_ok hc]
  rfl

include ha hc in
theorem instructionOf_shift {g : Arithmetic.Function} (role : op.role = .shift g) {amount : Byte}
    (hamount : shiftField s text = .ok amount) :
    instructionOf s ⟨op.name, [c, a, text]⟩ = .ok (.ofShift op ra.index rc.index amount) := by
  rw [instructionOf_extended]
  unfold extendedInstruction
  simp only [role, registerField_eq_ok ha, registerField_eq_ok hc, hamount]
  rfl

include ha in
theorem instructionOf_callRegister (role : op.role = .callRegister) :
    instructionOf s ⟨op.name, [a]⟩ =
      .ok (.ofRegisters op ra.index 0 Register.returnAddress.index) := by
  rw [instructionOf_extended]
  unfold extendedInstruction
  simp only [role, registerField_eq_ok ha]
  rfl

theorem instructionOf_ret (role : op.role = .ret) :
    instructionOf s ⟨op.name, []⟩ = .ok (.ofRegisters op Register.returnAddress.index 0 0) := by
  rw [instructionOf_extended]
  unfold extendedInstruction
  simp only [role]
  rfl

end

/-! ## The other layouts -/

section

variable {op : Opcode} {field : BitVec 16}

include ha hb in
/-- The result comes first. -/
theorem instructionOf_immediate {g : Arithmetic.Function} (role : op.role = .compute g)
    (himmediate : immediateField s text = .ok field) :
    instructionOf s ⟨op.name, [b, a, text]⟩ = .ok (.ofImmediate op ra.index rb.index field) := by
  rw [instructionOf_primary]
  unfold primaryInstruction
  simp only [role, registerField_eq_ok ha, registerField_eq_ok hb, himmediate]
  rfl

include ha hb in
/-- A branch has no result, so the operands it compares are in order. -/
theorem instructionOf_branch {condition : Arithmetic.Condition} (role : op.role = .branch condition)
    (hcondition : condition ≠ .always) (htarget : branchField s text = .ok field) :
    instructionOf s ⟨op.name, [a, b, text]⟩ = .ok (.ofImmediate op ra.index rb.index field) := by
  rw [instructionOf_primary]
  unfold primaryInstruction
  simp only [role, registerField_eq_ok ha, registerField_eq_ok hb, htarget]
  cases condition with
  | always => exact absurd rfl hcondition
  | _ => rfl

theorem instructionOf_branchAlways (role : op.role = .branch .always)
    (htarget : branchField s text = .ok field) :
    instructionOf s ⟨op.name, [text]⟩ = .ok (.ofImmediate op 0 0 field) := by
  rw [instructionOf_primary]
  unfold primaryInstruction
  simp only [role, htarget]
  rfl

include hb in
/-- The register that is moved comes first, and the base is part of the address. -/
theorem instructionOf_access {kind : MemoryAccess} (role : op.role = .access kind) {base : Byte}
    (haddress : memoryFields s text = .ok (field, base)) :
    instructionOf s ⟨op.name, [b, text]⟩ = .ok (.ofImmediate op base rb.index field) := by
  rw [instructionOf_primary]
  unfold primaryInstruction
  simp only [role, registerField_eq_ok hb, haddress]
  rfl

theorem instructionOf_callField (role : op.role = .call) {target : Word}
    (htarget : callField s text = .ok target) :
    instructionOf s ⟨op.name, [text]⟩ = .ok (.ofJump op target) := by
  rw [instructionOf_primary]
  unfold primaryInstruction
  simp only [role, htarget]
  rfl

end

end

end Risc32.Assembly
