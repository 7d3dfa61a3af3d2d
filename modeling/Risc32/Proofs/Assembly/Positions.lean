import Mathlib.Data.List.Forall2
import Risc32.Assembly.Assemble
import Risc32.Proofs.Sequence

/-!
# Positions of operands

What an operand is read as depends on the mnemonic and on where it stands behind it: as the name of
a register, as a value or as an address with its base. This file gives the positions of every
mnemonic (`positions`), and shows that they are all an instruction depends on: operands that are
read as the same, each in its position, become the same instruction (`instructionOf_congr`). With
too many or too few of them there is none, whatever they are.
-/

set_option autoImplicit false

namespace Risc32.Assembly

/-- What an operand is read as. -/
inductive Position where
  | register
  | value
  /-- An offset and a base register. -/
  | memory
deriving DecidableEq, Repr

/-- The operands of an operation with the register layout. -/
def extendedPositions : ExtendedOpcode.Role → List Position
  | .compute _ => [.register, .register, .register]
  | .shift _ => [.register, .register, .value]
  | .callRegister => [.register]
  | .ret => []

/-- The operands of an operation with an opcode of its own. -/
def primaryPositions : Opcode.Role → List Position
  | .compute _ => [.register, .register, .value]
  | .branch .always => [.value]
  | .branch _ => [.register, .register, .value]
  | .access _ => [.register, .memory]
  | .call => [.value]
  | .registers => []

/-- The operands of a pseudo-instruction. -/
def Pseudo.positions : Pseudo → List Position
  | nop => []
  | movi | movia => [.register, .value]
  | mov => [.register, .register]
  | subi | bgt | ble => [.register, .register, .value]
  | cmple | cmpgt => [.register, .register, .register]

/-- The operands behind a mnemonic in lower case. What is no mnemonic has none. -/
def positions (mnemonic : String) : List Position :=
  match Pseudo.ofName? mnemonic with
  | some p => p.positions
  | none =>
    match ExtendedOpcode.ofName? mnemonic with
    | some op => extendedPositions op.role
    | none =>
      match Opcode.ofName? mnemonic with
      | some op => primaryPositions op.role
      | none => []

/-! ## Operands position by position -/

/-- The operands are as many and related one by one, each as its position asks for. What stands
behind the last position is related as values are. -/
inductive RelatedAt (R : Position → String → String → Prop) :
    List Position → List String → List String → Prop where
  | nil {ps : List Position} : RelatedAt R ps [] []
  | cons {p : Position} {ps : List Position} {o o' : String} {os os' : List String}
      (first : R p o o') (rest : RelatedAt R ps os os') : RelatedAt R (p :: ps) (o :: os) (o' :: os')
  | more {o o' : String} {os os' : List String} (first : R .value o o')
      (rest : RelatedAt R [] os os') : RelatedAt R [] (o :: os) (o' :: os')

namespace RelatedAt

variable {R S : Position → String → String → Prop} {ps : List Position} {p q r : Position}
  {os os' : List String}

theorem imp (h : RelatedAt R ps os os') (hRS : ∀ p o o', R p o o' → S p o o') :
    RelatedAt S ps os os' := by
  induction h with
  | nil => exact .nil
  | cons first _ ih => exact .cons (hRS _ _ _ first) ih
  | more first _ ih => exact .more (hRS _ _ _ first) ih

theorem forall₂ {T : String → String → Prop} (h : RelatedAt R ps os os')
    (hRT : ∀ p o o', R p o o' → T o o') : List.Forall₂ T os os' := by
  induction h with
  | nil => exact .nil
  | cons first _ ih => exact .cons (hRT _ _ _ first) ih
  | more first _ ih => exact .cons (hRT _ _ _ first) ih

theorem length_eq (h : RelatedAt R ps os os') : os.length = os'.length := by
  induction h with
  | nil => rfl
  | cons _ _ ih => rw [List.length_cons, List.length_cons, ih]
  | more _ _ ih => rw [List.length_cons, List.length_cons, ih]

/-! As many operands as there are positions, by their number. -/

theorem eq_nil (h : RelatedAt R ps os os') (hlength : os.length = 0) : os = [] ∧ os' = [] :=
  ⟨List.length_eq_zero_iff.1 hlength, List.length_eq_zero_iff.1 (h.length_eq ▸ hlength)⟩

theorem eq_cons {n : Nat} (h : RelatedAt R (p :: ps) os os') (hlength : os.length = n + 1) :
    ∃ o o' rest rest', os = o :: rest ∧ os' = o' :: rest' ∧ R p o o' ∧ RelatedAt R ps rest rest' ∧
      rest.length = n := by
  cases h with
  | nil => cases hlength
  | cons first rest => exact ⟨_, _, _, _, rfl, rfl, first, rest, Nat.succ.inj hlength⟩

theorem eq_one (h : RelatedAt R [p] os os') (hlength : os.length = 1) :
    ∃ a a', os = [a] ∧ os' = [a'] ∧ R p a a' := by
  obtain ⟨a, a', rest, rest', rfl, rfl, ha, hrest, hlength⟩ := h.eq_cons hlength
  obtain ⟨rfl, rfl⟩ := hrest.eq_nil hlength
  exact ⟨a, a', rfl, rfl, ha⟩

theorem eq_two (h : RelatedAt R [p, q] os os') (hlength : os.length = 2) :
    ∃ a a' b b', os = [a, b] ∧ os' = [a', b'] ∧ R p a a' ∧ R q b b' := by
  obtain ⟨a, a', rest, rest', rfl, rfl, ha, hrest, hlength⟩ := h.eq_cons hlength
  obtain ⟨b, b', rfl, rfl, hb⟩ := hrest.eq_one hlength
  exact ⟨a, a', b, b', rfl, rfl, ha, hb⟩

theorem eq_three (h : RelatedAt R [p, q, r] os os') (hlength : os.length = 3) :
    ∃ a a' b b' c c', os = [a, b, c] ∧ os' = [a', b', c'] ∧ R p a a' ∧ R q b b' ∧ R r c c' := by
  obtain ⟨a, a', rest, rest', rfl, rfl, ha, hrest, hlength⟩ := h.eq_cons hlength
  obtain ⟨b, b', c, c', rfl, rfl, hb, hc⟩ := hrest.eq_two hlength
  exact ⟨a, a', b, b', c, c', rfl, rfl, ha, hb, hc⟩

end RelatedAt

/-! ## Reading operands -/

/-- The operands are read as the same in the position. -/
def Position.Agrees : Position → String → String → Prop
  | register, o, o' => (registerField o).toOption = (registerField o').toOption
  | value, o, o' => integer? o = integer? o' ∧ ∀ s, (valueOf s o).toOption = (valueOf s o').toOption
  | memory, o, o' => ∀ s, (memoryFields s o).toOption = (memoryFields s o').toOption

section

variable (s : Scope) {o o' : String}

theorem immediateField_congr (h : (valueOf s o).toOption = (valueOf s o').toOption) :
    (immediateField s o).toOption = (immediateField s o').toOption := by
  rw [immediateField, immediateField, toOption_bind, toOption_bind, h]

theorem shiftField_congr (h : (valueOf s o).toOption = (valueOf s o').toOption) :
    (shiftField s o).toOption = (shiftField s o').toOption := by
  rw [shiftField, shiftField, toOption_bind, toOption_bind, h]

theorem callField_congr (h : (valueOf s o).toOption = (valueOf s o').toOption) :
    (callField s o).toOption = (callField s o').toOption := by
  rw [callField, callField, toOption_bind, toOption_bind, h]

/-- A literal is a distance, and anything else a target. -/
theorem branchField_congr (hinteger : integer? o = integer? o')
    (h : (valueOf s o).toOption = (valueOf s o').toOption) :
    (branchField s o).toOption = (branchField s o').toOption := by
  rw [branchField, branchField, hinteger]
  cases integer? o' with
  | some offset => rfl
  | none =>
    simp only [toOption_bind, h]

end

/-! ## Instructions -/

variable {os os' : List String}

/-- An instruction has as many operands as its operation takes. -/
theorem extendedInstruction_of_length (s : Scope) {op : ExtendedOpcode}
    (h : os.length ≠ extendedArity op.role) :
    (extendedInstruction s op os).toOption = none := by
  unfold extendedInstruction
  split <;> rename_i hrole
  all_goals first | rfl | exact absurd (hrole ▸ rfl) h

theorem primaryArity_of_branch {role : Opcode.Role} {condition : Arithmetic.Condition}
    (hrole : role = .branch condition) (hnot : condition ≠ .always) : primaryArity role = 3 := by
  subst hrole
  cases condition with
  | always => exact absurd rfl hnot
  | _ => rfl

theorem primaryInstruction_of_length (s : Scope) {op : Opcode}
    (h : os.length ≠ primaryArity op.role) : (primaryInstruction s op os).toOption = none := by
  unfold primaryInstruction
  split
  case h_5 hnot hrole => exact absurd (primaryArity_of_branch hrole hnot).symm h
  all_goals rename_i hrole
  all_goals first | rfl | exact absurd (hrole ▸ rfl) h

theorem extendedInstruction_congr (s : Scope) (op : ExtendedOpcode)
    (h : RelatedAt Position.Agrees (extendedPositions op.role) os os') :
    (extendedInstruction s op os).toOption = (extendedInstruction s op os').toOption := by
  by_cases hcount : os.length = extendedArity op.role
  · cases hrole : op.role with
    | compute _ =>
      rw [hrole] at h hcount
      obtain ⟨c, c', a, a', b, b', rfl, rfl, hc, ha, hb⟩ := h.eq_three hcount
      simp only [Position.Agrees] at hc ha hb
      simp only [extendedInstruction, hrole, toOption_bind, hc, ha, hb]
    | shift _ =>
      rw [hrole] at h hcount
      obtain ⟨c, c', a, a', k, k', rfl, rfl, hc, ha, hk⟩ := h.eq_three hcount
      simp only [Position.Agrees] at hc ha
      simp only [extendedInstruction, hrole, toOption_bind, hc, ha, shiftField_congr s (hk.2 s)]
    | callRegister =>
      rw [hrole] at h hcount
      obtain ⟨a, a', rfl, rfl, ha⟩ := h.eq_one hcount
      simp only [Position.Agrees] at ha
      simp only [extendedInstruction, hrole, toOption_bind, ha]
    | ret =>
      rw [hrole] at h hcount
      obtain ⟨rfl, rfl⟩ := h.eq_nil hcount
      rfl
  · rw [extendedInstruction_of_length s hcount,
      extendedInstruction_of_length s (h.length_eq ▸ hcount)]

theorem primaryInstruction_congr (s : Scope) (op : Opcode)
    (h : RelatedAt Position.Agrees (primaryPositions op.role) os os') :
    (primaryInstruction s op os).toOption = (primaryInstruction s op os').toOption := by
  by_cases hcount : os.length = primaryArity op.role
  · cases hrole : op.role with
    | compute _ =>
      rw [hrole] at h hcount
      obtain ⟨b, b', a, a', k, k', rfl, rfl, hb, ha, hk⟩ := h.eq_three hcount
      simp only [Position.Agrees] at hb ha
      simp only [primaryInstruction, hrole, toOption_bind, hb, ha, immediateField_congr s (hk.2 s)]
    | branch condition =>
      rw [hrole] at h hcount
      cases condition with
      | always =>
        obtain ⟨t, t', rfl, rfl, ht⟩ := h.eq_one hcount
        simp only [primaryInstruction, hrole, toOption_bind, branchField_congr s ht.1 (ht.2 s)]
      | _ =>
        obtain ⟨a, a', b, b', t, t', rfl, rfl, ha, hb, ht⟩ := h.eq_three hcount
        simp only [Position.Agrees] at ha hb
        simp only [primaryInstruction, hrole, toOption_bind, ha, hb,
          branchField_congr s ht.1 (ht.2 s)]
    | access _ =>
      rw [hrole] at h hcount
      obtain ⟨b, b', m, m', rfl, rfl, hb, hm⟩ := h.eq_two hcount
      simp only [Position.Agrees] at hb hm
      simp only [primaryInstruction, hrole, toOption_bind, hb, hm s]
    | call =>
      rw [hrole] at h hcount
      obtain ⟨t, t', rfl, rfl, ht⟩ := h.eq_one hcount
      simp only [primaryInstruction, hrole, toOption_bind, callField_congr s (ht.2 s)]
    | registers => simp only [primaryInstruction, hrole]
  · rw [primaryInstruction_of_length s hcount, primaryInstruction_of_length s (h.length_eq ▸ hcount)]

/-- **Operands that are read as the same** become the same instruction. -/
theorem instructionOf_congr {mnemonic : String} (hreal : Pseudo.ofName? mnemonic = none)
    (h : RelatedAt Position.Agrees (positions mnemonic) os os') (s : Scope) :
    (instructionOf s ⟨mnemonic, os⟩).toOption = (instructionOf s ⟨mnemonic, os'⟩).toOption := by
  rw [positions, hreal] at h
  rw [instructionOf, instructionOf]
  cases hextended : ExtendedOpcode.ofName? mnemonic with
  | some op =>
    rw [hextended] at h
    exact extendedInstruction_congr s op h
  | none =>
    rw [hextended] at h
    cases hprimary : Opcode.ofName? mnemonic with
    | some op =>
      rw [hprimary] at h
      exact primaryInstruction_congr s op h
    | none => rfl

end Risc32.Assembly
