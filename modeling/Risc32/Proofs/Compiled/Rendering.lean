import Risc32.Compiled.Steps
import Risc32.Proofs.Sequence

/-!
# What the builder appends

Every instruction that can be compiled becomes one step. `Renders` says which step that is, with
the labels of branches read as the indices they stand for, so it says nothing of the order in
which labels were made. `Builder.add_renders` ties it to the builder.

A routine is then a rendering of a listing, the words it was compiled from with their indices:
`Routine.Realizes`. The step at a position belongs to the word at that position of the listing, and
every label leads to the position of the index it was asked for. That holds of any listing. The
words of a function stand in a row, those of a main routine have gaps.
-/

set_option autoImplicit false

namespace Risc32

/-- The address of the instruction with an index. -/
def codeAddress (base : Word) (index : Nat) : Word :=
  base + BitVec.ofNat 32 (4 * index)

theorem codeAddress_zero (base : Word) : codeAddress base 0 = base := by
  rw [codeAddress, BitVec.add_zero]

/-- What a step depends on besides its instruction and the index of it. -/
structure Surroundings where
  /-- The address of the instruction with index zero. -/
  base : Word
  exit : Exit
  linkage : Linkage

/-- The routine that a call to `target` goes to. -/
def Surroundings.unit? (s : Surroundings) (functions : List (Nat × Nat)) (target : Word) :
    Option Nat :=
  if s.base ≤ target then Linkage.unitAt? functions ((target.toNat - s.base.toNat) / 4) else none

/-- The step that an instruction becomes. `goes label target` says that a label stands for the
instruction with index `target`. -/
inductive Renders (s : Surroundings) (index : Nat) (goes : Nat → Nat → Prop) :
    Instruction → Step → Prop where
  | compute {op : ExtendedOpcode} {f : RegisterForm} {g : Arithmetic.Function}
      (role : op.role = .compute g) : Renders s index goes (.register op f) (.compute g f.c f.a f.b)
  | shift {op : ExtendedOpcode} {f : RegisterForm} {g : Arithmetic.Function}
      (role : op.role = .shift g) :
      Renders s index goes (.register op f) (.computeWith g f.c f.a f.amount)
  | computeWith {op : Opcode} {f : ImmediateForm} {g : Arithmetic.Function}
      (role : op.role = .compute g) :
      Renders s index goes (.immediate op f) (.computeWith g f.b f.a (op.operand f.immediate))
  | access {op : Opcode} {f : ImmediateForm} {kind : MemoryAccess} (role : op.role = .access kind) :
      Renders s index goes (.immediate op f)
        (.access kind ⟨op.name, codeAddress s.base (index + 1)⟩ f.b f.a f.signed)
  | branch {op : Opcode} {f : ImmediateForm} {condition : Arithmetic.Condition} {label target : Nat}
      (role : op.role = .branch condition) (aligned : f.signed.toInt % 4 = 0)
      (distance : (target : Int) = index + f.signed.toInt / 4 + 1)
      (label_goes : goes label target) :
      Renders s index goes (.immediate op f) (.branch condition f.a f.b label)
  | misalignedBranch {op : Opcode} {f : ImmediateForm} {condition : Arithmetic.Condition}
      (role : op.role = .branch condition) (misaligned : f.signed.toInt % 4 ≠ 0) :
      Renders s index goes (.immediate op f)
        (.misalignedBranch condition f.a f.b ⟨op.name, codeAddress s.base (index + 1)⟩
          (codeAddress s.base (index + 1) + f.signed))
  | returnTo {op : ExtendedOpcode} {f : RegisterForm} (role : op.role = .ret)
      (exit : s.exit = .toInterpreter) :
      Renders s index goes (.register op f)
        (.returnTo ⟨op.name, codeAddress s.base (index + 1)⟩)
  | leave {op : ExtendedOpcode} {f : RegisterForm} (role : op.role = .ret)
      (exit : s.exit = .toCaller) : Renders s index goes (.register op f) (.transfer .leave)
  | callUnit {op : Opcode} {f : JumpForm} {functions : List (Nat × Nat)} {systemCalls : List Word}
      {unit : Nat} (linkage : s.linkage = .units functions systemCalls)
      (found : s.unit? functions (f.target (codeAddress s.base (index + 1))) = some unit) :
      Renders s index goes (.jump op f) (.callUnit (codeAddress s.base (index + 1)) unit)
  | callSystem {op : Opcode} {f : JumpForm} {functions : List (Nat × Nat)}
      {systemCalls : List Word} (linkage : s.linkage = .units functions systemCalls)
      (absent : s.unit? functions (f.target (codeAddress s.base (index + 1))) = none)
      (found : f.target (codeAddress s.base (index + 1)) ∈ systemCalls) :
      Renders s index goes (.jump op f)
        (.callSystem (codeAddress s.base (index + 1)) (f.target (codeAddress s.base (index + 1))))

/-- More labels do no harm. -/
theorem Renders.mono {s : Surroundings} {index : Nat} {goes goes' : Nat → Nat → Prop}
    {i : Instruction} {st : Step} (hle : ∀ label target, goes label target → goes' label target)
    (h : Renders s index goes i st) : Renders s index goes' i st := by
  cases h with
  | compute role => exact .compute role
  | shift role => exact .shift role
  | computeWith role => exact .computeWith role
  | access role => exact .access role
  | branch role aligned distance hgoes => exact .branch role aligned distance (hle _ _ hgoes)
  | misalignedBranch role misaligned => exact .misalignedBranch role misaligned
  | returnTo role exit => exact .returnTo role exit
  | leave role exit => exact .leave role exit
  | callUnit linkage found => exact .callUnit linkage found
  | callSystem linkage absent found => exact .callSystem linkage absent found

/-! ## One instruction -/

namespace Builder

def surroundings (b : Builder) : Surroundings :=
  ⟨b.base, b.exit, b.linkage⟩

/-- The label was asked for on behalf of the index. -/
def Labelled (b : Builder) (label target : Nat) : Prop :=
  ∃ r ∈ b.labels, r.label = label ∧ r.target = target

/-- Labels have the numbers from zero on, in the order in which they were created. -/
def Numbered (b : Builder) : Prop :=
  ∀ (position : Nat) (r : LabelRequest), b.labels[position]? = some r → r.label = position

theorem numbered_new (base : Word) (exit : Exit) (linkage : Linkage) :
    (new base exit linkage).Numbered :=
  fun position r h => by simp [new] at h

/-- A target has a label from an earlier request, or gets a new one. -/
theorem labelFor_cases (b : Builder) (target : Nat) :
    (∃ r ∈ b.labels, r.target = target ∧ b.labelFor target = .ok (r.label, b)) ∨
      ((∀ r ∈ b.labels, r.target ≠ target) ∧
        b.labelFor target = .ok (b.labels.size,
          { b with labels := b.labels.push ⟨target, b.labels.size, b.index⟩ })) := by
  rw [labelFor.eq_def]
  cases hfind : b.labels.find? (·.target == target) with
  | some r =>
    have hr := Array.find?_some hfind
    exact .inl ⟨r, Array.mem_of_find?_eq_some hfind, beq_iff_eq.1 hr, by simp only [hfind]⟩
  | none =>
    refine .inr ⟨?_, by simp only [hfind]⟩
    intro r hr heq
    exact Array.find?_eq_none.1 hfind r hr (beq_iff_eq.2 heq)

theorem labelFor_negSucc (b : Builder) (n : Nat) :
    b.labelFor (Int.negSucc n) = .error (.unresolvedBranch b.index (Int.negSucc n)) := rfl

theorem labelled_push_iff {b : Builder} {r : LabelRequest} {label target : Nat} :
    Labelled { b with labels := b.labels.push r } label target ↔
      b.Labelled label target ∨ (r.label = label ∧ r.target = target) := by
  constructor
  · rintro ⟨r', hr', heq⟩
    rcases Array.mem_push.1 hr' with hold | rfl
    · exact .inl ⟨r', hold, heq⟩
    · exact .inr heq
  · rintro (⟨r', hr', heq⟩ | heq)
    · exact ⟨r', Array.mem_push_of_mem r hr', heq⟩
    · exact ⟨r, Array.mem_push_self, heq⟩

theorem Numbered.push {b : Builder} (hb : b.Numbered) (target referrer : Nat) :
    Numbered { b with labels := b.labels.push ⟨target, b.labels.size, referrer⟩ } := by
  intro position r hr
  rw [Array.getElem?_push] at hr
  split at hr
  · next hlast =>
    rw [← Option.some.inj hr, hlast]
  · exact hb position r hr

/-- `b'` is `b` with one more step and perhaps one more label. -/
structure Appends (b b' : Builder) (st : Step) : Prop where
  surroundings : b'.surroundings = b.surroundings
  steps : b'.steps = b.steps.push st
  bindings : b'.bindings = b.bindings
  labels : ∀ label target, b.Labelled label target → b'.Labelled label target
  numbered : b.Numbered → b'.Numbered

theorem appends_push (b : Builder) (st : Step) : b.Appends (b.push st) st :=
  ⟨rfl, rfl, rfl, fun _ _ h => h, fun h => h⟩

/-- A label is had for an index only, never for a place in front of the code. -/
theorem labelFor_eq_ok {b b' : Builder} {target : Int} {label : Nat}
    (h : b.labelFor target = .ok (label, b')) :
    ∃ n : Nat, target = n ∧ b'.Labelled label n ∧
      b'.surroundings = b.surroundings ∧ b'.steps = b.steps ∧ b'.bindings = b.bindings ∧
      (∀ label target, b.Labelled label target → b'.Labelled label target) ∧
      (b.Numbered → b'.Numbered) := by
  cases target with
  | negSucc n =>
    rw [labelFor_negSucc] at h
    cases h
  | ofNat n =>
    refine ⟨n, rfl, ?_⟩
    rcases labelFor_cases b n with ⟨r, hr, htarget, hold⟩ | ⟨-, hnew⟩
    · cases hold.symm.trans h
      exact ⟨⟨r, hr, rfl, htarget⟩, rfl, rfl, rfl, fun _ _ h => h, fun h => h⟩
    · cases hnew.symm.trans h
      exact ⟨labelled_push_iff.2 (.inr ⟨rfl, rfl⟩), rfl, rfl, rfl,
        fun _ _ h => labelled_push_iff.2 (.inl h), fun h => h.push n b.index⟩

theorem addBranch_renders {b b' : Builder} {op : Opcode} {condition : Arithmetic.Condition}
    {f : ImmediateForm} (role : op.role = .branch condition)
    (h : b.addBranch op condition f = .ok b') :
    ∃ st, b.Appends b' st ∧ Renders b.surroundings b.index b'.Labelled (.immediate op f) st := by
  by_cases halign : f.signed.toInt % 4 = 0
  · rw [addBranch, if_pos halign] at h
    obtain ⟨⟨label, b₁⟩, hlabel, hpush⟩ := bind_eq_ok.1 h
    obtain ⟨n, hn, hgoes, hsurr, hsteps, hbind, hlabels, hnumbered⟩ := labelFor_eq_ok hlabel
    obtain rfl : b₁.push (.branch condition f.a f.b label) = b' := by
      simpa [pure, Except.pure] using hpush
    refine ⟨.branch condition f.a f.b label, ⟨hsurr, ?_, hbind, hlabels, hnumbered⟩, ?_⟩
    · rw [push, hsteps]
    · exact .branch role halign hn.symm hgoes
  · rw [addBranch, if_neg halign] at h
    obtain rfl := Except.ok.inj h
    exact ⟨_, appends_push b _, .misalignedBranch role halign⟩

theorem addCall_of_units {b : Builder} {functions : List (Nat × Nat)} {systemCalls : List Word}
    (hlink : b.linkage = .units functions systemCalls) (i : Instruction) (f : JumpForm) :
    b.addCall i f =
      match b.surroundings.unit? functions (f.target b.nextAddress) with
      | some unit => .ok (b.push (.callUnit b.nextAddress unit))
      | none =>
        if systemCalls.contains (f.target b.nextAddress) then
          .ok (b.push (.callSystem b.nextAddress (f.target b.nextAddress)))
        else .error (.unknownCallTarget b.index (f.target b.nextAddress)) := by
  rw [addCall]
  split
  · next h => exact absurd (hlink.symm.trans h) (by simp)
  · next h =>
    obtain ⟨rfl, rfl⟩ := Linkage.units.inj (hlink.symm.trans h)
    rfl

theorem addCall_renders {b b' : Builder} {op : Opcode} {f : JumpForm}
    (h : b.addCall (.jump op f) f = .ok b') :
    ∃ st, b.Appends b' st ∧ Renders b.surroundings b.index b'.Labelled (.jump op f) st := by
  cases hlink : b.linkage with
  | none => simp [addCall, hlink] at h
  | units functions systemCalls =>
    rw [addCall_of_units hlink] at h
    cases hunit : b.surroundings.unit? functions (f.target b.nextAddress) with
    | some unit =>
      rw [hunit] at h
      obtain rfl := Except.ok.inj h
      exact ⟨_, appends_push b _, .callUnit hlink hunit⟩
    | none =>
      rw [hunit] at h
      by_cases hcontains : systemCalls.contains (f.target b.nextAddress)
      · simp only [hcontains, if_true] at h
        obtain rfl := Except.ok.inj h
        exact ⟨_, appends_push b _, .callSystem hlink hunit (List.contains_iff_mem.1 hcontains)⟩
      · simp only [hcontains, Bool.false_eq_true, if_false] at h
        cases h

/-- An instruction is compiled to the one step that renders it. -/
theorem add_renders {b b' : Builder} {i : Instruction} (h : b.add i = .ok b') :
    ∃ st, b.Appends b' st ∧ Renders b.surroundings b.index b'.Labelled i st := by
  cases i with
  | immediate op f =>
    cases hrole : op.role with
    | compute g =>
      simp only [add, hrole] at h
      obtain rfl := Except.ok.inj h
      exact ⟨_, appends_push b _, .computeWith hrole⟩
    | branch condition =>
      simp only [add, hrole] at h
      exact addBranch_renders hrole h
    | access kind =>
      simp only [add, hrole] at h
      obtain rfl := Except.ok.inj h
      exact ⟨_, appends_push b _, .access hrole⟩
    -- These two have no immediate form, and are refused.
    | call => simp [add, hrole] at h
    | registers => simp [add, hrole] at h
  | register op f =>
    cases hrole : op.role with
    | compute g =>
      simp only [add, hrole] at h
      obtain rfl := Except.ok.inj h
      exact ⟨_, appends_push b _, .compute hrole⟩
    | shift g =>
      simp only [add, hrole] at h
      obtain rfl := Except.ok.inj h
      exact ⟨_, appends_push b _, .shift hrole⟩
    | ret =>
      simp only [add, hrole] at h
      cases hexit : b.exit with
      | toInterpreter =>
        simp only [hexit] at h
        obtain rfl := Except.ok.inj h
        exact ⟨_, appends_push b _, .returnTo hrole hexit⟩
      | toCaller =>
        simp only [hexit] at h
        obtain rfl := Except.ok.inj h
        exact ⟨_, appends_push b _, .leave hrole hexit⟩
    | callRegister => simp [add, hrole] at h
  | jump op f =>
    cases hrole : op.role with
    | call =>
      simp only [add, hrole] at h
      exact addCall_renders h
    | compute g => simp [add, hrole] at h
    | branch condition => simp [add, hrole] at h
    | access kind => simp [add, hrole] at h
    | registers => simp [add, hrole] at h

end Builder

end Risc32
