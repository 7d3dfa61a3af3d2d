import Risc32.Machine.Basic
import Risc32.Proofs.Sequence
import Risc32.Proofs.Encoding.RoundTrip

/-!
# What one instruction does

An instruction either calls something or it works on the processor alone. `Instruction.target?`
tells the two apart, and `Instruction.act` is the second kind without the machine around it: the
interpreter runs it inside of the machine, and compiled code is compared with it.

The machine's own operations follow as equations, one for each way they can go. Proofs about runs
use these and look no further into the interpreter.
-/

set_option autoImplicit false

namespace Risc32

/-! ## Instructions on the processor -/

namespace Instruction

/-- The address that an instruction calls, if it is a call. The program counter is already past
the instruction. -/
def target? (i : Instruction) (cpu : Processor) : Option Word :=
  match i with
  | immediate _ _ => none
  | register op f =>
    match op.role with
    | .callRegister => some (cpu.register f.a)
    | _ => none
  | jump _ f => some (f.target cpu.pc)

/-- What an instruction that is no call does to the processor, whose program counter is already
past it. -/
def act : Instruction → Exec Processor Unit
  | immediate op f =>
    match op.role with
    | .compute g =>
      modify fun cpu => cpu.setRegister f.b (g.apply (cpu.register f.a) (op.operand f.immediate))
    | .branch condition => do
      let cpu ← get
      if condition.holds (cpu.register f.a) (cpu.register f.b) then
        Processor.jump op.name (cpu.pc + f.signed)
    | .access kind => do
      let cpu ← get
      Processor.access kind ⟨op.name, cpu.pc⟩ f.b (cpu.register f.a + f.signed)
    | _ => pure ()
  | register op f =>
    match op.role with
    | .compute g =>
      modify fun cpu => cpu.setRegister f.c (g.apply (cpu.register f.a) (cpu.register f.b))
    | .shift g => modify fun cpu => cpu.setRegister f.c (g.apply (cpu.register f.a) f.amount)
    | .ret => do
      let target := (← get).registers.read .returnAddress
      Processor.jump op.name target
    | .callRegister => pure ()
  | jump _ _ => pure ()

theorem isReturn_register (op : ExtendedOpcode) (f : RegisterForm) :
    (register op f).isReturn ↔ op.role = .ret := by
  cases op <;> simp [isReturn, ExtendedOpcode.role]

/-- There is a handler for the instruction: its operation is one of those that its form can have. -/
inductive Handled : Instruction → Prop where
  | compute {op : Opcode} {f : ImmediateForm} {g : Arithmetic.Function}
      (role : op.role = .compute g) : Handled (.immediate op f)
  | branch {op : Opcode} {f : ImmediateForm} {condition : Arithmetic.Condition}
      (role : op.role = .branch condition) : Handled (.immediate op f)
  | access {op : Opcode} {f : ImmediateForm} {kind : MemoryAccess}
      (role : op.role = .access kind) : Handled (.immediate op f)
  | register (op : ExtendedOpcode) (f : RegisterForm) : Handled (.register op f)
  | call {op : Opcode} {f : JumpForm} (role : op.role = .call) : Handled (.jump op f)

/-- A word that means something has a handler. The layout of its opcode is that of its form. -/
theorem handled_of_decode {w : Word} {i : Instruction} (h : decode w = some i) : i.Handled := by
  have hviews := views_of_decode h
  cases i with
  | immediate op f =>
    have hlayout : op.layout = .immediate := hviews.1
    cases hrole : op.role with
    | compute g => exact .compute hrole
    | branch condition => exact .branch hrole
    | access kind => exact .access hrole
    | call => simp [Opcode.layout, hrole] at hlayout
    | registers => simp [Opcode.layout, hrole] at hlayout
  | register op f => exact .register op f
  | jump op f =>
    have hlayout : op.layout = .jump := hviews.1
    cases hrole : op.role with
    | call => exact .call hrole
    | compute g => simp [Opcode.layout, hrole] at hlayout
    | branch condition => simp [Opcode.layout, hrole] at hlayout
    | access kind => simp [Opcode.layout, hrole] at hlayout
    | registers => simp [Opcode.layout, hrole] at hlayout

end Instruction

/-! ## The host -/

theorem Guest.onProcessor_apply {σ α : Type} (x : Exec Processor α) (g : Guest σ) :
    Guest.onProcessor x g = match x g.cpu with
      | .ok a cpu => .ok a ⟨cpu, g.host⟩
      | .error halt cpu => .error halt ⟨cpu, g.host⟩ := rfl

/-- The guest after a system call that notes where to return to and then runs its action. -/
def SystemCalls.perform {σ : Type} (t : SystemCalls σ) (link address : Word) (g : Guest σ) :
    Guest σ :=
  let g := { g with cpu := g.cpu.link link }
  (t.invoke? address g).getD g

/-! ## The machine -/

namespace Machine

variable {σ α : Type}

theorem onGuest_apply (x : Exec (Guest σ) α) (m : Machine σ) :
    onGuest x m = match x m.toGuest with
      | .ok a g => .ok a { m with toGuest := g }
      | .error halt g => .error halt { m with toGuest := g } := rfl

theorem onProcessor_apply (x : Exec Processor α) (m : Machine σ) :
    onProcessor x m = match x m.cpu with
      | .ok a cpu => .ok a { m with cpu := cpu }
      | .error halt cpu => .error halt { m with cpu := cpu } := by
  cases h : x m.cpu <;> simp [onProcessor, onGuest_apply, Guest.onProcessor_apply, h]

theorem fetch_apply (m : Machine σ) :
    fetch m = match m.cpu.memory.readWord ⟨"fetch", m.cpu.pc⟩ m.cpu.pc with
      | .ok w => .ok () { m with cpu := { m.cpu with pc := m.cpu.pc + 4, ir := w } }
      | .error reason => .error (.fault reason) m := by
  cases h : m.cpu.memory.readWord ⟨"fetch", m.cpu.pc⟩ m.cpu.pc <;>
    simp [fetch, onProcessor_apply, h]

theorem passOver_apply (w : Word) (m : Machine σ) :
    passOver w m =
      if m.config.strictDecoding then
        .error (.fault (.illegalInstruction (m.cpu.pc - 4) w)) m
      else .ok () m := by
  by_cases h : m.config.strictDecoding <;> simp [passOver, h]

/-! ### Calls -/

theorem call_of_contains (fuel : Nat) (name : String) {m : Machine σ} {target : Word}
    (h : m.calls.contains target) :
    call fuel name target m =
      .ok () { m with toGuest := m.calls.perform m.cpu.pc target m.toGuest } := by
  simp [call, h, onProcessor_apply, onGuest_apply, SystemCalls.perform]

theorem call_of_routine (fuel : Nat) (name : String) {m : Machine σ} {target : Word}
    {r : Routine} (h : m.calls.contains target = false) (hon : m.config.compileOnDemand)
    (hr : m.cache.routine? target = some r) :
    call fuel name target m =
      onGuest (r.run m.calls #[] fuel) { m with cpu := m.cpu.link m.cpu.pc } := by
  simp [call, h, hon, hr, onProcessor_apply]

theorem call_of_off (fuel : Nat) (name : String) {m : Machine σ} {target : Word}
    (h : m.calls.contains target = false) (hoff : m.config.compileOnDemand = false) :
    call fuel name target m =
      if Word.Aligned target then
        .ok () { m with cpu := { m.cpu.link m.cpu.pc with pc := target } }
      else .error (.fault (.misaligned ⟨name, m.cpu.pc⟩ target)) m := by
  by_cases ha : Word.Aligned target <;>
    simp [call, h, hoff, checkAligned, ha, onProcessor_apply]

theorem call_of_on (fuel : Nat) (name : String) {m : Machine σ} {target : Word}
    (h : m.calls.contains target = false) (hon : m.config.compileOnDemand)
    (hr : m.cache.routine? target = none) :
    call fuel name target m =
      if Word.Aligned target then
        .ok () { m with
          cpu := { m.cpu.link m.cpu.pc with pc := target }
          cache := m.cache.consider target m.cpu.memory m.programEnd }
      else .error (.fault (.misaligned ⟨name, m.cpu.pc⟩ target)) m := by
  by_cases ha : Word.Aligned target <;>
    simp [call, h, hon, hr, checkAligned, ha, onProcessor_apply, Processor.link]

/-! ### Executing -/

theorem execute_of_none (fuel : Nat) {m : Machine σ} (h : Instruction.decode m.cpu.ir = none) :
    execute fuel m = passOver m.cpu.ir m := by
  simp [execute, h]

theorem execute_of_target (fuel : Nat) {m : Machine σ} {i : Instruction} {target : Word}
    (h : Instruction.decode m.cpu.ir = some i) (ht : i.target? m.cpu = some target) :
    execute fuel m = call fuel i.name target m := by
  have hviews := Instruction.views_of_decode h
  cases i with
  | immediate op f => exact absurd ht (by simp [Instruction.target?])
  | register op f =>
    cases hrole : op.role with
    | callRegister =>
      simp only [Instruction.target?, hrole, Option.some.injEq] at ht
      simp [execute, h, performRegister, hrole, ← ht, Instruction.name]
    | compute g => simp [Instruction.target?, hrole] at ht
    | shift g => simp [Instruction.target?, hrole] at ht
    | ret => simp [Instruction.target?, hrole] at ht
  | jump op f =>
    have hrole : op.role = .call := by
      have hl := hviews.1
      cases op <;> first | rfl | exact absurd hl (by decide)
    simp only [Instruction.target?, Option.some.injEq] at ht
    simp [execute, h, performJump, hrole, ← ht, Instruction.name]

theorem execute_of_act (fuel : Nat) {m : Machine σ} {i : Instruction}
    (h : Instruction.decode m.cpu.ir = some i) (ht : i.target? m.cpu = none) :
    execute fuel m = onProcessor i.act m := by
  have hviews := Instruction.views_of_decode h
  cases i with
  | immediate op f =>
    have hl := hviews.1
    cases hrole : op.role with
    | compute g => simp [execute, h, performImmediate, Instruction.act, hrole]
    | branch condition => simp [execute, h, performImmediate, Instruction.act, hrole]
    | access kind => simp [execute, h, performImmediate, Instruction.act, hrole]
    | call => simp [Opcode.layout, hrole] at hl
    | registers => simp [Opcode.layout, hrole] at hl
  | register op f =>
    cases hrole : op.role with
    | compute g => simp [execute, h, performRegister, Instruction.act, hrole]
    | shift g => simp [execute, h, performRegister, Instruction.act, hrole]
    | ret => simp [execute, h, performRegister, Instruction.act, hrole]
    | callRegister => simp [Instruction.target?, hrole] at ht
  | jump op f => simp [Instruction.target?] at ht

end Machine

end Risc32
