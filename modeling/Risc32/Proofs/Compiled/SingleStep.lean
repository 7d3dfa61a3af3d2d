import Risc32.Proofs.Compiled.Agreement

/-!
# One instruction, interpreted and compiled

A routine that is compiled on demand returns to the interpreter and calls nothing. What the builder
appends for one instruction of it is compared here with the interpreter's execution of the same
instruction. The two end as `Agrees` says, and in no other way: a call has no step here, and an
instruction takes no fuel.

The instructions are looked at one by one in `Renders.agrees`, and only there. What is added is the
machine around the interpreter's processor, the labels as the builder has them, and that nothing but
a return leaves.
-/

set_option autoImplicit false

namespace Risc32

variable {σ : Type}

namespace Builder

/-- **One instruction, interpreted and compiled.** Where calls are not linked and returns go to the
interpreter, an instruction that is compiled becomes one step. The machine executes the word with
its program counter past it, and the step is run on a guest with the same data, with whatever system
calls. Then nothing but the processor of the machine changes, and the two outcomes agree. Only a
return leaves. -/
theorem add_agrees {b b' : Builder} {w : Word} {i : Instruction} (hexit : b.exit = .toInterpreter)
    (hlink : b.linkage = .none) (haligned : Word.Aligned b.base)
    (hdecode : Instruction.decode w = some i) (h : b.add i = .ok b') :
    ∃ st, b'.steps = b.steps.push st ∧
      ∀ (m : Machine σ) (g : Guest σ) (calls : SystemCalls σ) (fuel : Nat),
        m.cpu.ir = w → m.cpu.pc = b.nextAddress → m.cpu.SameData g.cpu → g.host = m.host →
        ∃ outcome,
          Agrees b.surroundings b.index b'.Labelled i m.host outcome (st.run calls g) ∧
          (Machine.execute fuel m = match outcome with
            | .ok _ cpu => .ok () { m with cpu := cpu }
            | .error halt cpu => .error halt { m with cpu := cpu }) ∧
          ∀ g', st.run calls g = .ok .leave g' → i.isReturn := by
  obtain ⟨st, happends, hrenders⟩ := add_renders h
  refine ⟨st, happends.steps, ?_⟩
  rintro m ⟨cpu, host⟩ calls fuel rfl hpc hdata rfl
  have htarget : i.target? m.cpu = none := hrenders.target?_eq_none hlink m.cpu
  have hagrees := hrenders.agrees htarget (fun _ => hexit) haligned hdata hpc calls m.host
  refine ⟨i.act m.cpu, hagrees, ?_,
    fun g' hrun => hrenders.isReturn_of_leave (Step.leadsTo_of_run hrun)⟩
  rw [Machine.execute_of_act fuel hdecode htarget, Machine.onProcessor_apply]
  cases i.act m.cpu <;> rfl

/-- The fourth instruction of code that begins at address 64, a branch back by one instruction which
is always taken: the step goes to the label of the third instruction, and so does the machine. -/
theorem add_agrees_backward :
    let i := Instruction.ofImmediate .beq 0 0 (-8)
    let b := (new 64 .toInterpreter .none).enter 3
    let m : Machine (Array Byte) :=
      { Machine.new {} #[] with cpu := { Processor.zero 8 with pc := 80, ir := i.encode } }
    ∃ b' st cpu, b.exit = .toInterpreter ∧ b.linkage = .none ∧ Word.Aligned b.base ∧
      Instruction.decode i.encode = some i ∧ b.add i = .ok b' ∧ b'.steps = b.steps.push st ∧
      m.cpu.ir = i.encode ∧ m.cpu.pc = b.nextAddress ∧
      st.run m.calls m.toGuest = .ok (.jump 0) m.toGuest ∧ b'.Labelled 0 2 ∧
      Machine.execute 0 m = .ok () { m with cpu := cpu } ∧ cpu.pc = 72 := by
  intro i b m
  have haccepted : (b.add i).toOption.any fun b' =>
      decide (b'.steps = #[.branch .equal 0 0 0] ∧ b'.labels = #[⟨2, 0, 3⟩]) := by decide +kernel
  obtain ⟨b', hadd, hb'⟩ := any_toOption haccepted
  obtain ⟨hsteps, hlabels⟩ := of_decide_eq_true hb'
  have haligned : Word.Aligned b.base := by decide
  have hdecode : Instruction.decode i.encode = some i := by decide
  have hpc : m.cpu.pc = b.nextAddress := by decide
  obtain ⟨st, hst, hruns⟩ := add_agrees rfl rfl haligned hdecode hadd
  obtain ⟨outcome, hagrees, hexecute, -⟩ :=
    hruns m m.toGuest m.calls 0 rfl hpc (Processor.SameData.refl m.cpu) rfl
  obtain rfl : st = .branch .equal 0 0 0 := by
    simpa [b, new, enter, bind] using hst.symm.trans hsteps
  have hrun : (Step.branch .equal 0 0 0).run m.calls m.toGuest = .ok (.jump 0) m.toGuest := rfl
  rw [hrun] at hagrees
  cases hagrees with
  | @jump cpu cpu' label target data labelled pc =>
    obtain ⟨request, hrequest, hlabel, rfl⟩ := labelled
    obtain rfl : request = ⟨2, 0, 3⟩ := by simpa [hlabels] using hrequest
    exact ⟨b', _, cpu, rfl, rfl, haligned, hdecode, hadd, hst, rfl, hpc, hrun,
      ⟨_, hrequest, rfl, rfl⟩, hexecute, pc⟩

end Builder

end Risc32
