import Risc32.Proofs.Preservation
import Risc32.Proofs.Compiled.OnDemand
import Risc32.Proofs.Compiled.Whole

/-!
# What compiled code preserves

A step carries its registers and the program counter of its faults with it, so it does no harm if
these are right (`Step.Sound`). They are right in every routine that the compiler makes, because
the registers come from words and the code begins at a multiple of four.

Compiled code moves the program counter in two places only: where it raises a fault, to a value
that the step carries, and in a return to the interpreter, which is a jump.
-/

set_option autoImplicit false

namespace Risc32

variable {σ : Type}

/-! ## System calls -/

/-- The action leaves the processor as sound as it found it. -/
def SystemCall.Keeps (size : Nat) (c : SystemCall σ) : Prop :=
  ∀ (cpu : Processor) (host : σ), cpu.Sound size → (c.action cpu host).1.Sound size

/-- Every action does. -/
def SystemCalls.Keep (size : Nat) (t : SystemCalls σ) : Prop :=
  ∀ c ∈ t.calls, c.Keeps size

/-- The guest has a sound processor. -/
def Guest.Sound (size : Nat) (g : Guest σ) : Prop :=
  g.cpu.Sound size

namespace SystemCalls

variable {size : Nat} {t : SystemCalls σ} {g : Guest σ}

theorem keep_empty (size : Nat) : (empty : SystemCalls σ).Keep size := by
  intro c hc
  cases hc

theorem keep_defaults [Console σ] (size : Nat) : (defaults : SystemCalls σ).Keep size := by
  intro c hc
  obtain rfl : c = putchar := List.mem_singleton.1 hc
  exact fun _ _ h => h

/-- In other words, every action keeps the guest sound. -/
theorem Keep.keeping (h : t.Keep size) : t.Keeping (Guest.Sound size) :=
  h

theorem Keep.add? (h : t.Keep size) {c : SystemCall σ} (hc : c.Keeps size) {t' : SystemCalls σ}
    (hadd : t.add? c = some t') : t'.Keep size :=
  h.keeping.add? hc hadd

theorem Keep.invoke? (h : t.Keep size) (address : Word) (hg : g.Sound size) :
    ((t.invoke? address g).getD g).Sound size :=
  h.keeping.invoke? address hg

theorem Keep.perform (h : t.Keep size) (link address : Word) (hg : g.Sound size) :
    (t.perform link address g).Sound size :=
  h.invoke? address (Processor.Sound.link hg link)

end SystemCalls

/-! ## Steps -/

theorem Guest.keeps_onProcessor {α : Type} {size : Nat} {x : Exec Processor α}
    (h : Exec.Keeps (Processor.Sound size) x) :
    Exec.Keeps (Sound (σ := σ) size) (Guest.onProcessor x) := by
  intro g hg
  have hcpu := h g.cpu hg
  rw [Exec.state] at hcpu
  rw [Exec.state, Guest.onProcessor_apply]
  cases hx : x g.cpu with
  | ok a cpu =>
    rw [hx] at hcpu
    exact hcpu
  | error halt cpu =>
    rw [hx] at hcpu
    exact hcpu

namespace Step

/-- The step writes one of the thirty-two registers, and its faults leave the program counter at a
multiple of four. -/
def Sound : Step → Prop
  | .compute _ c _ _ => c.toNat < 32
  | .computeWith _ b _ _ => b.toNat < 32
  | .access _ site b _ _ => b.toNat < 32 ∧ Word.Aligned site.pc
  | .misalignedBranch _ _ _ site _ => Word.Aligned site.pc
  | .returnTo site => Word.Aligned site.pc
  | .branch .. | .callUnit .. | .callSystem .. | .transfer .. => True

variable {size : Nat} {calls : SystemCalls σ}

theorem keeps_faultingAt {α : Type} {pc : Word} (hpc : Word.Aligned pc) {x : Exec Processor α}
    (h : Exec.Keeps (Processor.Sound size) x) :
    Exec.Keeps (Processor.Sound size) (faultingAt pc x) := by
  intro cpu hcpu
  have hstate := h cpu hcpu
  rw [Exec.state] at hstate
  rw [Exec.state, faultingAt]
  cases hx : x cpu with
  | ok a cpu' =>
    rw [hx] at hstate
    exact hstate
  | error halt cpu' =>
    rw [hx] at hstate
    exact Processor.Sound.setPc hstate hpc

theorem keeps_run (hcalls : calls.Keep size) {st : Step} (h : st.Sound) :
    Exec.Keeps (Guest.Sound size) (st.run calls) := by
  -- A step that can fault sets the program counter to its own address, which is part of its
  -- soundness, and so is that it writes to a register there is.
  cases st with
  | compute f c a b =>
    rw [run]
    refine Guest.keeps_onProcessor (Exec.Keeps.bind ?_ fun _ => Exec.keeps_pure _)
    exact Exec.keeps_modify fun _ hcpu => hcpu.setRegister h _
  | computeWith f b a operand =>
    rw [run]
    refine Guest.keeps_onProcessor (Exec.Keeps.bind ?_ fun _ => Exec.keeps_pure _)
    exact Exec.keeps_modify fun _ hcpu => hcpu.setRegister h _
  | access kind site b a offset =>
    obtain ⟨hb, hpc⟩ := h
    refine Guest.keeps_onProcessor (Exec.keeps_bind_get fun _ _ => ?_)
    exact (keeps_faultingAt hpc (Processor.keeps_access kind site hb _)).bind
      fun _ => Exec.keeps_pure _
  | branch condition a b label =>
    rw [run]
    exact Guest.keeps_onProcessor (Exec.keeps_bind_get fun _ _ => Exec.keeps_pure _)
  | misalignedBranch condition a b site address =>
    refine Guest.keeps_onProcessor (Exec.keeps_bind_get fun cpu _ => ?_)
    split
    · exact (keeps_faultingAt h (Exec.keeps_raise _)).bind fun _ => Exec.keeps_pure _
    · exact (Exec.keeps_pure _).bind fun _ => Exec.keeps_pure _
  | callUnit link unit =>
    rw [run]
    refine Guest.keeps_onProcessor (Exec.Keeps.bind ?_ fun _ => Exec.keeps_pure _)
    exact Exec.keeps_modify fun _ hcpu => hcpu.link link
  | callSystem link address =>
    refine (Guest.keeps_onProcessor ?_).bind fun _ => Exec.Keeps.bind ?_ fun _ => Exec.keeps_pure _
    · exact Exec.keeps_modify fun _ hcpu => hcpu.link link
    · exact Exec.keeps_modify fun _ hg => hcalls.invoke? address hg
  | returnTo site =>
    refine Guest.keeps_onProcessor (Exec.keeps_bind_get fun _ _ => Exec.Keeps.bind ?_ fun _ => ?_)
    · exact Exec.keeps_modify fun _ hcpu => hcpu.setPc h
    · exact (Processor.keeps_jump _ _).bind fun _ => Exec.keeps_pure _
  | transfer flow => exact Exec.keeps_pure _

end Step

/-- What renders an instruction of a word is sound, if the code begins at a multiple of four. -/
theorem Renders.sound {s : Surroundings} {index : Nat} {goes : Nat → Nat → Prop}
    {i : Instruction} {st : Step} (h : Renders s index goes i st) (hi : i.NamesRegister)
    (hbase : Word.Aligned s.base) : st.Sound := by
  have hpc := aligned_codeAddress hbase (index + 1)
  cases h with
  | compute => exact hi
  | shift => exact hi
  | computeWith => exact hi
  | access => exact ⟨hi, hpc⟩
  | branch => trivial
  | misalignedBranch => exact hpc
  | returnTo => exact hpc
  | leave => trivial
  | callUnit => trivial
  | callSystem => trivial

/-! ## Routines -/

namespace Routine

/-- All steps of the routine are sound. -/
def Sound (r : Routine) : Prop :=
  ∀ (position : Nat) (st : Step), r.steps[position]? = some st → st.Sound

theorem Realizes.sound {r : Routine} {s : Surroundings} {code : Listing} {stop : Option Nat}
    (h : r.Realizes s code stop) (hbase : Word.Aligned s.base) : r.Sound := by
  intro position st hst
  have hlt : position < code.length := by
    rw [← h.size]
    exact (Array.getElem?_eq_some_iff.1 hst).1
  obtain ⟨i, st', hdecode, hst', hrenders⟩ := h.step (List.getElem?_eq_getElem hlt)
  obtain rfl := Option.some.inj (hst.symm.trans hst')
  exact hrenders.sound (Instruction.namesRegister_of_decode hdecode) hbase

/-- A function that is compiled on demand begins at a multiple of four. -/
theorem ofFunction_sound {m : Memory} {entry stop : Word} {r : Routine}
    (h : ofFunction m entry stop = .ok r) : r.Sound := by
  obtain ⟨body, hbody, hrealizes⟩ := ofFunction_realizes h
  exact hrealizes.sound hbody.aligned

/-- A run of compiled code, through all the routines that it calls. -/
theorem keeps_runFrom {size : Nat} {calls : SystemCalls σ} (hcalls : calls.Keep size)
    {units : Array Routine} (hunits : ∀ (u : Nat) (r : Routine), units[u]? = some r → r.Sound)
    (fuel : Nat) {r : Routine} (hr : r.Sound) (position : Nat) :
    Exec.Keeps (Guest.Sound size) (r.runFrom calls units fuel position) := by
  induction fuel generalizing r position with
  | zero => exact Exec.keeps_throw _
  | succ fuel ih =>
    rw [runFrom]
    cases hst : r.steps[position]? with
    | none => exact Exec.keeps_pure _
    | some st =>
      refine (Step.keeps_run hcalls (hr position st hst)).bind fun flow => ?_
      cases flow with
      | next => exact ih hr _
      | jump label => exact ih hr _
      | call unit =>
        dsimp only
        split
        · next callee hunit => exact (ih (hunits unit callee hunit) 0).bind fun _ => ih hr _
        · exact ih hr _
      | leave => exact Exec.keeps_pure _

end Routine

/-- Every routine that the cache holds is sound. -/
def RoutineCache.AllSound (c : RoutineCache) : Prop :=
  ∀ entry r, c.routine? entry = some r → r.Sound

namespace CompiledProgram

/-- A compiled program begins at address zero, so all of its routines are sound. -/
theorem compile_sound {p : Program} {systemCalls : List Word} {c : CompiledProgram}
    (h : compile p systemCalls = .ok c) :
    c.main.Sound ∧ ∀ (u : Nat) (r : Routine), c.units[u]? = some r → r.Sound := by
  have hbase : Word.Aligned (surroundings p.ranges systemCalls).base := rfl
  refine ⟨(compile_eq_ok h).main.sound hbase, ?_⟩
  intro u r hr
  obtain ⟨units, hunits, h⟩ := bind_eq_ok.1 h
  obtain ⟨b, -, h⟩ := bind_eq_ok.1 h
  split at h
  · cases h
  · obtain ⟨main, -, h⟩ := bind_eq_ok.1 h
    obtain rfl := Except.ok.inj h
    obtain ⟨hlength, hunit⟩ := mapM_eq_ok hunits
    have hget : units[u]? = some r := by simpa using hr
    have hlt := (List.getElem?_eq_some_iff.1 hget).1
    rw [hlength] at hlt
    obtain ⟨r', hcompile, hr'⟩ := hunit u _ (List.getElem?_eq_getElem hlt)
    obtain rfl := Option.some.inj (hget.symm.trans hr')
    exact (compileUnit_realizes hcompile).2.sound hbase

end CompiledProgram

end Risc32
