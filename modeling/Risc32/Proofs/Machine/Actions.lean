import Risc32.Proofs.Preservation
import Risc32.Proofs.Compiled.Frames

/-!
# What only actions change

Nothing but an action changes the host or the size of memory. So a property of the guest that
depends on these two alone (`Guest.Sheltered`) is kept by every run if every action keeps it: in
compiled code (`Routine.keepsSheltered_runFrom`) and in the interpreter
(`Machine.keepsSheltered_resume`), also if the run stops early.
-/

set_option autoImplicit false

namespace Risc32

variable {σ α : Type}

/-! ## The processor -/

namespace Processor

/-- The memory has `size` bytes. -/
def HasMemory (size : Nat) (cpu : Processor) : Prop :=
  cpu.memory.size = size

variable {size : Nat}

theorem keepsMemory_onMemory {x : Exec Memory α} (h : Exec.Keeps (·.size = size) x) :
    Exec.Keeps (HasMemory size) (onMemory x) := by
  intro cpu hcpu
  have hmemory := h cpu.memory hcpu
  rw [Exec.state] at hmemory
  rw [Exec.state, onMemory_apply]
  cases hx : x cpu.memory with
  | ok a memory =>
    rw [hx] at hmemory
    exact hmemory
  | error halt memory =>
    rw [hx] at hmemory
    exact hmemory

theorem keepsMemory_access (kind : MemoryAccess) (site : Site) (b : Byte) (address : Word) :
    Exec.Keeps (HasMemory size) (access kind site b address) := by
  cases kind with
  | loadWord =>
    refine Exec.keeps_bind_get fun _ _ => (Exec.keeps_ofExcept _).bind fun _ => ?_
    exact Exec.keeps_modify fun _ h => h
  | loadByte =>
    refine Exec.keeps_bind_get fun _ _ => (Exec.keeps_ofExcept _).bind fun _ => ?_
    exact Exec.keeps_modify fun _ h => h
  | loadByteUnsigned =>
    refine Exec.keeps_bind_get fun _ _ => (Exec.keeps_ofExcept _).bind fun _ => ?_
    exact Exec.keeps_modify fun _ h => h
  | storeWord => exact Exec.keeps_bind_get fun _ _ => keepsMemory_onMemory (keeps_writeWord _ _ _)
  | storeByte => exact Exec.keeps_bind_get fun _ _ => keepsMemory_onMemory (keeps_writeByte _ _ _)

theorem keepsMemory_jump (name : String) (target : Word) :
    Exec.Keeps (HasMemory size) (jump name target) := by
  refine Exec.keeps_bind_get fun _ _ => (Exec.keeps_ofExcept _).bind fun _ => ?_
  exact Exec.keeps_modify fun _ h => h

end Processor

theorem Instruction.keepsMemory_act (i : Instruction) (size : Nat) :
    Exec.Keeps (Processor.HasMemory size) i.act := by
  cases i with
  | immediate op f =>
    rw [act]
    cases op.role with
    | compute g => exact Exec.keeps_modify fun _ h => h
    | branch condition =>
      refine Exec.keeps_bind_get fun cpu _ => ?_
      split
      · exact Processor.keepsMemory_jump _ _
      · exact Exec.keeps_pure _
    | access kind => exact Exec.keeps_bind_get fun _ _ => Processor.keepsMemory_access _ _ _ _
    | call => exact Exec.keeps_pure _
    | registers => exact Exec.keeps_pure _
  | register op f =>
    rw [act]
    cases op.role with
    | compute g => exact Exec.keeps_modify fun _ h => h
    | shift g => exact Exec.keeps_modify fun _ h => h
    | ret => exact Exec.keeps_bind_get fun _ _ => Processor.keepsMemory_jump _ _
    | callRegister => exact Exec.keeps_pure _
  | jump op f => exact Exec.keeps_pure _

/-! ## Guests -/

/-- The property of guests depends on nothing but the host and the size of memory. -/
def Guest.Sheltered (P : Guest σ → Prop) : Prop :=
  ∀ (g : Guest σ) (cpu : Processor), P g → cpu.memory.size = g.cpu.memory.size → P ⟨cpu, g.host⟩

variable {P : Guest σ → Prop} {calls : SystemCalls σ}

namespace Guest

theorem Sheltered.onProcessor (hP : Sheltered P) {x : Exec Processor α}
    (h : ∀ size, Exec.Keeps (Processor.HasMemory size) x) : Exec.Keeps P (onProcessor x) := by
  intro g hg
  have hsize := h g.cpu.memory.size g.cpu rfl
  rw [Exec.state] at hsize
  rw [Exec.state, onProcessor_apply]
  cases hx : x g.cpu with
  | ok a cpu =>
    rw [hx] at hsize
    exact hP g cpu hg hsize
  | error halt cpu =>
    rw [hx] at hsize
    exact hP g cpu hg hsize

end Guest

/-! ## Compiled code -/

theorem Step.keepsMemory_faultingAt {size : Nat} (pc : Word) {x : Exec Processor α}
    (h : Exec.Keeps (Processor.HasMemory size) x) :
    Exec.Keeps (Processor.HasMemory size) (faultingAt pc x) := by
  intro cpu hcpu
  have hstate := h cpu hcpu
  rw [Exec.state] at hstate
  rw [Exec.state, faultingAt]
  cases hx : x cpu with
  | ok a cpu' =>
    rw [hx] at hstate
    exact hstate
  | error halt cpu' =>
    rw [hx] at hstate
    exact hstate

theorem Step.keepsSheltered_run (hP : Guest.Sheltered P) (hcalls : calls.Keeping P) (st : Step) :
    Exec.Keeps P (st.run calls) := by
  cases st with
  | compute f c a b =>
    rw [run]
    refine hP.onProcessor fun _ => Exec.Keeps.bind ?_ fun _ => Exec.keeps_pure _
    exact Exec.keeps_modify fun _ h => h
  | computeWith f b a operand =>
    rw [run]
    refine hP.onProcessor fun _ => Exec.Keeps.bind ?_ fun _ => Exec.keeps_pure _
    exact Exec.keeps_modify fun _ h => h
  | access kind site b a offset =>
    refine hP.onProcessor fun _ => Exec.keeps_bind_get fun _ _ => ?_
    exact (keepsMemory_faultingAt _ (Processor.keepsMemory_access _ _ _ _)).bind
      fun _ => Exec.keeps_pure _
  | branch condition a b label =>
    rw [run]
    exact hP.onProcessor fun _ => Exec.keeps_bind_get fun _ _ => Exec.keeps_pure _
  | misalignedBranch condition a b site address =>
    refine hP.onProcessor fun _ => Exec.keeps_bind_get fun cpu _ => ?_
    split
    · exact (keepsMemory_faultingAt _ (Exec.keeps_raise _)).bind fun _ => Exec.keeps_pure _
    · exact (Exec.keeps_pure _).bind fun _ => Exec.keeps_pure _
  | callUnit link unit =>
    rw [run]
    refine hP.onProcessor fun _ => Exec.Keeps.bind ?_ fun _ => Exec.keeps_pure _
    exact Exec.keeps_modify fun _ h => h
  | callSystem link address =>
    refine (hP.onProcessor fun _ => ?_).bind fun _ => Exec.Keeps.bind ?_ fun _ => Exec.keeps_pure _
    · exact Exec.keeps_modify fun _ h => h
    · exact Exec.keeps_modify fun _ hg => hcalls.invoke? address hg
  | returnTo site =>
    refine hP.onProcessor fun _ => Exec.keeps_bind_get fun _ _ => Exec.Keeps.bind ?_ fun _ => ?_
    · exact Exec.keeps_modify fun _ h => h
    · exact (Processor.keepsMemory_jump _ _).bind fun _ => Exec.keeps_pure _
  | transfer flow => exact Exec.keeps_pure _

theorem Routine.keepsSheltered_runFrom (hP : Guest.Sheltered P) (hcalls : calls.Keeping P)
    (units : Array Routine) (fuel : Nat) (r : Routine) (position : Nat) :
    Exec.Keeps P (r.runFrom calls units fuel position) := by
  induction fuel generalizing r position with
  | zero => exact Exec.keeps_throw _
  | succ fuel ih =>
    rw [runFrom]
    split
    · exact Exec.keeps_pure _
    · refine (Step.keepsSheltered_run hP hcalls _).bind fun flow => ?_
      cases flow with
      | next => exact ih _ _
      | jump label => exact ih _ _
      | call unit =>
        dsimp only
        split
        · exact (ih _ _).bind fun _ => ih _ _
        · exact ih _ _
      | leave => exact Exec.keeps_pure _

theorem Frame.keepsSheltered_runAll (hP : Guest.Sheltered P) (hcalls : calls.Keeping P)
    (units : Array Routine) (frames : List Frame) :
    Exec.Keeps P (runAll calls units frames) := by
  induction frames with
  | nil => exact Exec.keeps_pure _
  | cons f rest ih =>
    exact (Routine.keepsSheltered_runFrom hP hcalls units _ _ _).bind fun _ => ih

/-! ## The machine -/

namespace Machine

/-- The machine has the system calls and the settings, and its guest has the property. -/
structure GuestKept (calls : SystemCalls σ) (config : Config) (P : Guest σ → Prop)
    (m : Machine σ) : Prop where
  calls : m.calls = calls
  config : m.config = config
  guest : P m.toGuest

variable {config : Config}

theorem keepsGuest_onGuest {x : Exec (Guest σ) Unit} (h : Exec.Keeps P x) :
    Exec.Keeps (GuestKept calls config P) (onGuest x) :=
  keeps_onGuest_of (fun _ hm => hm.guest) (fun _ _ hm hg => ⟨hm.calls, hm.config, hg⟩) h

theorem keepsSheltered_onProcessor (hP : Guest.Sheltered P) {x : Exec Processor Unit}
    (h : ∀ size, Exec.Keeps (Processor.HasMemory size) x) :
    Exec.Keeps (GuestKept calls config P) (onProcessor x) :=
  keepsGuest_onGuest (hP.onProcessor h)

theorem keepsSheltered_fetch (hP : Guest.Sheltered P) :
    Exec.Keeps (GuestKept calls config P) fetch := by
  refine keepsSheltered_onProcessor hP fun _ => Exec.keeps_bind_get fun _ _ => ?_
  refine Exec.keeps_bind_get fun _ _ => (Exec.keeps_ofExcept _).bind fun _ => ?_
  exact Exec.keeps_modify fun _ h => h

theorem keepsSheltered_call (hP : Guest.Sheltered P) (hcalls : calls.Keeping P) (fuel : Nat)
    (name : String) (target : Word) :
    Exec.Keeps (GuestKept calls config P) (call fuel name target) := by
  refine Exec.keeps_bind_get fun m hm => ?_
  have hkeeping : m.calls.Keeping P := hm.calls ▸ hcalls
  have hlink : ∀ size, Exec.Keeps (Processor.HasMemory size) (modify (·.link m.cpu.pc)) :=
    fun _ => Exec.keeps_modify fun _ h => h
  dsimp only
  split
  · refine (keepsSheltered_onProcessor hP hlink).bind fun _ => keepsGuest_onGuest ?_
    exact Exec.keeps_modify fun _ hg => hkeeping.invoke? target hg
  · split
    · refine (keepsSheltered_onProcessor hP hlink).bind fun _ => keepsGuest_onGuest ?_
      exact Routine.keepsSheltered_runFrom hP hkeeping _ _ _ _
    · refine (Exec.keeps_ofExcept _).bind fun _ => Exec.Keeps.bind ?_ fun _ => ?_
      · exact keepsSheltered_onProcessor hP fun _ => Exec.keeps_modify fun _ h => h
      · split
        · exact Exec.keeps_modify fun _ h => ⟨h.calls, h.config, h.guest⟩
        · exact Exec.keeps_pure _

theorem keepsSheltered_execute (hP : Guest.Sheltered P) (hcalls : calls.Keeping P) (fuel : Nat) :
    Exec.Keeps (GuestKept calls config P) (execute fuel) := by
  intro m hm
  cases hdecode : Instruction.decode m.cpu.ir with
  | none =>
    rw [Exec.state, execute_of_none fuel hdecode]
    exact keeps_passOver _ m hm
  | some i =>
    cases htarget : i.target? m.cpu with
    | none =>
      rw [Exec.state, execute_of_act fuel hdecode htarget]
      exact keepsSheltered_onProcessor hP i.keepsMemory_act m hm
    | some target =>
      rw [Exec.state, execute_of_target fuel hdecode htarget]
      exact keepsSheltered_call hP hcalls fuel i.name target m hm

theorem keepsSheltered_step (hP : Guest.Sheltered P) (hcalls : calls.Keeping P) (fuel : Nat) :
    Exec.Keeps (GuestKept calls config P) (step fuel) :=
  (keepsSheltered_fetch hP).bind fun _ => keepsSheltered_execute hP hcalls fuel

theorem keepsSheltered_resume (hP : Guest.Sheltered P) (hcalls : calls.Keeping P) (fuel : Nat) :
    Exec.Keeps (GuestKept calls config P) (resume fuel) :=
  keeps_resume_of_step (keepsSheltered_step hP hcalls) fuel

/-! ### Programs -/

theorem keepsSheltered_executeWord (hP : Guest.Sheltered P) (hcalls : calls.Keeping P)
    (fuel : Nat) (w : Word) : Exec.Keeps (GuestKept calls config P) (executeWord fuel w) := by
  refine (keepsSheltered_onProcessor hP fun _ => ?_).bind fun _ =>
    keepsSheltered_execute hP hcalls fuel
  exact Exec.keeps_modify fun _ h => h

theorem keepsSheltered_setPc (hP : Guest.Sheltered P) (pc : Word) :
    Exec.Keeps (GuestKept calls config P) (setPc pc) :=
  keepsSheltered_onProcessor hP fun _ => Exec.keeps_modify fun _ h => h

theorem keepsSheltered_restart (hP : Guest.Sheltered P) :
    Exec.Keeps (GuestKept calls config P) restart :=
  Exec.keeps_bind_get fun _ _ => keepsSheltered_setPc hP _

theorem keepsSheltered_stop (hP : Guest.Sheltered P) :
    Exec.Keeps (GuestKept calls config P) stop :=
  Exec.keeps_bind_get fun _ _ => keepsSheltered_setPc hP _

theorem keepsSheltered_run (hP : Guest.Sheltered P) (hcalls : calls.Keeping P) (fuel : Nat) :
    Exec.Keeps (GuestKept calls config P) (run fuel) :=
  (keepsSheltered_restart hP).bind fun _ => keepsSheltered_resume hP hcalls fuel

theorem keepsSheltered_load (hP : Guest.Sheltered P) (p : Program) :
    Exec.Keeps (GuestKept calls config P) (load p) := by
  refine (keepsSheltered_onProcessor hP fun _ => ?_).bind fun _ => ?_
  · exact Processor.keepsMemory_onMemory (Processor.keeps_load _ _)
  · exact Exec.keeps_modify fun _ h => ⟨h.calls, h.config, h.guest⟩

theorem keepsSheltered_runProgram (hP : Guest.Sheltered P) (hcalls : calls.Keeping P) (fuel : Nat)
    (p : Program) : Exec.Keeps (GuestKept calls config P) (runProgram fuel p) :=
  (keepsSheltered_load hP p).bind fun _ => keepsSheltered_run hP hcalls fuel

theorem keepsSheltered_runCompiled (hP : Guest.Sheltered P) (hcalls : calls.Keeping P) (fuel : Nat)
    (p : Program) : Exec.Keeps (GuestKept calls config P) (runCompiled fuel p) := by
  refine (keepsSheltered_load hP p).bind fun _ => Exec.keeps_bind_get fun m hm => ?_
  dsimp only
  split
  · exact Exec.keeps_throw _
  · have hkeeping : m.calls.Keeping P := hm.calls ▸ hcalls
    refine (keepsSheltered_restart hP).bind fun _ => Exec.Keeps.bind ?_ fun _ =>
      keepsSheltered_stop hP
    exact keepsGuest_onGuest (Routine.keepsSheltered_runFrom hP hkeeping _ _ _ _)

end Machine

end Risc32
