import Risc32.Proofs.Machine.HostMaps

/-!
# Recording system calls

Which system calls a run makes, and what they see, is not part of its result. `Machine.recording`
makes it so: the host also keeps a list, and every action adds its address and its view of the
processor before it runs. Nothing else changes. To forget the list after a recorded run gives the
run itself, for the interpreter (`Machine.resume_forget`) and for compiled code
(`Routine.runFrom_forget`), so what is proved of a run with any host is proved of its system calls.
-/

set_option autoImplicit false

namespace Risc32

variable {σ α β : Type}

/-! ## The table -/

/-- A record of system calls: the address of each and what it saw, the first one first. -/
abbrev CallRecord (α : Type) := List (Word × α)

/-- The system call that does the same and takes note of it. -/
def SystemCall.recording (view : Processor → α) (c : SystemCall σ) :
    SystemCall (σ × CallRecord α) where
  name := c.name
  address := c.address
  action cpu host :=
    let (cpu', host') := c.action cpu host.1
    (cpu', host', host.2 ++ [(c.address, view cpu)])

namespace SystemCalls

def recording (view : Processor → α) (t : SystemCalls σ) : SystemCalls (σ × CallRecord α) where
  symbols := t.symbols
  calls := t.calls.map (·.recording view)
  in_step := by
    rw [List.map_map]
    exact t.in_step

theorem find?_recording (view : Processor → α) (t : SystemCalls σ) (address : Word) :
    (t.recording view).find? address = (t.find? address).map (·.recording view) := by
  rw [find?, recording, List.find?_map]
  rfl

@[simp] theorem contains_recording (view : Processor → α) (t : SystemCalls σ) (address : Word) :
    (t.recording view).contains address = t.contains address := by
  rw [contains, contains, find?_recording, Option.isSome_map]

@[simp] theorem symbols_recording (view : Processor → α) (t : SystemCalls σ) :
    (t.recording view).symbols = t.symbols :=
  rfl

end SystemCalls

/-! ## Forgetting -/

/-- The guest whose host has kept no record. -/
def Guest.forget (g : Guest (σ × β)) : Guest σ :=
  ⟨g.cpu, g.host.1⟩

/-- Without its record, the recording table does what the table does. -/
theorem SystemCalls.recording_maps (view : Processor → α) (t : SystemCalls σ) :
    (t.recording view).Maps Prod.fst t where
  contains address := (t.contains_recording view address).symm
  invoke address g := by
    cases hfind : t.find? address with
    | none => simp only [invoke?, find?_recording, hfind, Option.map_none]
    | some c =>
      simp only [invoke?, find?_recording, hfind, Option.map_some]
      rfl

/-- A recorded run of compiled code without the record is the run. -/
theorem Routine.runFrom_forget (view : Processor → α) (t : SystemCalls σ) (units : Array Routine)
    (fuel : Nat) (r : Routine) (position : Nat) (g : Guest (σ × CallRecord α)) :
    r.runFrom t units fuel position g.forget =
      Exec.mapState Guest.forget (r.runFrom (t.recording view) units fuel position g) :=
  r.runFrom_mapHost (t.recording_maps view) units fuel position g

/-! ## The machine -/

namespace Machine

/-- The machine that records its system calls and has recorded none yet. -/
def recording (view : Processor → α) (m : Machine σ) : Machine (σ × CallRecord α) where
  cpu := m.cpu
  host := (m.host, [])
  calls := m.calls.recording view
  cache := m.cache
  config := m.config
  entryPoint := m.entryPoint
  programEnd := m.programEnd

/-- The machine with the system calls `t` and without a record. -/
def forget (t : SystemCalls σ) (m : Machine (σ × β)) : Machine σ where
  toGuest := m.toGuest.forget
  calls := t
  cache := m.cache
  config := m.config
  entryPoint := m.entryPoint
  programEnd := m.programEnd

variable {view : Processor → α} {t : SystemCalls σ} {m : Machine (σ × CallRecord α)}

theorem maps_of_recording (hcalls : m.calls = t.recording view) : m.calls.Maps Prod.fst t :=
  hcalls ▸ t.recording_maps view

theorem step_forget (hcalls : m.calls = t.recording view) (fuel : Nat) :
    step fuel (m.forget t) = Exec.mapState (forget t) (step fuel m) :=
  step_mapHost (maps_of_recording hcalls) fuel

theorem resume_forget (hcalls : m.calls = t.recording view) (fuel : Nat) :
    resume fuel (m.forget t) = Exec.mapState (forget t) (resume fuel m) :=
  resume_mapHost (maps_of_recording hcalls) fuel

theorem activeAfter_forget (hcalls : m.calls = t.recording view) (active : List Word) :
    (m.forget t).activeAfter active = m.activeAfter active := by
  cases hi : m.instruction? with
  | none =>
    have hi₀ : (m.forget t).instruction? = none := hi
    rw [activeAfter_of_none hi, activeAfter_of_none hi₀]
  | some i =>
    have hi₀ : (m.forget t).instruction? = some i := hi
    cases htarget : i.target? { m.cpu with pc := m.cpu.pc + 4 } with
    | none =>
      rw [activeAfter_of_act hi htarget, activeAfter_of_act hi₀ htarget]
    | some target =>
      rw [activeAfter_of_call hi htarget, activeAfter_of_call hi₀ htarget, hcalls,
        t.contains_recording]
      rfl

/-- A recorded run comes by the same machines as the run. -/
theorem Reaches.forget {m' : Machine (σ × CallRecord α)} {active : List Word}
    (h : Reaches m m' active) (hcalls : m.calls = t.recording view) :
    Reaches (m.forget t) (m'.forget t) active := by
  induction h with
  | start => exact .start
  | @step m' m'' active fuel reaches running stepped ih =>
    have hcalls' : m'.calls = t.recording view := reaches.settings.calls.trans hcalls
    have hstep := step_forget hcalls' fuel
    rw [stepped] at hstep
    rw [← activeAfter_forget hcalls']
    exact ih.step running hstep

/-! ### Runs of a program -/

theorem prepare_forget (view : Processor → α) (p : Program) (m : Machine σ) :
    prepare p m = Exec.mapState (forget m.calls) (prepare p (m.recording view)) := by
  rw [prepare_apply, prepare_apply]
  show _ = Exec.mapState _ (if p.image.length ≤ m.cpu.memory.size then _ else _)
  split <;> rfl

theorem runProgram_forget (view : Processor → α) (fuel : Nat) (p : Program) (m : Machine σ) :
    runProgram fuel p m =
      Exec.mapState (forget m.calls) (runProgram fuel p (m.recording view)) := by
  rw [runProgram_apply, runProgram_apply, prepare_forget]
  cases hprepare : prepare p (m.recording view) with
  | ok a m₀ =>
    exact resume_forget (calls_of_prepare hprepare) fuel
  | error halt m₀ => rfl

theorem ends_runProgram_recording (view : Processor → α) (fuel : Nat) (p : Program)
    (m : Machine σ) :
    Exec.Ends (runProgram fuel p (m.recording view)) ↔ Exec.Ends (runProgram fuel p m) := by
  have hforget := runProgram_forget view fuel p m
  rw [hforget, Exec.ends_mapState]

/-- The system calls that a run from the machine makes, and what they see. -/
def systemCallsOf (view : Processor → α) (run : Exec (Machine (σ × CallRecord α)) Unit)
    (m : Machine σ) : CallRecord α :=
  match run (m.recording view) with
  | .ok _ m' => m'.host.2
  | .error _ m' => m'.host.2

end Machine

end Risc32
