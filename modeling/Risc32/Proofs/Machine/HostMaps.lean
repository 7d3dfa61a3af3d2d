import Risc32.Proofs.Machine.Runs

/-!
# Runs on other hosts

The host and the table of system calls take part in a run only where an action does. So if the
actions of one table do with the images of hosts what those of another do with the hosts
(`SystemCalls.Maps`), then every run with the one table is the image of the run with the other:
of compiled code (`Routine.runFrom_mapHost`) and of the interpreter (`Machine.resume_mapHost`). The
order in which actions were added makes no difference then, nor does what a host keeps to itself.
-/

set_option autoImplicit false

namespace Risc32

variable {σ τ α : Type}

/-- An outcome seen through a function of its state. -/
def Exec.mapState {s t : Type} (f : s → t) : EStateM.Result Halt s α → EStateM.Result Halt t α
  | .ok a st => .ok a (f st)
  | .error halt st => .error halt (f st)

theorem Exec.ends_mapState {s t : Type} (f : s → t) (r : EStateM.Result Halt s α) :
    Exec.Ends (Exec.mapState f r) ↔ Exec.Ends r := by
  cases r with
  | ok a st => exact ⟨fun _ => .ok a st, fun _ => .ok a (f st)⟩
  | error halt st => exact ends_error_iff.trans ends_error_iff.symm

/-! ## Guests -/

/-- The guest with the image of its host. -/
def Guest.mapHost (f : σ → τ) (g : Guest σ) : Guest τ :=
  ⟨g.cpu, f g.host⟩

theorem Guest.onProcessor_mapHost (f : σ → τ) (x : Exec Processor α) (g : Guest σ) :
    Guest.onProcessor x (g.mapHost f) = Exec.mapState (mapHost f) (Guest.onProcessor x g) := by
  rw [onProcessor_apply, onProcessor_apply, mapHost]
  cases x g.cpu <;> rfl

namespace SystemCalls

/-- At every address the second table does with the image of a host what the first does with the
host. -/
structure Maps (f : σ → τ) (t : SystemCalls σ) (t' : SystemCalls τ) : Prop where
  contains : ∀ address, t'.contains address = t.contains address
  invoke : ∀ address g, t'.invoke? address (g.mapHost f) = (t.invoke? address g).map (.mapHost f)

variable {f : σ → τ} {t : SystemCalls σ} {t' : SystemCalls τ}

theorem Maps.perform (h : t.Maps f t') (link address : Word) (g : Guest σ) :
    t'.perform link address (g.mapHost f) = (t.perform link address g).mapHost f := by
  have hinvoke := h.invoke address { g with cpu := g.cpu.link link }
  show (t'.invoke? address (Guest.mapHost f { g with cpu := g.cpu.link link })).getD _ = _
  rw [hinvoke, SystemCalls.perform]
  cases t.invoke? address { g with cpu := g.cpu.link link } <;> rfl

end SystemCalls

variable {f : σ → τ} {t : SystemCalls σ} {t' : SystemCalls τ}

/-! ## Compiled code -/

theorem Step.run_mapHost (h : t.Maps f t') (st : Step) (g : Guest σ) :
    st.run t' (g.mapHost f) = Exec.mapState (Guest.mapHost f) (st.run t g) := by
  -- Only a system call has a use for the table, and all the rest leave the host alone.
  cases st with
  | callSystem link address =>
    have hperform := h.perform link address g
    simp only [Step.run, Exec.bind_apply, Guest.onProcessor_apply, Exec.modify_apply,
      Exec.pure_apply, Exec.mapState]
    exact congrArg (EStateM.Result.ok Successor.next) hperform
  | transfer flow => rfl
  | compute f c a b => simp only [Step.run, Guest.onProcessor_mapHost]
  | computeWith f b a operand => simp only [Step.run, Guest.onProcessor_mapHost]
  | access kind site b a offset => simp only [Step.run, Guest.onProcessor_mapHost]
  | branch condition a b label => simp only [Step.run, Guest.onProcessor_mapHost]
  | misalignedBranch condition a b site address => simp only [Step.run, Guest.onProcessor_mapHost]
  | callUnit link unit => simp only [Step.run, Guest.onProcessor_mapHost]
  | returnTo site => simp only [Step.run, Guest.onProcessor_mapHost]

theorem Routine.runFrom_mapHost (h : t.Maps f t') (units : Array Routine) (fuel : Nat)
    (r : Routine) (position : Nat) (g : Guest σ) :
    r.runFrom t' units fuel position (g.mapHost f) =
      Exec.mapState (Guest.mapHost f) (r.runFrom t units fuel position g) := by
  induction fuel generalizing r position g with
  | zero => rfl
  | succ fuel ih =>
    cases hstep : r.steps[position]? with
    | none => rw [runFrom_of_none _ _ hstep, runFrom_of_none _ _ hstep, Exec.mapState]
    | some st =>
      have hmap := st.run_mapHost h g
      cases hrun : st.run t g with
      | error halt g' =>
        rw [hrun] at hmap
        rw [runFrom_of_error _ hstep hmap, runFrom_of_error _ hstep hrun, Exec.mapState]
      | ok flow g' =>
        rw [hrun] at hmap
        cases flow with
        | next => rw [runFrom_of_next _ hstep hmap, runFrom_of_next _ hstep hrun, ih]
        | jump label => rw [runFrom_of_jump _ hstep hmap, runFrom_of_jump _ hstep hrun, ih]
        | leave =>
          rw [runFrom_of_leave _ hstep hmap, runFrom_of_leave _ hstep hrun, Exec.mapState]
        | call unit =>
          cases hcallee : units[unit]? with
          | none =>
            rw [runFrom_of_call_none _ hstep hmap hcallee,
              runFrom_of_call_none _ hstep hrun hcallee, ih]
          | some callee =>
            rw [runFrom_of_call _ hstep hmap hcallee, runFrom_of_call _ hstep hrun hcallee, ih]
            cases callee.runFrom t units fuel 0 g' with
            | ok a g'' => exact ih r (position + 1) g''
            | error halt g'' => rfl

/-! ## The machine -/

namespace Machine

/-- The machine with the image of its host, and with the table `t'`. -/
def mapHost (f : σ → τ) (t' : SystemCalls τ) (m : Machine σ) : Machine τ where
  toGuest := m.toGuest.mapHost f
  calls := t'
  cache := m.cache
  config := m.config
  entryPoint := m.entryPoint
  programEnd := m.programEnd

variable {m : Machine σ}

theorem onGuest_mapHost {x : Exec (Guest σ) Unit} {x' : Exec (Guest τ) Unit}
    (h : x' (m.toGuest.mapHost f) = Exec.mapState (Guest.mapHost f) (x m.toGuest)) :
    onGuest x' (m.mapHost f t') = Exec.mapState (mapHost f t') (onGuest x m) := by
  rw [onGuest_apply, onGuest_apply]
  change x' (m.mapHost f t').toGuest = _ at h
  rw [h]
  cases x m.toGuest <;> rfl

theorem call_mapHost (h : m.calls.Maps f t') (fuel : Nat) (name : String) (target : Word) :
    call fuel name target (m.mapHost f t') =
      Exec.mapState (mapHost f t') (call fuel name target m) := by
  have hmapped : (m.mapHost f t').calls.contains target = m.calls.contains target :=
    h.contains target
  cases hcontains : m.calls.contains target with
  | true =>
    have hperform := h.perform m.cpu.pc target m.toGuest
    rw [call_of_contains _ _ hcontains, call_of_contains _ _ (hmapped.trans hcontains)]
    exact congrArg (fun g => EStateM.Result.ok () { m.mapHost f t' with toGuest := g }) hperform
  | false =>
    rw [hcontains] at hmapped
    cases hon : m.config.compileOnDemand with
    | false =>
      rw [call_of_off _ _ hcontains hon, call_of_off _ _ hmapped hon]
      split <;> rfl
    | true =>
      cases hr : m.cache.routine? target with
      | none =>
        rw [call_of_on _ _ hcontains hon hr, call_of_on _ _ hmapped hon hr]
        split <;> rfl
      | some r =>
        rw [call_of_routine _ _ hcontains hon hr, call_of_routine _ _ hmapped hon hr]
        exact @onGuest_mapHost σ τ f t' { m with cpu := m.cpu.link m.cpu.pc } _ _
          (r.runFrom_mapHost h #[] fuel 0 _)

theorem execute_mapHost (h : m.calls.Maps f t') (fuel : Nat) :
    execute fuel (m.mapHost f t') = Exec.mapState (mapHost f t') (execute fuel m) := by
  cases hdecode : Instruction.decode m.cpu.ir with
  | none =>
    have hmapped : Instruction.decode (m.mapHost f t').cpu.ir = none := hdecode
    rw [execute_of_none _ hdecode, execute_of_none _ hmapped, passOver_apply, passOver_apply]
    show (if m.config.strictDecoding then _ else _) = _
    split <;> rfl
  | some i =>
    have hmapped : Instruction.decode (m.mapHost f t').cpu.ir = some i := hdecode
    cases htarget : i.target? m.cpu with
    | none =>
      have htarget' : i.target? (m.mapHost f t').cpu = none := htarget
      rw [execute_of_act _ hdecode htarget, execute_of_act _ hmapped htarget']
      exact onGuest_mapHost (Guest.onProcessor_mapHost f i.act m.toGuest)
    | some target =>
      have htarget' : i.target? (m.mapHost f t').cpu = some target := htarget
      rw [execute_of_target _ hdecode htarget, execute_of_target _ hmapped htarget']
      exact call_mapHost h fuel i.name target

theorem step_mapHost (h : m.calls.Maps f t') (fuel : Nat) :
    step fuel (m.mapHost f t') = Exec.mapState (mapHost f t') (step fuel m) := by
  cases hread : m.cpu.memory.readWord ⟨"fetch", m.cpu.pc⟩ m.cpu.pc with
  | error reason =>
    have hmapped : (m.mapHost f t').cpu.memory.readWord ⟨"fetch", (m.mapHost f t').cpu.pc⟩
        (m.mapHost f t').cpu.pc = .error reason := hread
    rw [step_of_error _ hread, step_of_error _ hmapped, Exec.mapState]
  | ok w =>
    have hmapped : (m.mapHost f t').cpu.memory.readWord ⟨"fetch", (m.mapHost f t').cpu.pc⟩
        (m.mapHost f t').cpu.pc = .ok w := hread
    rw [step_of_ok _ hread, step_of_ok _ hmapped]
    have hfetched : (m.fetched w).calls.Maps f t' := h
    exact execute_mapHost hfetched fuel

theorem resume_mapHost (h : m.calls.Maps f t') (fuel : Nat) :
    resume fuel (m.mapHost f t') = Exec.mapState (mapHost f t') (resume fuel m) := by
  induction fuel generalizing m with
  | zero => rfl
  | succ fuel ih =>
    have hstep := step_mapHost h fuel
    by_cases hlt : m.cpu.pc < m.programEnd
    · have hmapped : (m.mapHost f t').cpu.pc < (m.mapHost f t').programEnd := hlt
      rw [resume_of_lt _ hlt, resume_of_lt _ hmapped, hstep]
      cases hrun : step fuel m with
      | ok a m' =>
        rw [← (step_sameButGuest hrun).calls] at h
        exact ih h
      | error halt m' => rfl
    · have hmapped : ¬(m.mapHost f t').cpu.pc < (m.mapHost f t').programEnd := hlt
      rw [resume_of_ge _ hlt, resume_of_ge _ hmapped, Exec.mapState]

end Machine

end Risc32
