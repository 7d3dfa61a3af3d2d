import Risc32.Proofs.Machine.Execution

/-!
# Runs

A run goes on until it ends or its fuel is used up. More fuel changes nothing about a run that
ends, neither for the interpreter nor for compiled code, so that theorems about runs can be exact
about results and generous about fuel.

`Machine.Reaches` is the run of the interpreter as a relation. It says which machines a run comes
by, and with each the calls that have not returned there: the run keeps no record of them itself,
since a call only leaves its return address in a register.
-/

set_option autoImplicit false

namespace Risc32

variable {σ : Type}

/-- An execution that came to its end, well or by a fault, and not for want of fuel. -/
inductive Exec.Ends {s α : Type} : EStateM.Result Halt s α → Prop where
  | ok (a : α) (st : s) : Ends (.ok a st)
  | error {halt : Halt} (stopped : halt ≠ .outOfFuel) (st : s) : Ends (.error halt st)

theorem Exec.ends_error_iff {s α : Type} {halt : Halt} {st : s} :
    Exec.Ends (.error halt st : EStateM.Result Halt s α) ↔ halt ≠ .outOfFuel :=
  ⟨fun h => by cases h; assumption, fun h => .error h st⟩

theorem Exec.not_ends_outOfFuel {s α : Type} (st : s) :
    ¬Exec.Ends (.error .outOfFuel st : EStateM.Result Halt s α) :=
  fun h => Exec.ends_error_iff.1 h rfl

instance {s α : Type} (r : EStateM.Result Halt s α) : Decidable (Exec.Ends r) :=
  match r with
  | .ok a st => isTrue (.ok a st)
  | .error _ _ => decidable_of_iff _ Exec.ends_error_iff.symm

/-! ## Compiled code -/

namespace Routine

variable {calls : SystemCalls σ} {units : Array Routine} {r : Routine} {position : Nat}
  {st : Step} {g g' : Guest σ}

theorem runFrom_of_none (fuel : Nat) (g : Guest σ) (h : r.steps[position]? = none) :
    r.runFrom calls units (fuel + 1) position g = .ok () g := by
  simp [runFrom, h]

/-- What becomes of a step decides how the run goes on. -/
theorem runFrom_of_some (fuel : Nat) (h : r.steps[position]? = some st) :
    r.runFrom calls units (fuel + 1) position g =
      match st.run calls g with
      | .error halt g' => .error halt g'
      | .ok .next g' => r.runFrom calls units fuel (position + 1) g'
      | .ok (.jump label) g' => r.runFrom calls units fuel (r.target label) g'
      | .ok .leave g' => .ok () g'
      | .ok (.call unit) g' =>
        match units[unit]? with
        | none => r.runFrom calls units fuel (position + 1) g'
        | some callee =>
          match callee.runFrom calls units fuel 0 g' with
          | .ok _ g'' => r.runFrom calls units fuel (position + 1) g''
          | .error halt g'' => .error halt g'' := by
  cases hrun : st.run calls g with
  | error halt g' => simp [runFrom, h, hrun]
  | ok flow g' =>
    cases flow with
    | next => simp [runFrom, h, hrun]
    | jump label => simp [runFrom, h, hrun]
    | leave => simp [runFrom, h, hrun]
    | call unit =>
      cases hcallee : units[unit]? with
      | none => simp [runFrom, h, hrun, hcallee]
      | some callee =>
        cases hinner : callee.runFrom calls units fuel 0 g' <;>
          simp [runFrom, h, hrun, hcallee, hinner]

theorem runFrom_of_error {halt : Halt} (fuel : Nat) (h : r.steps[position]? = some st)
    (hrun : st.run calls g = .error halt g') :
    r.runFrom calls units (fuel + 1) position g = .error halt g' := by
  rw [runFrom_of_some fuel h, hrun]

theorem runFrom_of_next (fuel : Nat) (h : r.steps[position]? = some st)
    (hrun : st.run calls g = .ok .next g') :
    r.runFrom calls units (fuel + 1) position g =
      r.runFrom calls units fuel (position + 1) g' := by
  rw [runFrom_of_some fuel h, hrun]

theorem runFrom_of_jump {label : Nat} (fuel : Nat) (h : r.steps[position]? = some st)
    (hrun : st.run calls g = .ok (.jump label) g') :
    r.runFrom calls units (fuel + 1) position g =
      r.runFrom calls units fuel (r.target label) g' := by
  rw [runFrom_of_some fuel h, hrun]

theorem runFrom_of_leave (fuel : Nat) (h : r.steps[position]? = some st)
    (hrun : st.run calls g = .ok .leave g') :
    r.runFrom calls units (fuel + 1) position g = .ok () g' := by
  rw [runFrom_of_some fuel h, hrun]

theorem runFrom_of_call {unit : Nat} {callee : Routine} (fuel : Nat)
    (h : r.steps[position]? = some st) (hrun : st.run calls g = .ok (.call unit) g')
    (hcallee : units[unit]? = some callee) :
    r.runFrom calls units (fuel + 1) position g =
      match callee.runFrom calls units fuel 0 g' with
      | .ok _ g'' => r.runFrom calls units fuel (position + 1) g''
      | .error halt g'' => .error halt g'' := by
  simp only [runFrom_of_some fuel h, hrun, hcallee]

theorem runFrom_of_call_none {unit : Nat} (fuel : Nat) (h : r.steps[position]? = some st)
    (hrun : st.run calls g = .ok (.call unit) g') (hcallee : units[unit]? = none) :
    r.runFrom calls units (fuel + 1) position g =
      r.runFrom calls units fuel (position + 1) g' := by
  simp only [runFrom_of_some fuel h, hrun, hcallee]

/-- A routine that ends does not mind more fuel. -/
theorem runFrom_succ {fuel : Nat} (h : Exec.Ends (r.runFrom calls units fuel position g)) :
    r.runFrom calls units (fuel + 1) position g = r.runFrom calls units fuel position g := by
  -- Caller and callee draw on the same fuel, so one induction on it covers both.
  induction fuel generalizing r position g with
  | zero => exact absurd h (Exec.not_ends_outOfFuel _)
  | succ fuel ih =>
    cases hstep : r.steps[position]? with
    | none => rw [runFrom_of_none _ _ hstep, runFrom_of_none _ _ hstep]
    | some st =>
      cases hrun : st.run calls g with
      | error halt g' => rw [runFrom_of_error _ hstep hrun, runFrom_of_error _ hstep hrun]
      | ok flow g' =>
        cases flow with
        | next =>
          rw [runFrom_of_next _ hstep hrun] at h
          rw [runFrom_of_next _ hstep hrun, runFrom_of_next _ hstep hrun, ih h]
        | jump label =>
          rw [runFrom_of_jump _ hstep hrun] at h
          rw [runFrom_of_jump _ hstep hrun, runFrom_of_jump _ hstep hrun, ih h]
        | leave => rw [runFrom_of_leave _ hstep hrun, runFrom_of_leave _ hstep hrun]
        | call unit =>
          cases hcallee : units[unit]? with
          | none =>
            rw [runFrom_of_call_none _ hstep hrun hcallee] at h
            rw [runFrom_of_call_none _ hstep hrun hcallee,
              runFrom_of_call_none _ hstep hrun hcallee, ih h]
          | some callee =>
            rw [runFrom_of_call _ hstep hrun hcallee] at h
            rw [runFrom_of_call _ hstep hrun hcallee, runFrom_of_call _ hstep hrun hcallee]
            cases hinner : callee.runFrom calls units fuel 0 g' with
            | ok a g'' =>
              rw [hinner] at h
              rw [ih (by rw [hinner]; exact .ok _ _), hinner]
              exact ih h
            | error halt g'' =>
              rw [hinner] at h
              rw [ih (by rw [hinner]; exact h), hinner]

theorem runFrom_mono {fuel fuel' : Nat} (hle : fuel ≤ fuel')
    (h : Exec.Ends (r.runFrom calls units fuel position g)) :
    r.runFrom calls units fuel' position g = r.runFrom calls units fuel position g := by
  induction hle with
  | refl => rfl
  | step _ ih => rw [runFrom_succ (by rw [ih]; exact h), ih]

end Routine

/-! ## The interpreter -/

namespace Machine

/-- The machine after the fetch of a word. -/
def fetched (m : Machine σ) (w : Word) : Machine σ :=
  { m with cpu := { m.cpu with pc := m.cpu.pc + 4, ir := w } }

theorem step_of_error (fuel : Nat) {m : Machine σ} {reason : Fault}
    (h : m.cpu.memory.readWord ⟨"fetch", m.cpu.pc⟩ m.cpu.pc = .error reason) :
    step fuel m = .error (.fault reason) m := by
  simp [step, fetch_apply, h]

theorem step_of_ok (fuel : Nat) {m : Machine σ} {w : Word}
    (h : m.cpu.memory.readWord ⟨"fetch", m.cpu.pc⟩ m.cpu.pc = .ok w) :
    step fuel m = execute fuel (m.fetched w) := by
  simp [step, fetch_apply, h, fetched]

/-- A step of an instruction that calls nothing is what the instruction does to the processor. -/
theorem step_of_act (fuel : Nat) {m : Machine σ} {w : Word} {i : Instruction}
    (hread : m.cpu.memory.readWord ⟨"fetch", m.cpu.pc⟩ m.cpu.pc = .ok w)
    (hdecode : Instruction.decode w = some i) (htarget : i.target? (m.fetched w).cpu = none) :
    step fuel m = match i.act (m.fetched w).cpu with
      | .ok _ cpu => .ok () { m with cpu := cpu }
      | .error halt cpu => .error halt { m with cpu := cpu } := by
  have hfetched : Instruction.decode (m.fetched w).cpu.ir = some i := hdecode
  rw [step_of_ok fuel hread, execute_of_act fuel hfetched htarget, onProcessor_apply]
  cases i.act (m.fetched w).cpu <;> rfl

theorem resume_of_ge (fuel : Nat) {m : Machine σ} (h : ¬m.cpu.pc < m.programEnd) :
    resume (fuel + 1) m = .ok () m := by
  simp [resume, h]

theorem resume_of_lt (fuel : Nat) {m : Machine σ} (h : m.cpu.pc < m.programEnd) :
    resume (fuel + 1) m = match step fuel m with
      | .ok _ m' => resume fuel m'
      | .error halt m' => .error halt m' := by
  cases hstep : step fuel m <;> simp [resume, h, hstep]

theorem resume_of_step {fuel : Nat} {m m' : Machine σ} (hlt : m.cpu.pc < m.programEnd)
    (hstep : step fuel m = .ok () m') : resume (fuel + 1) m = resume fuel m' := by
  rw [resume_of_lt fuel hlt, hstep]

/-- Only a call of a compiled function has a use for fuel. -/
theorem execute_succ {fuel : Nat} {m : Machine σ} (h : Exec.Ends (execute fuel m)) :
    execute (fuel + 1) m = execute fuel m := by
  cases hdecode : Instruction.decode m.cpu.ir with
  | none => rw [execute_of_none _ hdecode, execute_of_none _ hdecode]
  | some i =>
    cases htarget : i.target? m.cpu with
    | none => rw [execute_of_act _ hdecode htarget, execute_of_act _ hdecode htarget]
    | some target =>
      rw [execute_of_target _ hdecode htarget] at h
      rw [execute_of_target _ hdecode htarget, execute_of_target _ hdecode htarget]
      cases hcontains : m.calls.contains target with
      | true => rw [call_of_contains _ _ hcontains, call_of_contains _ _ hcontains]
      | false =>
        cases hon : m.config.compileOnDemand with
        | false => rw [call_of_off _ _ hcontains hon, call_of_off _ _ hcontains hon]
        | true =>
          cases hr : m.cache.routine? target with
          | none => rw [call_of_on _ _ hcontains hon hr, call_of_on _ _ hcontains hon hr]
          | some r =>
            -- The fuel that is left goes to the routine.
            rw [call_of_routine _ _ hcontains hon hr] at h
            rw [call_of_routine _ _ hcontains hon hr, call_of_routine _ _ hcontains hon hr]
            rw [onGuest_apply, onGuest_apply]
            rw [onGuest_apply] at h
            rw [Routine.run, Routine.run, Routine.runFrom_succ]
            cases hrun : r.runFrom m.calls #[] fuel 0 ⟨m.cpu.link m.cpu.pc, m.host⟩ with
            | ok => exact .ok _ _
            | error halt g =>
              rw [Routine.run, hrun] at h
              exact Exec.ends_error_iff.2 (Exec.ends_error_iff.1 h)

theorem step_succ {fuel : Nat} {m : Machine σ} (h : Exec.Ends (step fuel m)) :
    step (fuel + 1) m = step fuel m := by
  cases hread : m.cpu.memory.readWord ⟨"fetch", m.cpu.pc⟩ m.cpu.pc with
  | error reason => rw [step_of_error _ hread, step_of_error _ hread]
  | ok w =>
    rw [step_of_ok _ hread] at h
    rw [step_of_ok _ hread, step_of_ok _ hread, execute_succ h]

/-- A run that ends does not mind more fuel. -/
theorem resume_succ {fuel : Nat} {m : Machine σ} (h : Exec.Ends (resume fuel m)) :
    resume (fuel + 1) m = resume fuel m := by
  induction fuel generalizing m with
  | zero => exact absurd h (Exec.not_ends_outOfFuel _)
  | succ fuel ih =>
    by_cases hlt : m.cpu.pc < m.programEnd
    · rw [resume_of_lt _ hlt] at h
      rw [resume_of_lt _ hlt, resume_of_lt _ hlt]
      cases hstep : step fuel m with
      | ok a m' =>
        rw [hstep] at h
        rw [step_succ (by rw [hstep]; exact .ok _ _), hstep]
        exact ih h
      | error halt m' =>
        rw [hstep] at h
        rw [step_succ (by rw [hstep]; exact h), hstep]
    · rw [resume_of_ge _ hlt, resume_of_ge _ hlt]

theorem resume_mono {fuel fuel' : Nat} {m : Machine σ} (hle : fuel ≤ fuel')
    (h : Exec.Ends (resume fuel m)) : resume fuel' m = resume fuel m := by
  induction hle with
  | refl => rfl
  | step _ ih => rw [resume_succ (by rw [ih]; exact h), ih]

/-! ### What a step keeps -/

/-- What a machine keeps while it runs. -/
structure SameSettings (m m' : Machine σ) : Prop where
  calls : m'.calls = m.calls
  config : m'.config = m.config
  programEnd : m'.programEnd = m.programEnd

/-- The machine with another guest. -/
def withGuest (m : Machine σ) (g : Guest σ) : Machine σ :=
  { m with toGuest := g }

theorem settings_withGuest (m : Machine σ) (g : Guest σ) : SameSettings m (m.withGuest g) :=
  ⟨rfl, rfl, rfl⟩

/-- The machines differ in the guest only, or else in the cache if functions are compiled on
demand. -/
structure SameButGuest (m m' : Machine σ) : Prop extends SameSettings m m' where
  entryPoint : m'.entryPoint = m.entryPoint
  cache : m.config.compileOnDemand = false → m'.cache = m.cache

namespace SameButGuest

variable {m m' m'' : Machine σ}

theorem withGuest (m : Machine σ) (g : Guest σ) : SameButGuest m (m.withGuest g) :=
  ⟨settings_withGuest m g, rfl, fun _ => rfl⟩

theorem trans (h : SameButGuest m m') (h' : SameButGuest m' m'') : SameButGuest m m'' where
  calls := h'.calls.trans h.calls
  config := h'.config.trans h.config
  programEnd := h'.programEnd.trans h.programEnd
  entryPoint := h'.entryPoint.trans h.entryPoint
  cache hoff := (h'.cache (by rw [h.config, hoff])).trans (h.cache hoff)

theorem eq_withGuest (h : SameButGuest m m') (hoff : m.config.compileOnDemand = false) :
    m' = m.withGuest m'.toGuest := by
  obtain ⟨g, _, _, _, _, _⟩ := m'
  obtain ⟨⟨rfl, rfl, rfl⟩, rfl, hcache⟩ := h
  obtain rfl := hcache hoff
  rfl

end SameButGuest

theorem onGuest_sameButGuest {α : Type} {x : Exec (Guest σ) α} {a : α} {m m' : Machine σ}
    (h : onGuest x m = .ok a m') : SameButGuest m m' := by
  rw [onGuest_apply] at h
  split at h
  · cases h
    exact .withGuest m _
  · cases h

theorem call_sameButGuest {fuel : Nat} {name : String} {target : Word} {m m' : Machine σ}
    (h : call fuel name target m = .ok () m') : SameButGuest m m' := by
  cases hcontains : m.calls.contains target with
  | true =>
    rw [call_of_contains _ _ hcontains] at h
    cases h
    exact .withGuest m _
  | false =>
    cases hon : m.config.compileOnDemand with
    | false =>
      rw [call_of_off _ _ hcontains hon] at h
      split at h
      · cases h
        exact .withGuest m _
      · cases h
    | true =>
      cases hr : m.cache.routine? target with
      | none =>
        -- Only here can the cache become another one: the function may be compiled now.
        rw [call_of_on _ _ hcontains hon hr] at h
        split at h
        · cases h
          exact ⟨⟨rfl, rfl, rfl⟩, rfl, fun hoff => absurd (hon.symm.trans hoff) (by decide)⟩
        · cases h
      | some r =>
        rw [call_of_routine _ _ hcontains hon hr] at h
        exact (SameButGuest.withGuest m _).trans (onGuest_sameButGuest h)

theorem execute_sameButGuest {fuel : Nat} {m m' : Machine σ} (h : execute fuel m = .ok () m') :
    SameButGuest m m' := by
  cases hdecode : Instruction.decode m.cpu.ir with
  | none =>
    rw [execute_of_none _ hdecode, passOver_apply] at h
    split at h
    · cases h
    · cases h
      exact .withGuest m _
  | some i =>
    cases htarget : i.target? m.cpu with
    | none =>
      rw [execute_of_act _ hdecode htarget] at h
      exact onGuest_sameButGuest h
    | some target =>
      rw [execute_of_target _ hdecode htarget] at h
      exact call_sameButGuest h

theorem step_sameButGuest {fuel : Nat} {m m' : Machine σ} (h : step fuel m = .ok () m') :
    SameButGuest m m' := by
  cases hread : m.cpu.memory.readWord ⟨"fetch", m.cpu.pc⟩ m.cpu.pc with
  | error reason =>
    rw [step_of_error _ hread] at h
    cases h
  | ok w =>
    rw [step_of_ok _ hread] at h
    exact (SameButGuest.withGuest m _).trans (execute_sameButGuest h)

/-! ### Without compilation on demand -/

/-- With nothing compiled, a step has no use for fuel. -/
theorem step_eq_of_off {m : Machine σ} (hoff : m.config.compileOnDemand = false)
    (fuel fuel' : Nat) : step fuel m = step fuel' m := by
  cases hread : m.cpu.memory.readWord ⟨"fetch", m.cpu.pc⟩ m.cpu.pc with
  | error reason => rw [step_of_error _ hread, step_of_error _ hread]
  | ok w =>
    rw [step_of_ok _ hread, step_of_ok _ hread]
    cases hdecode : Instruction.decode (m.fetched w).cpu.ir with
    | none => rw [execute_of_none _ hdecode, execute_of_none _ hdecode]
    | some i =>
      cases htarget : i.target? (m.fetched w).cpu with
      | none => rw [execute_of_act _ hdecode htarget, execute_of_act _ hdecode htarget]
      | some target =>
        rw [execute_of_target _ hdecode htarget, execute_of_target _ hdecode htarget]
        cases hcontains : (m.fetched w).calls.contains target with
        | true => rw [call_of_contains _ _ hcontains, call_of_contains _ _ hcontains]
        | false => rw [call_of_off _ _ hcontains hoff, call_of_off _ _ hcontains hoff]

/-! ### The machines a run comes by -/

/-- The instruction at the program counter. -/
def instruction? (m : Machine σ) : Option Instruction :=
  match m.cpu.memory.readWord ⟨"fetch", m.cpu.pc⟩ m.cpu.pc with
  | .ok w => Instruction.decode w
  | .error _ => none

theorem instruction?_of_read {m : Machine σ} {w : Word} {i : Instruction}
    (hread : m.cpu.memory.readWord ⟨"fetch", m.cpu.pc⟩ m.cpu.pc = .ok w)
    (hdecode : Instruction.decode w = some i) : m.instruction? = some i := by
  rw [instruction?, hread]
  exact hdecode

/-- The return addresses of the calls of guest code that have not returned, the innermost first,
after the instruction at the program counter. A system call has returned when it is over. -/
def activeAfter (m : Machine σ) (active : List Word) : List Word :=
  match m.instruction? with
  | none => active
  | some i =>
    match i.target? { m.cpu with pc := m.cpu.pc + 4 } with
    | some target => if m.calls.contains target then active else (m.cpu.pc + 4) :: active
    | none => if i.isReturn then active.tail else active

/-- What an instruction calls does not depend on the word fetched last. -/
theorem target?_fetched (i : Instruction) (m : Machine σ) (w : Word) :
    i.target? { m.cpu with pc := m.cpu.pc + 4 } = i.target? (m.fetched w).cpu := by
  cases i <;> rfl

theorem activeAfter_of_none {m : Machine σ} (h : m.instruction? = none) (active : List Word) :
    m.activeAfter active = active := by
  rw [activeAfter, h]

theorem activeAfter_of_call {m : Machine σ} {i : Instruction} {target : Word}
    (h : m.instruction? = some i)
    (ht : i.target? { m.cpu with pc := m.cpu.pc + 4 } = some target) (active : List Word) :
    m.activeAfter active =
      if m.calls.contains target then active else (m.cpu.pc + 4) :: active := by
  rw [activeAfter, h]
  simp only [ht]

theorem activeAfter_of_act {m : Machine σ} {i : Instruction} (h : m.instruction? = some i)
    (ht : i.target? { m.cpu with pc := m.cpu.pc + 4 } = none) (active : List Word) :
    m.activeAfter active = if i.isReturn then active.tail else active := by
  rw [activeAfter, h]
  simp only [ht]

/-- A run from `m` comes by the machine, with these calls active. -/
inductive Reaches (m : Machine σ) : Machine σ → List Word → Prop where
  | start : Reaches m m []
  | step {m' m'' : Machine σ} {active : List Word} {fuel : Nat} (reaches : Reaches m m' active)
      (running : m'.cpu.pc < m'.programEnd) (stepped : step fuel m' = .ok () m'') :
      Reaches m m'' (m'.activeAfter active)

theorem Reaches.sameButGuest {m m' : Machine σ} {active : List Word} (h : Reaches m m' active) :
    SameButGuest m m' := by
  induction h with
  | start => exact .withGuest m _
  | step _ _ stepped ih => exact ih.trans (step_sameButGuest stepped)

theorem Reaches.settings {m m' : Machine σ} {active : List Word} (h : Reaches m m' active) :
    SameSettings m m' :=
  h.sameButGuest.toSameSettings

/-- With nothing compiled, all that changes on the way is the guest. -/
theorem Reaches.guest {m m' : Machine σ} {active : List Word} (h : Reaches m m' active)
    (hoff : m.config.compileOnDemand = false) : m' = m.withGuest m'.toGuest :=
  h.sameButGuest.eq_withGuest hoff

/-- Asks a question of every machine that a run comes by, as long as there is fuel. -/
def checkReached (ask : Machine σ → List Word → Bool) : Nat → Machine σ → List Word → Bool
  | 0, _, _ => false
  | fuel + 1, m, active =>
    ask m active &&
      if m.cpu.pc < m.programEnd then
        match step fuel m with
        | .ok _ m' => checkReached ask fuel m' (m.activeAfter active)
        | .error _ _ => true
      else true

/-- For a run that ends, "always" can be decided by running it. -/
theorem Reaches.of_check {ask : Machine σ → List Word → Bool} {fuel : Nat} {m m' : Machine σ}
    {active : List Word} (h : Reaches m m' active) (hoff : m.config.compileOnDemand = false)
    (hcheck : checkReached ask fuel m []) : ask m' active := by
  -- The check follows the same run, so at every machine of it some of the check is left.
  suffices hrest : ∃ fuel, checkReached ask fuel m' active by
    obtain ⟨fuel, hrest⟩ := hrest
    cases fuel with
    | zero => exact absurd hrest Bool.false_ne_true
    | succ fuel => exact (Bool.and_eq_true_iff.1 hrest).1
  induction h with
  | start => exact ⟨fuel, hcheck⟩
  | @step m' m'' active fuel' reaches running stepped ih =>
    obtain ⟨rest, hrest⟩ := ih
    cases rest with
    | zero => exact absurd hrest Bool.false_ne_true
    | succ rest =>
      have hoff' : m'.config.compileOnDemand = false := by rw [reaches.settings.config, hoff]
      have hnext := (Bool.and_eq_true_iff.1 hrest).2
      rw [if_pos running, step_eq_of_off hoff' rest fuel', stepped] at hnext
      exact ⟨rest, hnext⟩

/-! ## Runs of a program -/

/-- The machine with a program in memory, if the program fits. -/
def loaded (m : Machine σ) (p : Program) : Machine σ :=
  { m with
    cpu := { m.cpu with memory := m.cpu.memory.putBytes 0 p.image }
    entryPoint := BitVec.ofNat 32 p.entryPoint
    programEnd := BitVec.ofNat 32 p.textEnd
    cache := .empty }

theorem load_apply (p : Program) (m : Machine σ) :
    load p m =
      if p.image.length ≤ m.cpu.memory.size then .ok () (m.loaded p)
      else .error (.fault (.outOfBounds ⟨"load", Program.textStart⟩ Program.textStart)) m := by
  by_cases h : p.image.length ≤ m.cpu.memory.size <;>
    simp [load, onProcessor_apply, Processor.onMemory, Memory.load, Memory.checkRange,
      Program.textStart, h, loaded]

/-- The machine at the beginning of a loaded program. -/
def prepared (m : Machine σ) (p : Program) : Machine σ :=
  { m.loaded p with cpu := { (m.loaded p).cpu with pc := BitVec.ofNat 32 p.entryPoint } }

/-- Loads a program and goes to its beginning. -/
def prepare (p : Program) : Exec (Machine σ) Unit := do
  load p
  restart

theorem prepare_apply (p : Program) (m : Machine σ) :
    prepare p m =
      if p.image.length ≤ m.cpu.memory.size then .ok () (m.prepared p)
      else .error (.fault (.outOfBounds ⟨"load", Program.textStart⟩ Program.textStart)) m := by
  by_cases h : p.image.length ≤ m.cpu.memory.size
  · simp [prepare, load_apply, restart, setPc, onProcessor_apply, h, prepared, loaded]
  · simp [prepare, load_apply, restart, h]

theorem runProgram_apply (fuel : Nat) (p : Program) (m : Machine σ) :
    runProgram fuel p m = match prepare p m with
      | .ok _ m₀ => resume fuel m₀
      | .error halt m₀ => .error halt m₀ := by
  cases hload : load p m <;>
    simp [runProgram, run, prepare, restart, setPc, hload, onProcessor_apply]

theorem runProgram_of_fits {p : Program} {m : Machine σ} (fuel : Nat)
    (hfits : p.image.length ≤ m.cpu.memory.size) :
    runProgram fuel p m = resume fuel (m.prepared p) := by
  rw [runProgram_apply, prepare_apply, if_pos hfits]

theorem runProgram_of_lt {p : Program} {m : Machine σ} (fuel : Nat)
    (hfits : ¬p.image.length ≤ m.cpu.memory.size) : runProgram fuel p m =
      .error (.fault (.outOfBounds ⟨"load", Program.textStart⟩ Program.textStart)) m := by
  rw [runProgram_apply, prepare_apply, if_neg hfits]

theorem prepare_eq_ok {p : Program} {m m₀ : Machine σ} (h : prepare p m = .ok () m₀) :
    p.image.length ≤ m.cpu.memory.size ∧ m.prepared p = m₀ := by
  rw [prepare_apply] at h
  split at h
  · next hfits =>
    cases h
    exact ⟨hfits, rfl⟩
  · cases h

theorem calls_of_prepare {p : Program} {m m₀ : Machine σ} (h : prepare p m = .ok () m₀) :
    m₀.calls = m.calls := by
  obtain ⟨-, rfl⟩ := prepare_eq_ok h
  rfl

end Machine

end Risc32
