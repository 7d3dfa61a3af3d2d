import Risc32.Proofs.Machine.Hosts
import Risc32.Proofs.Machine.Whole

/-!
# The first system call

An action of the host may do anything to the processor, so nothing can be said in general of a
compiled program after its first system call. Up to there something can, and it asks for nothing of
the actions: interpreter and compiled code come to the first system call together
(`Machine.firstCall_ofLines`), with the same registers and the same memory.

They do not come there with the same program counter. Compiled code has no use for it and leaves it
where it was when the run began. It does not look at it afterwards either: the interpreter goes on
where the action leaves the program counter, compiled code behind the call.

What is asked of the program is asked up to the first system call only (`Machine.ReachesQuietly`).
-/

set_option autoImplicit false

namespace Risc32

variable {σ α : Type}

/-! ## Actions -/

/-- The guest after the action. -/
def SystemCall.run (c : SystemCall σ) (g : Guest σ) : Guest σ :=
  ⟨(c.action g.cpu g.host).1, (c.action g.cpu g.host).2⟩

theorem SystemCalls.perform_of_find? {t : SystemCalls σ} {address : Word} {c : SystemCall σ}
    (h : t.find? address = some c) (link : Word) (g : Guest σ) :
    t.perform link address g = c.run { g with cpu := g.cpu.link link } := by
  simp only [perform, invoke?, h]
  rfl

theorem SystemCalls.exists_of_contains {t : SystemCalls σ} {address : Word}
    (h : t.contains address) : ∃ c, t.find? address = some c ∧ c.address = address := by
  obtain ⟨c, hc⟩ := Option.isSome_iff_exists.1 h
  have hfind : t.calls.find? (·.address == address) = some c := hc
  exact ⟨c, hc, by simpa using List.find?_some hfind⟩

theorem Processor.read_link (cpu : Processor) (address : Word) :
    (cpu.link address).registers.read .returnAddress = address := by
  rw [link, RegisterFile.read, RegisterFile.write, RegisterFile.get_set]
  exact if_pos (by decide)

/-- All that can differ besides registers and memory. -/
theorem Processor.SameData.eq {cpu cpu' : Processor} (h : cpu.SameData cpu') :
    cpu' = { cpu with pc := cpu'.pc, ir := cpu'.ir } := by
  obtain ⟨registers, memory, pc, ir⟩ := cpu'
  obtain ⟨rfl, rfl⟩ : registers = cpu.registers ∧ memory = cpu.memory := ⟨h.registers, h.memory⟩
  rfl

/-! ## The two runs up to the first call -/

namespace CompiledProgram

open Machine

/-- Both runs, which began at `m₀`, make the system call, the interpreter with the processor `cpu`.
Compiled code makes it with the program counter that `m₀` has. The interpreter goes on with what the
action makes of the processor, and so at the program counter that it leaves. Compiled code goes on
with the step behind the call. -/
structure Meet (c : CompiledProgram) (m₀ : Machine σ) (call : SystemCall σ) (cpu : Processor)
    (interpreted : EStateM.Result Halt (Machine σ) Unit)
    (compiled : EStateM.Result Halt (Guest σ) Unit) : Prop where
  found : m₀.calls.find? call.address = some call
  pc : cpu.pc = cpu.registers.read .returnAddress
  resumes : ∃ n, interpreted = resume n (m₀.withGuest (call.run ⟨cpu, m₀.host⟩))
  goesOn : ∃ fuel r position rest,
    r.steps[position]? = some (.callSystem cpu.pc call.address) ∧
    compiled = Frame.runAll m₀.calls c.units (⟨fuel, r, position + 1⟩ :: rest)
      (call.run ⟨{ cpu with pc := m₀.cpu.pc, ir := m₀.cpu.ir }, m₀.host⟩)

variable {c : CompiledProgram} {p : Program} {m₀ m : Machine σ}
  {R : Machine σ → List Word → Prop} {frames : List Frame} {g : Guest σ}

/-- The runs meet in the system call that they make now. -/
theorem Lockstep.meet (h : c.Follows p m₀ R) {fuel : Nat} {r : Routine} {position : Nat}
    {rest : List Frame} (hlock : Lockstep c p R m (⟨fuel + 1, r, position⟩ :: rest) g)
    (hhost : m.host = m₀.host) (hcontrol : m₀.cpu.SameControl g.cpu) {address w : Word}
    (hlt : m.cpu.pc < m.programEnd) (hcontains : m₀.calls.contains address)
    (hcall : r.steps[position]? = some (.callSystem (m.cpu.pc + 4) address))
    (hsteps : ∀ n, step n m = .ok () ((m.fetched w).enter (.system address))) (n : Nat) :
    ∃ call cpu, Meet c m₀ call cpu (resume (n + 1) m)
      (Frame.runAll m₀.calls c.units (⟨fuel + 1, r, position⟩ :: rest) g) := by
  obtain ⟨call, hfound, rfl⟩ := SystemCalls.exists_of_contains hcontains
  obtain ⟨g₁, rfl⟩ : ∃ g₁, m = m₀.withGuest g₁ := ⟨_, hlock.guest h⟩
  obtain ⟨cpu₁, host₁⟩ := g₁
  obtain rfl : host₁ = m₀.host := hhost
  let cpu := Processor.link { cpu₁ with pc := cpu₁.pc + 4, ir := w } (cpu₁.pc + 4)
  refine ⟨call, cpu, hfound, (Processor.read_link _ _).symm, ⟨n, ?_⟩, fuel, r, position, rest,
    hcall, ?_⟩
  · rw [resume_of_step hlt (hsteps n)]
    exact congrArg (fun g => resume n (m₀.withGuest g))
      (SystemCalls.perform_of_find? hfound (cpu₁.pc + 4)
        ⟨{ cpu₁ with pc := cpu₁.pc + 4, ir := w }, m₀.host⟩)
  · have hfetched : Processor.SameData { cpu₁ with pc := cpu₁.pc + 4, ir := w } g.cpu :=
      ⟨hlock.data.registers, hlock.data.memory⟩
    have hlinked : cpu.SameData (g.cpu.link (cpu₁.pc + 4)) := hfetched.link _
    have hcpu : g.cpu.link (cpu₁.pc + 4) = { cpu with pc := m₀.cpu.pc, ir := m₀.cpu.ir } := by
      rw [hlinked.eq, ← hcontrol.pc, ← hcontrol.ir]
      rfl
    have hhost' : g.host = m₀.host := hlock.host
    rw [Frame.runAll_of_next fuel rest hcall (Step.run_callSystem _ _ _ g),
      SystemCalls.perform_of_find? hfound, hhost']
    exact congrArg (fun cpu => Frame.runAll m₀.calls c.units (⟨fuel, r, position + 1⟩ :: rest)
      (call.run ⟨cpu, m₀.host⟩)) hcpu

/-- If the run of the interpreter changes the host, then it makes a system call, and compiled code
makes the first one as well. -/
theorem meet_of_resume (h : c.Follows p m₀ R) {n : Nat} (hlock : Lockstep c p R m frames g)
    (henough : Frame.Enough n frames) (hhost : m.host = m₀.host)
    (hcontrol : m₀.cpu.SameControl g.cpu) (hchanges : ((resume n).state m).host ≠ m₀.host) :
    ∃ call cpu, Meet c m₀ call cpu (resume n m) (Frame.runAll m₀.calls c.units frames g) := by
  -- Up to the first system call the hosts are the one of `m₀`, so a run that is over before it
  -- has not changed it.
  induction n generalizing m frames g with
  | zero => exact absurd hhost hchanges
  | succ n ih =>
    obtain ⟨fuel, r, position, rest, rfl⟩ := hlock.exists_succ henough
    cases hlock.advances h with
    | goes lockstep succeeds resumes runs host control =>
      rw [Exec.state, resumes n] at hchanges
      rw [resumes n, runs]
      exact ih lockstep (succeeds.enough henough)
        (lockstep.host.symm.trans (host.trans (hlock.host.trans hhost)))
        (hcontrol.trans control) hchanges
    | calls reaches running contains system call steps stays goesOn =>
      exact hlock.meet h hhost hcontrol running contains call steps n
    | finished pc ends runs =>
      rw [Exec.state_of_ok (ends n)] at hchanges
      exact absurd hhost hchanges
    | stopped stops runs alike host =>
      rw [Exec.state_of_error (stops n)] at hchanges
      exact absurd (host.trans hhost) hchanges

/-- If the run of compiled code changes the host, then it makes a system call, and the interpreter
makes the first one as well, if it has the fuel. -/
theorem meet_of_runAll (h : c.Follows p m₀ R) {n : Nat} (hlock : Lockstep c p R m frames g)
    (hweight : Frame.weight frames < n) (hhost : m.host = m₀.host)
    (hcontrol : m₀.cpu.SameControl g.cpu)
    (hchanges : ((Frame.runAll m₀.calls c.units frames).state g).host ≠ m₀.host) :
    ∃ call cpu, Meet c m₀ call cpu (resume n m) (Frame.runAll m₀.calls c.units frames g) := by
  -- The fuel of the frames would not do for the induction: a callee has as much as its caller has
  -- left. The interpreter needs a unit for each step of compiled code, and the weight is enough.
  induction n generalizing m frames g with
  | zero => exact absurd hweight (Nat.not_lt_zero _)
  | succ n ih =>
    have hhost' : g.host = m₀.host := hlock.host.trans hhost
    obtain ⟨fuel, r, position, rest, rfl⟩ := hlock.exists_top
    cases fuel with
    | zero =>
      rw [Exec.state_of_error (Frame.runAll_of_outOfFuel r position rest g)] at hchanges
      exact absurd hhost' hchanges
    | succ fuel =>
      cases hlock.advances h with
      | goes lockstep succeeds resumes runs host control =>
        rw [Exec.state, runs] at hchanges
        rw [resumes n, runs]
        exact ih lockstep
          (Nat.lt_of_lt_of_le (succeeds.weight_lt r position) (Nat.le_of_lt_succ hweight))
          (lockstep.host.symm.trans (host.trans hhost')) (hcontrol.trans control) hchanges
      | calls reaches running contains system call steps stays goesOn =>
        exact hlock.meet h hhost hcontrol running contains call steps n
      | finished pc ends runs =>
        rw [Exec.state_of_ok runs] at hchanges
        exact absurd hhost' hchanges
      | stopped stops runs alike host =>
        rw [Exec.state_of_error runs] at hchanges
        exact absurd (alike.host.trans (host.trans hhost)) hchanges

/-- To forget what was recorded does not change where the runs meet. -/
theorem Meet.forget {view : Processor → α} {t : SystemCalls σ} {m₀ m : Machine (σ × CallRecord α)}
    {call : SystemCall (σ × CallRecord α)} {cpu : Processor} {n : Nat} {frames : List Frame}
    {g : Guest (σ × CallRecord α)} (hcalls : m₀.calls = t.recording view)
    (h : Meet c m₀ call cpu (resume n m)
      (Frame.runAll (t.recording view) c.units frames g)) (hm : m.calls = t.recording view) :
    ∃ call₀, call = call₀.recording view ∧ Meet c (m₀.forget t) call₀ cpu
      (resume n (m.forget t)) (Frame.runAll t c.units frames g.forget) := by
  obtain ⟨hfound, hpc, ⟨k, hresumes⟩, fuel, r, position, rest, hcall, hgoesOn⟩ := h
  rw [hcalls, SystemCalls.find?_recording] at hfound
  obtain ⟨call₀, hfound₀, rfl⟩ := Option.map_eq_some_iff.1 hfound
  refine ⟨call₀, rfl, hfound₀, hpc, ⟨k, ?_⟩, fuel, r, position, rest, hcall, ?_⟩
  · have hcalls' : (m₀.withGuest ((call₀.recording view).run ⟨cpu, m₀.host⟩)).calls =
        t.recording view := hcalls
    rw [resume_forget hm, hresumes, ← resume_forget hcalls']
    rfl
  · rw [Frame.runAll_forget view, hgoesOn, hcalls, ← Frame.runAll_forget view]
    rfl

end CompiledProgram

/-! ## Runs of a program -/

namespace Machine

/-- A run from `m` comes by the machine, with these calls active, and makes no system call on the
way there. -/
inductive ReachesQuietly (m : Machine σ) : Machine σ → List Word → Prop where
  | start : ReachesQuietly m m []
  | step {m' m'' : Machine σ} {active : List Word} {fuel : Nat}
      (reaches : ReachesQuietly m m' active) (running : m'.cpu.pc < m'.programEnd)
      (quiet : m'.systemCall? = none) (stepped : step fuel m' = .ok () m'') :
      ReachesQuietly m m'' (m'.activeAfter active)

theorem ReachesQuietly.reaches {m m' : Machine σ} {active : List Word}
    (h : ReachesQuietly m m' active) : Reaches m m' active := by
  induction h with
  | start => exact .start
  | step reaches running quiet stepped ih => exact ih.step running stepped

theorem systemCall?_forget {view : Processor → α} {t : SystemCalls σ}
    {m : Machine (σ × CallRecord α)} (hcalls : m.calls = t.recording view) :
    (m.forget t).systemCall? = m.systemCall? := by
  have hcontains : ∀ address, m.calls.contains address = t.contains address := by
    intro address
    rw [hcalls, t.contains_recording]
  rw [systemCall?, systemCall?, funext hcontains]
  rfl

theorem ReachesQuietly.forget {view : Processor → α} {t : SystemCalls σ}
    {m m' : Machine (σ × CallRecord α)} {active : List Word} (h : ReachesQuietly m m' active)
    (hcalls : m.calls = t.recording view) :
    ReachesQuietly (m.forget t) (m'.forget t) active := by
  induction h with
  | start => exact .start
  | @step m' m'' active fuel reaches running quiet stepped ih =>
    have hcalls' : m'.calls = t.recording view := reaches.reaches.settings.calls.trans hcalls
    have hstep := step_forget hcalls' fuel
    rw [stepped] at hstep
    rw [← activeAfter_forget hcalls']
    exact ih.step running ((systemCall?_forget hcalls').trans quiet) hstep

/-- Up to its first system call, the run leaves the instructions in memory alone, every return goes
back behind the innermost call that is active, and the run is inside of a function only as long as a
call is active. -/
structure DisciplinedUntilCall (p : Program) (m₀ : Machine σ) : Prop where
  keeps : ∀ {m : Machine σ} {active : List Word}, ReachesQuietly m₀ m active →
    Memory.SameBelow m₀.programEnd.toNat m₀.cpu.memory m.cpu.memory
  returns : ∀ {m : Machine σ} {active : List Word} {i : Instruction}, ReachesQuietly m₀ m active →
    m.cpu.pc < m.programEnd → m.instruction? = some i → i.isReturn →
    active.head? = some (m.cpu.registers.read .returnAddress)
  functions : ∀ {m : Machine σ}, ReachesQuietly m₀ m [] → ¬p.InFunction m.cpu.pc

theorem DisciplinedUntilCall.of_forget {p : Program} {view : Processor → α} {t : SystemCalls σ}
    {m₀ : Machine (σ × CallRecord α)} (h : DisciplinedUntilCall p (m₀.forget t))
    (hcalls : m₀.calls = t.recording view) : DisciplinedUntilCall p m₀ where
  keeps hreaches := h.keeps (hreaches.forget hcalls)
  returns hreaches hlt hi hreturn := h.returns (hreaches.forget hcalls) hlt hi hreturn
  functions hreaches := h.functions (hreaches.forget hcalls)

/-- The machine runs the program, with nothing compiled, in a way that the compiled program can
follow up to the first system call. No instruction stands where a word cannot point, the program
begins at an instruction, and no system call has the address of a function. Nothing is asked of the
actions. -/
structure CompliantUntilCall (p : Program) (m : Machine σ) : Prop where
  textEnd : p.textEnd < 2 ^ 32
  entryPoint : p.entryPoint % 4 = 0
  apart : ∀ address ∈ m.calls.symbols.addresses, ¬p.IsEntry address
  disciplined : ∀ m₀, prepare p (m.setCompileOnDemand false) = .ok () m₀ →
    DisciplinedUntilCall p m₀

variable {p : Program} {m : Machine σ} {c : CompiledProgram}

theorem CompliantUntilCall.of_whole (htextEnd : p.textEnd < 2 ^ 32)
    (hentryPoint : p.entryPoint % 4 = 0)
    (hapart : ∀ address ∈ m.calls.symbols.addresses, ¬p.IsEntry address)
    (hkeeps : KeepsProgramOf p (m.setCompileOnDemand false))
    (hdisciplined : DisciplinedOf p (m.setCompileOnDemand false)) : CompliantUntilCall p m where
  textEnd := htextEnd
  entryPoint := hentryPoint
  apart := hapart
  disciplined m₀ hprepare := {
    keeps := fun hreaches => hkeeps m₀ hprepare _ _ hreaches.reaches
    returns := fun hreaches => (hdisciplined m₀ hprepare).returns hreaches.reaches
    functions := fun hreaches => (hdisciplined m₀ hprepare).functions hreaches.reaches }

theorem CompliantUntilCall.recording (h : CompliantUntilCall p m) (view : Processor → α) :
    CompliantUntilCall p (m.recording view) where
  textEnd := h.textEnd
  entryPoint := h.entryPoint
  apart := by
    show ∀ address ∈ (m.calls.recording view).symbols.addresses, ¬p.IsEntry address
    rw [SystemCalls.symbols_recording]
    exact h.apart
  disciplined m₀ hprepare := by
    have hforget := prepare_forget view p (m.setCompileOnDemand false)
    change prepare p ((m.setCompileOnDemand false).recording view) = _ at hprepare
    rw [hprepare] at hforget
    exact (h.disciplined _ hforget).of_forget (calls_of_prepare hprepare)

/-- The compiled program can follow a compliant machine up to the first system call. -/
theorem CompliantUntilCall.follows (h : CompliantUntilCall p m)
    (hfunctions : ∀ x ∈ p.functions.extents, p.HasFunction x)
    (hc : CompiledProgram.compile p m.calls.symbols.addresses = .ok c)
    (hfits : p.image.length ≤ m.cpu.memory.size) :
    c.Follows p ((m.setCompileOnDemand false).prepared p)
      (ReachesQuietly ((m.setCompileOnDemand false).prepared p)) := by
  have hprepare := (prepare_apply p (m.setCompileOnDemand false)).trans (if_pos hfits)
  have hdisciplined := h.disciplined _ hprepare
  have hkeepsTo : KeepsTo p ((m.setCompileOnDemand false).prepared p)
      (ReachesQuietly ((m.setCompileOnDemand false).prepared p)) := {
    reaches := ReachesQuietly.reaches
    keeps := hdisciplined.keeps
    returns := hdisciplined.returns
    functions := hdisciplined.functions
    steps := fun hreaches hlt hquiet hstep => hreaches.step hlt hquiet hstep }
  exact hkeepsTo.follows rfl h.textEnd h.apart hfunctions hc hfits

/-- A compiled run leaves the host as the compiled program does. -/
theorem host_runCompiled (hc : CompiledProgram.compile p m.calls.symbols.addresses = .ok c)
    (hfits : p.image.length ≤ m.cpu.memory.size) (fuel : Nat) :
    ((runCompiled fuel p).state m).host =
      ((Frame.runAll m.calls c.units [⟨fuel, c.main, c.start⟩]).state
        (m.prepared p).toGuest).host := by
  rw [Exec.state, Exec.state, runCompiled_apply hc hfits, CompiledProgram.run,
    Frame.runAll_single]
  cases c.main.runFrom m.calls c.units fuel c.start (m.prepared p).toGuest <;> rfl

theorem systemCallsOf_eq_state (view : Processor → α)
    (run : Exec (Machine (σ × CallRecord α)) Unit) (m : Machine σ) :
    systemCallsOf view run m = (run.state (m.recording view)).host.2 := by
  rw [systemCallsOf, Exec.state]
  cases run (m.recording view) <;> rfl

/-- A run that has recorded a system call has changed the host. -/
theorem host_ne_of_head? {view : Processor → α} {run : Exec (Machine (σ × CallRecord α)) Unit}
    {m : Machine σ} {first : Word × α} (h : (systemCallsOf view run m).head? = some first) :
    (run.state (m.recording view)).host ≠ (m.recording view).host := by
  intro hsame
  rw [systemCallsOf_eq_state, hsame] at h
  cases h

/-- The first system call that a run of the program makes, interpreted with the fuel `fuel` and
compiled with the fuel `fuel'`. Compiled code makes it with the registers and the memory that the
interpreter makes it with. The program counter is the return address for the interpreter, and where
the program begins for compiled code. After it the interpreter goes on at the program counter that
the action leaves, and compiled code behind the call. -/
structure FirstCall (p : Program) (c : CompiledProgram) (m : Machine σ) (fuel fuel' : Nat)
    (address : Word) (cpu : Processor) : Prop where
  interpreted : (systemCallsOf id (runProgram fuel p) (m.setCompileOnDemand false)).head? =
    some (address, cpu)
  compiled : (systemCallsOf id (runCompiled fuel' p) m).head? =
    some (address, { cpu with pc := BitVec.ofNat 32 p.entryPoint, ir := m.cpu.ir })
  meet : ∃ call, call.address = address ∧
    c.Meet ((m.setCompileOnDemand false).prepared p) call cpu
      (runProgram fuel p (m.setCompileOnDemand false))
      (c.run m.calls fuel' (m.prepared p).toGuest)

/-- Where the recorded runs meet, the runs have their first system call. -/
theorem firstCall_of_meet (hc : CompiledProgram.compile p m.calls.symbols.addresses = .ok c)
    (hfits : p.image.length ≤ m.cpu.memory.size) {fuel fuel' : Nat}
    {call : SystemCall (σ × CallRecord Processor)} {cpu : Processor}
    (h : c.Meet (((m.recording id).setCompileOnDemand false).prepared p) call cpu
      (resume fuel (((m.recording id).setCompileOnDemand false).prepared p))
      (Frame.runAll (m.calls.recording id) c.units [⟨fuel', c.main, c.start⟩]
        ((m.recording id).prepared p).toGuest)) :
    FirstCall p c m fuel fuel' call.address cpu := by
  obtain ⟨call₀, rfl, hmeet⟩ := h.forget rfl rfl
  obtain ⟨n, hresumes⟩ := h.resumes
  obtain ⟨fuel'', r, position, rest, -, hgoesOn⟩ := h.goesOn
  have hkeeps := m.calls.keepHost_recording id (call₀.address, cpu)
  have hkeeps' := m.calls.keepHost_recording id
    (call₀.address, { cpu with pc := BitVec.ofNat 32 p.entryPoint, ir := m.cpu.ir })
  -- Whatever comes after it, the record goes on beginning with the call where the runs meet.
  constructor
  case interpreted =>
    have hrun : runProgram fuel p ((m.setCompileOnDemand false).recording id) = _ :=
      (runProgram_of_fits (m := (m.setCompileOnDemand false).recording id) fuel hfits).trans
        hresumes
    rw [systemCallsOf_eq_state, Exec.state_congr hrun]
    exact (keepsHost_resume hkeeps n _ ⟨rfl, rfl⟩).2
  case compiled =>
    rw [systemCallsOf_eq_state, host_runCompiled (compile_recording hc id) hfits]
    show ((Frame.runAll (m.calls.recording id) c.units [⟨fuel', c.main, c.start⟩]).state
      ((m.recording id).prepared p).toGuest).host.2.head? = _
    rw [Exec.state_congr hgoesOn]
    exact Frame.keepsHost_runAll hkeeps' c.units _ _ rfl
  case meet =>
    have hrun := runProgram_of_fits (m := m.setCompileOnDemand false) fuel hfits
    rw [Frame.runAll_single] at hmeet
    exact ⟨call₀, rfl, hrun ▸ hmeet⟩

/-- **The first system call.** If an assembled program has a compiled form, and a run of it keeps to
the bounds of compiled code up to the first system call, then the interpreter makes a first system
call if and only if compiled code does. It is the same one, with the same registers and memory, but
only the interpreter has a program counter to show for it, and goes on where the action leaves
it. -/
theorem firstCall_ofLines {lines : List String} {seed : LabelTable}
    (h : Program.ofLines lines seed = .ok p) (m : Machine σ)
    (hc : CompiledProgram.compile p m.calls.symbols.addresses = .ok c)
    (hm : CompliantUntilCall p m) :
    (∀ (fuel : Nat) (address : Word) (cpu : Processor),
      (systemCallsOf id (runProgram fuel p) (m.setCompileOnDemand false)).head? =
        some (address, cpu) → FirstCall p c m fuel fuel address cpu) ∧
    ∀ (fuel' : Nat) (address : Word) (cpu' : Processor),
      (systemCallsOf id (runCompiled fuel' p) m).head? = some (address, cpu') →
        ∃ fuel cpu, FirstCall p c m fuel fuel' address cpu := by
  have hfunctions : ∀ x ∈ p.functions.extents, p.HasFunction x :=
    fun x hx => Program.hasFunction_of_mem h hx
  -- The runs of the machine that records its calls are compared, since there every call changes
  -- the host.
  have hc' := compile_recording hc (id (α := Processor))
  have hm' := hm.recording (id (α := Processor))
  by_cases hfits : p.image.length ≤ m.cpu.memory.size
  · have hfollows := hm'.follows hfunctions hc' hfits
    have hlock := lockstep_prepared hfollows .start hm.entryPoint
    constructor
    · intro fuel address cpu hfirst
      have hchanges := host_ne_of_head? hfirst
      rw [Exec.state_congr (runProgram_of_fits (m := (m.setCompileOnDemand false).recording id)
        fuel hfits)] at hchanges
      obtain ⟨call, cpu', hmeet⟩ := CompiledProgram.meet_of_resume hfollows (hlock fuel)
        (Frame.enough_single fuel c.main c.start) rfl ⟨rfl, rfl⟩ hchanges
      have hcall := firstCall_of_meet hc hfits hmeet
      obtain ⟨rfl, rfl⟩ : call.address = address ∧ cpu' = cpu := by
        simpa using hcall.interpreted.symm.trans hfirst
      exact hcall
    · intro fuel' address cpu' hfirst
      have hchanges := host_ne_of_head? hfirst
      rw [host_runCompiled hc' hfits] at hchanges
      obtain ⟨call, cpu, hmeet⟩ := CompiledProgram.meet_of_runAll hfollows (hlock fuel')
        (Nat.lt_succ_self _) rfl ⟨rfl, rfl⟩ hchanges
      have hcall := firstCall_of_meet hc hfits hmeet
      obtain ⟨rfl, -⟩ : call.address = address ∧ _ = cpu' := by
        simpa using hcall.compiled.symm.trans hfirst
      exact ⟨_, cpu, hcall⟩
  · constructor
    · intro fuel address cpu hfirst
      have hchanges := host_ne_of_head? hfirst
      rw [Exec.state_of_error (runProgram_of_lt (m := (m.setCompileOnDemand false).recording id)
        fuel hfits)] at hchanges
      exact absurd rfl hchanges
    · intro fuel' address cpu' hfirst
      have hchanges := host_ne_of_head? hfirst
      rw [Exec.state_of_error (runCompiled_of_lt (m := m.recording id) hfits fuel')] at hchanges
      exact absurd rfl hchanges

/-! ### Runs with a first system call -/

/-- The narrow machine with these system calls besides its own. -/
def narrowWith (calls : List (SystemCall (Array Byte))) : Machine (Array Byte) :=
  calls.foldl (fun m c => (m.addSystemCall? c).getD m) narrow

/-- An action that goes elsewhere. -/
def away : SystemCall (Array Byte) where
  name := "away"
  address := 4000#32
  action cpu host := ({ cpu with pc := 12#32 }, host)

/-- A function, and then a system call behind which the interpreter skips an instruction. -/
def callsAway : List String := [
  "main: call load",
  "      call away",
  "      movi r1, 1",
  "      movi r2, 2",
  "      br   done",
  "load: movi r4, 7",
  "      ret",
  "done: nop"]

/-- Both runs of `callsAway` have the first system call that the theorem speaks of. -/
theorem firstCall_ofLines_away :
    let m := narrowWith [away]
    ∃ p c, Program.ofLines callsAway (.ofSymbols m.calls.symbols) = .ok p ∧
      CompiledProgram.compile p m.calls.symbols.addresses = .ok c ∧ CompliantUntilCall p m ∧
      (∃ cpu, cpu.pc = 8#32 ∧ cpu.registers.read 4 = 7#32 ∧ FirstCall p c m 20 20 4000#32 cpu) ∧
      ∃ fuel cpu, FirstCall p c m fuel 20 4000#32 cpu := by
  intro m
  have haccepted : (Program.ofLines callsAway (.ofSymbols m.calls.symbols)).toOption.any fun p =>
      (CompiledProgram.compile p m.calls.symbols.addresses).toOption.any fun _ =>
      (systemCallsOf id (runProgram 20 p) (m.setCompileOnDemand false)).head?.any fun first =>
      (systemCallsOf id (runCompiled 20 p) m).head?.any fun first' =>
      decide (p.textEnd < 2 ^ 32 ∧ p.entryPoint % 4 = 0 ∧
        (m.calls.symbols.addresses.all fun address => !decide (p.IsEntry address)) ∧
        first.1 = 4000#32 ∧ first'.1 = 4000#32 ∧ first.2.pc = 8#32 ∧
        first.2.registers.read 4 = 7#32 ∧
        checkReached (keepsProgramAt ((m.setCompileOnDemand false).prepared p)) 20
          ((m.setCompileOnDemand false).prepared p) [] ∧
        checkReached (disciplinedAt p) 20 ((m.setCompileOnDemand false).prepared p) []) := by
    decide +kernel
  obtain ⟨p, h, hcompiles⟩ := any_toOption haccepted
  obtain ⟨c, hc, hcalls⟩ := any_toOption hcompiles
  obtain ⟨⟨address, cpu⟩, hfirst, hcalls'⟩ := (Option.any_eq_true _ _).1 hcalls
  obtain ⟨⟨address', cpu'⟩, hfirst', hp⟩ := (Option.any_eq_true _ _).1 hcalls'
  obtain ⟨htextEnd, hentryPoint, hapart, rfl, rfl, hpc, hload, hkeeps, hdisciplined⟩ :=
    of_decide_eq_true hp
  have hapart' : ∀ address ∈ m.calls.symbols.addresses, ¬p.IsEntry address := by
    intro address hmem
    simpa using List.all_eq_true.1 hapart address hmem
  have hm : CompliantUntilCall p m := .of_whole htextEnd hentryPoint hapart'
    (keepsProgramOf_of_check rfl hkeeps) (disciplinedOf_of_check rfl hdisciplined)
  obtain ⟨hinterpreted, hcompiled⟩ := firstCall_ofLines h m hc hm
  exact ⟨p, c, h, hc, hm, ⟨cpu, hpc, hload, hinterpreted _ _ _ hfirst⟩, hcompiled _ _ _ hfirst'⟩

/-! ### Where the first system calls differ -/

/-- An action that does nothing, so that all there is to a call of it is what it sees. -/
def peek : SystemCall (Array Byte) where
  name := "peek"
  address := 4000#32
  action cpu host := (cpu, host)

/-- The lines are a program of which this holds. It has a compiled form, no function of it has the
address of a system call, and both of its runs end. -/
def Shows (m : Machine (Array Byte)) (lines : List String) (P : Program → Prop) : Prop :=
  ∃ p c, Program.ofLines lines (.ofSymbols m.calls.symbols) = .ok p ∧
    CompiledProgram.compile p m.calls.symbols.addresses = .ok c ∧
    (∀ address ∈ m.calls.symbols.addresses, ¬p.IsEntry address) ∧
    Exec.Ends (runProgram 20 p (m.setCompileOnDemand false)) ∧ Exec.Ends (runCompiled 20 p m) ∧
    P p

theorem shows_of_check {m : Machine (Array Byte)} {lines : List String} {P : Program → Prop}
    [DecidablePred P]
    (h : (Program.ofLines lines (.ofSymbols m.calls.symbols)).toOption.any fun p =>
      (CompiledProgram.compile p m.calls.symbols.addresses).toOption.any fun _ =>
      decide ((m.calls.symbols.addresses.all fun address => !decide (p.IsEntry address)) ∧
        Exec.Ends (runProgram 20 p (m.setCompileOnDemand false)) ∧ Exec.Ends (runCompiled 20 p m) ∧
        P p)) : Shows m lines P := by
  obtain ⟨p, hlines, hcompiles⟩ := any_toOption h
  obtain ⟨c, hc, hp⟩ := any_toOption hcompiles
  obtain ⟨hapart, hends⟩ := of_decide_eq_true hp
  refine ⟨p, c, hlines, hc, fun address hmem => ?_, hends⟩
  simpa using List.all_eq_true.1 hapart address hmem

/-- What the first system calls of the two runs see of the processor. -/
def firstSeen (view : Processor → Word) (m : Machine (Array Byte)) (p : Program) :
    Option (Word × Word) × Option (Word × Word) :=
  ((systemCallsOf view (runProgram 20 p) (m.setCompileOnDemand false)).head?,
    (systemCallsOf view (runCompiled 20 p) m).head?)

/-- What the two runs leave in a register. -/
def registerAfter (r : Register) (m : Machine (Array Byte)) (p : Program) : Word × Word :=
  (((runProgram 20 p).state (m.setCompileOnDemand false)).cpu.registers.read r,
    ((runCompiled 20 p).state m).cpu.registers.read r)

/-- The two runs of a program do not come to their first system call with the same processor, and do
not both go on where it leads. The program counter that is seen differs, and compiled code does not
go where the action does. So does a register that a function sets, if the function is not called or
returns elsewhere, and one that a word sets which the program has written over another. If the
program begins in the middle of an instruction, then only compiled code makes a system call. -/
theorem firstCall_differs :
    Shows (narrowWith [peek]) ["main: call peek"]
      (fun p => firstSeen (·.pc) (narrowWith [peek]) p =
        (some (4000#32, 4#32), some (4000#32, 0#32))) ∧
    Shows (narrowWith [away]) callsAway
      (fun p => registerAfter 1 (narrowWith [away]) p = (0#32, 1#32)) ∧
    Shows (narrowWith [peek]) ["main: movi r31, 12", "f: addi r4, r4, 7", "ret", "call peek",
        "br end", "call f", "end: nop"]
      (fun p => firstSeen (·.registers.read 4) (narrowWith [peek]) p =
        (some (4000#32, 7#32), some (4000#32, 0#32))) ∧
    Shows (narrowWith [peek]) ["main: call f", "movi r4, 1", "call peek", "br end",
        "f: movi r31, 8", "ret", "end: nop"]
      (fun p => firstSeen (·.registers.read 4) (narrowWith [peek]) p =
        (some (4000#32, 0#32), some (4000#32, 1#32))) ∧
    Shows (narrowWith [peek]) ["main: ldw r1, 0(r0)", "stw r1, 8(r0)", "movi r4, 1", "call peek"]
      (fun p => firstSeen (·.registers.read 4) (narrowWith [peek]) p =
        (some (4000#32, 0#32), some (4000#32, 1#32))) ∧
    Shows (narrowWith [{ peek with name := "main", address := 2#32 }, peek]) ["call peek"]
      (fun p => firstSeen (·.pc)
        (narrowWith [{ peek with name := "main", address := 2#32 }, peek]) p =
        (none, some (4000#32, 2#32))) :=
  ⟨shows_of_check (by decide +kernel), shows_of_check (by decide +kernel),
    shows_of_check (by decide +kernel), shows_of_check (by decide +kernel),
    shows_of_check (by decide +kernel), shows_of_check (by decide +kernel)⟩

end Machine

end Risc32
