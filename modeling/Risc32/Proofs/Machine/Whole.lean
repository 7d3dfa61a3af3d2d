import Risc32.Proofs.Machine.Lockstep

/-!
# A program compiled as a whole does what the interpreter does

A run of the interpreter that ends is followed by the compiled program to the same end
(`CompiledProgram.runAll_alike`). The induction is on the fuel of the interpreter, of which every
frame of compiled code has at least as much: a callee begins with what its caller has left, and the
caller goes on with that after it. System calls keep the two in lockstep because they are detached.
-/

set_option autoImplicit false

namespace Risc32

variable {σ : Type}

namespace CompiledProgram

open Machine

/-! ## The two runs -/

/-- What comes of the interpreter and of compiled code. The interpreter ends where the program does,
or both stop. -/
inductive RunsAlike (m₀ : Machine σ) :
    EStateM.Result Halt (Machine σ) Unit → EStateM.Result Halt (Guest σ) Unit → Prop where
  | finished {m : Machine σ} {g : Guest σ} (pc : m.cpu.pc = m₀.programEnd)
      (data : m.cpu.SameData g.cpu) (host : g.host = m.host) :
      RunsAlike m₀ (.ok () m) (.ok () g)
  | stopped {halt : Halt} {m : Machine σ} {g : Guest σ} (alike : m.toGuest.Alike g) :
      RunsAlike m₀ (.error halt m) (.error halt g)

variable {c : CompiledProgram} {p : Program} {m₀ m : Machine σ} {g : Guest σ}

/-- A system call that is detached does the same to both. -/
theorem Lockstep.perform {R : Machine σ → List Word → Prop} {frames : List Frame}
    (hlock : Lockstep c p R m frames g) {t : SystemCalls σ} (hdetached : t.Detached)
    (w address : Word) :
    let m' := t.perform (m.cpu.pc + 4) address (m.fetched w).toGuest
    let g' := t.perform (m.cpu.pc + 4) address g
    m'.cpu.pc = m.cpu.pc + 4 ∧ m'.cpu.SameData g'.cpu ∧ g'.host = m'.host := by
  have hfetched : (m.fetched w).cpu.SameData g.cpu := ⟨hlock.data.registers, hlock.data.memory⟩
  exact hdetached.perform (m.cpu.pc + 4) address (g := (m.fetched w).toGuest) hfetched hlock.host

/-- A run of the interpreter that ends is followed to its end. -/
theorem runAll_alike (h : c.Follows p m₀ (Reaches m₀)) (hdetached : m₀.calls.Detached) {n : Nat}
    {frames : List Frame} (hlock : Lockstep c p (Reaches m₀) m frames g)
    (henough : Frame.Enough n frames) (hends : Exec.Ends (resume n m)) :
    RunsAlike m₀ (resume n m) (Frame.runAll m₀.calls c.units frames g) := by
  induction n generalizing m frames g with
  | zero => exact absurd hends (Exec.not_ends_outOfFuel _)
  | succ n ih =>
    obtain ⟨fuel, r, position, rest, rfl⟩ := hlock.exists_succ henough
    cases hlock.advances h with
    | goes lockstep succeeds resumes runs host control =>
      rw [resumes n] at hends ⊢
      rw [runs]
      exact ih lockstep (succeeds.enough henough) hends
    | @calls address w active reaches running contains system call steps stays goesOn =>
      -- A detached action does not see the program counter and leaves it behind the call, so the
      -- two are in lockstep again.
      have hreaches := reaches.step running (steps 0)
      rw [stays] at hreaches
      have hcalls : (m.fetched w).calls = m₀.calls := reaches.settings.calls
      obtain ⟨hpc, hdata, hhost⟩ := hlock.perform hdetached w address
      rw [resume_of_step running (steps n)] at hends ⊢
      rw [Frame.runAll_of_next fuel rest call (Step.run_callSystem _ _ _ g)]
      simp only [enter, hcalls] at hreaches hends ⊢
      exact ih (goesOn hreaches hpc hdata hhost) ((Frame.Succeeds.went _ _).enough henough) hends
    | finished pc ends runs =>
      rw [ends n, runs]
      exact .finished pc hlock.data hlock.host
    | stopped stops runs alike host =>
      rw [stops n, runs]
      exact .stopped alike

end CompiledProgram

/-! ## Runs of a program -/

namespace Machine

/-- The machine runs the program, with nothing compiled, in a way that the compiled program can
follow. No instruction stands where a word cannot point, the program begins at an instruction, and
no system call has the address of a function. System calls are detached, and the run is disciplined
and leaves the program alone. -/
structure Compliant (p : Program) (m : Machine σ) : Prop where
  textEnd : p.textEnd < 2 ^ 32
  entryPoint : p.entryPoint % 4 = 0
  apart : ∀ address ∈ m.calls.symbols.addresses, ¬p.IsEntry address
  detached : m.calls.Detached
  keeps : KeepsProgramOf p (m.setCompileOnDemand false)
  disciplined : DisciplinedOf p (m.setCompileOnDemand false)

theorem Compliant.recording {α : Type} {p : Program} {m : Machine σ} (h : Compliant p m)
    {view : Processor → α}
    (hview : ∀ {cpu cpu' : Processor}, cpu.SameData cpu' → view cpu' = view cpu) :
    Compliant p (m.recording view) where
  textEnd := h.textEnd
  entryPoint := h.entryPoint
  apart := by
    show ∀ address ∈ (m.calls.recording view).symbols.addresses, ¬p.IsEntry address
    rw [SystemCalls.symbols_recording]
    exact h.apart
  detached := h.detached.recording hview
  keeps := h.keeps.recording view
  disciplined := h.disciplined.recording view

/-- The compiled program of a machine that records its system calls. -/
theorem compile_recording {α : Type} {p : Program} {m : Machine σ} {c : CompiledProgram}
    (hc : CompiledProgram.compile p m.calls.symbols.addresses = .ok c) (view : Processor → α) :
    CompiledProgram.compile p (m.recording view).calls.symbols.addresses = .ok c := by
  show CompiledProgram.compile p (m.calls.recording view).symbols.addresses = .ok c
  rw [SystemCalls.symbols_recording, hc]

/-- A program that fits runs compiled from its beginning, and in the end the program counter is
where the program ends. -/
theorem runCompiled_apply {p : Program} {m : Machine σ} {c : CompiledProgram}
    (hc : CompiledProgram.compile p m.calls.symbols.addresses = .ok c)
    (hfits : p.image.length ≤ m.cpu.memory.size) (fuel : Nat) :
    runCompiled fuel p m =
      match c.run m.calls fuel (m.prepared p).toGuest with
      | .ok _ g => .ok () { m.prepared p with
          cpu := { g.cpu with pc := (m.prepared p).programEnd }, host := g.host }
      | .error halt g => .error halt { m.prepared p with toGuest := g } := by
  have hcalls : (m.loaded p).calls = m.calls := rfl
  simp only [runCompiled, load_apply, if_pos hfits, Exec.bind_apply, Exec.get_apply, hcalls, hc,
    restart, stop, setPc, onProcessor_apply, Exec.modify_apply, onGuest_apply]
  cases hrun : c.run m.calls fuel (m.prepared p).toGuest <;>
  · change c.run m.calls fuel ⟨{ (m.loaded p).cpu with pc := (m.loaded p).entryPoint },
      (m.loaded p).host⟩ = _ at hrun
    rw [hrun]
    rfl

theorem runCompiled_of_lt {p : Program} {m : Machine σ}
    (hfits : ¬p.image.length ≤ m.cpu.memory.size) (fuel : Nat) : runCompiled fuel p m =
      .error (.fault (.outOfBounds ⟨"load", Program.textStart⟩ Program.textStart)) m := by
  simp [runCompiled, load_apply, hfits]

/-- The compiled program can follow the whole run of a compliant machine. -/
theorem Compliant.follows {p : Program} {m : Machine σ} {c : CompiledProgram}
    (h : Compliant p m) (hfunctions : ∀ x ∈ p.functions.extents, p.HasFunction x)
    (hc : CompiledProgram.compile p m.calls.symbols.addresses = .ok c)
    (hfits : p.image.length ≤ m.cpu.memory.size) :
    c.Follows p ((m.setCompileOnDemand false).prepared p)
      (Reaches ((m.setCompileOnDemand false).prepared p)) := by
  have hprepare := (prepare_apply p (m.setCompileOnDemand false)).trans (if_pos hfits)
  have hdisciplined := h.disciplined _ hprepare
  have hkeepsTo : KeepsTo p ((m.setCompileOnDemand false).prepared p)
      (Reaches ((m.setCompileOnDemand false).prepared p)) := {
    reaches := id
    keeps := fun hreaches => h.keeps _ hprepare _ _ hreaches
    returns := hdisciplined.returns
    functions := hdisciplined.functions
    steps := fun hreaches hlt _ hstep => hreaches.step hlt hstep }
  exact hkeepsTo.follows rfl h.textEnd h.apart hfunctions hc hfits

theorem runCompiled_alike {p : Program} {m : Machine σ} {c : CompiledProgram}
    (h : Compliant p m) (hfunctions : ∀ x ∈ p.functions.extents, p.HasFunction x)
    (hc : CompiledProgram.compile p m.calls.symbols.addresses = .ok c) {fuel : Nat}
    (hends : Exec.Ends (runProgram fuel p (m.setCompileOnDemand false))) :
    SameOutcome (runProgram fuel p (m.setCompileOnDemand false)) (runCompiled fuel p m) := by
  by_cases hfits : p.image.length ≤ m.cpu.memory.size
  · rw [runProgram_of_fits (m := m.setCompileOnDemand false) fuel hfits] at hends ⊢
    rw [runCompiled_apply hc hfits]
    have hfollows := h.follows hfunctions hc hfits
    have hmain := CompiledProgram.runAll_alike hfollows h.detached
      (lockstep_prepared hfollows .start h.entryPoint fuel) (Frame.enough_single _ _ _) hends
    rw [Frame.runAll_single] at hmain
    change CompiledProgram.RunsAlike _ _ (c.run m.calls fuel (m.prepared p).toGuest) at hmain
    generalize resume fuel ((m.setCompileOnDemand false).prepared p) = interpreted at hmain ⊢
    generalize c.run m.calls fuel (m.prepared p).toGuest = outcome at hmain ⊢
    cases hmain with
    | @finished m' g pc data host =>
      have halike : m'.toGuest.Alike
          ⟨{ g.cpu with pc := (m.prepared p).programEnd }, g.host⟩ :=
        ⟨⟨data.registers, data.memory⟩, pc.symm, host⟩
      exact @SameOutcome.ok σ m' { m.prepared p with
        cpu := { g.cpu with pc := (m.prepared p).programEnd }, host := g.host } halike
    | @stopped halt m' g alike =>
      exact @SameOutcome.error σ halt m' { m.prepared p with toGuest := g } alike
  · rw [runProgram_of_lt (m := m.setCompileOnDemand false) fuel hfits, runCompiled_of_lt hfits]
    exact .error (.refl _)

/-- **A compiled program does what the interpreter does.** If an assembled program has a compiled
form and the machine runs it to an end without leaving the bounds that compiled code has, then the
compiled program comes to the same end and makes the same system calls, each of which sees the same
registers and memory. -/
theorem runCompiled_ofLines {lines : List String} {seed : LabelTable} {p : Program}
    (h : Program.ofLines lines seed = .ok p) (m : Machine σ) {c : CompiledProgram}
    (hc : CompiledProgram.compile p m.calls.symbols.addresses = .ok c) (hm : Compliant p m)
    {fuel : Nat} (hends : Exec.Ends (runProgram fuel p (m.setCompileOnDemand false))) :
    Exec.Ends (runCompiled fuel p m) ∧
      SameOutcome (runProgram fuel p (m.setCompileOnDemand false)) (runCompiled fuel p m) ∧
      systemCallsOf (fun cpu => (cpu.registers, cpu.memory)) (runCompiled fuel p) m =
        systemCallsOf (fun cpu => (cpu.registers, cpu.memory)) (runProgram fuel p)
          (m.setCompileOnDemand false) := by
  have hfunctions : ∀ x ∈ p.functions.extents, p.HasFunction x :=
    fun x hx => Program.hasFunction_of_mem h hx
  have hsame := runCompiled_alike hm hfunctions hc hends
  refine ⟨hsame.ends hends, hsame, ?_⟩
  let view := fun cpu : Processor => (cpu.registers, cpu.memory)
  have hview : ∀ {cpu cpu' : Processor}, cpu.SameData cpu' → view cpu' = view cpu :=
    fun hdata => Prod.ext hdata.registers hdata.memory
  have hc' := compile_recording hc view
  have hends' : Exec.Ends (runProgram fuel p ((m.recording view).setCompileOnDemand false)) :=
    (ends_runProgram_recording view fuel p (m.setCompileOnDemand false)).2 hends
  exact systemCallsOf_eq (runCompiled_alike (hm.recording hview) hfunctions hc' hends')

/-- A function that calls another one, and a call of the host. -/
def nested : List String := [
  "main:  call outer",
  "       call putchar",
  "       br   done",
  "outer: stw  r31, 60(r0)",
  "       call inner",
  "       ldw  r31, 60(r0)",
  "       ret",
  "inner: addi r4, r4, 33",
  "       ret",
  "done:  nop"]

/-- A machine with just enough memory for `nested`. -/
def narrow : Machine (Array Byte) :=
  .new { memorySize := 64 } #[]

/-- The run of `nested` is one that the theorem speaks of. -/
theorem runCompiled_ofLines_nested :
    ∃ p c, Program.ofLines nested (.ofSymbols narrow.calls.symbols) = .ok p ∧
      CompiledProgram.compile p narrow.calls.symbols.addresses = .ok c ∧ Compliant p narrow ∧
      Exec.Ends (runProgram 20 p (narrow.setCompileOnDemand false)) ∧
      SameOutcome (runProgram 20 p (narrow.setCompileOnDemand false))
        (runCompiled 20 p narrow) := by
  have haccepted : (Program.ofLines nested (.ofSymbols narrow.calls.symbols)).toOption.any fun p =>
      (CompiledProgram.compile p narrow.calls.symbols.addresses).toOption.any fun _ =>
      decide (p.textEnd < 2 ^ 32 ∧ p.entryPoint % 4 = 0 ∧
        (narrow.calls.symbols.addresses.all fun address => !decide (p.IsEntry address)) ∧
        Exec.Ends (runProgram 20 p (narrow.setCompileOnDemand false)) ∧
        checkReached (keepsProgramAt ((narrow.setCompileOnDemand false).prepared p)) 20
          ((narrow.setCompileOnDemand false).prepared p) [] ∧
        checkReached (disciplinedAt p) 20 ((narrow.setCompileOnDemand false).prepared p) []) := by
    decide +kernel
  obtain ⟨p, h, hcompiles⟩ := any_toOption haccepted
  obtain ⟨c, hc, hp⟩ := any_toOption hcompiles
  obtain ⟨htextEnd, hentryPoint, hapart, hends, hkeeps, hdisciplined⟩ := of_decide_eq_true hp
  have hapart' : ∀ address ∈ narrow.calls.symbols.addresses, ¬p.IsEntry address := by
    intro address hmem
    simpa using List.all_eq_true.1 hapart address hmem
  have hm : Compliant p narrow := ⟨htextEnd, hentryPoint, hapart', SystemCalls.detached_defaults,
    keepsProgramOf_of_check rfl hkeeps, disciplinedOf_of_check rfl hdisciplined⟩
  exact ⟨p, c, h, hc, hm, hends, (runCompiled_ofLines h narrow hc hm hends).2.1⟩

end Machine

end Risc32
