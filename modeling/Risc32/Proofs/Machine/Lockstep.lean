import Risc32.Proofs.Compiled.Frames
import Risc32.Proofs.Machine.Discipline

/-!
# The interpreter and compiled code side by side

The interpreter returns by the return address register, compiled code by the routine that called.
The two are compared along the calls that are active: the main routine runs while none is, the
routine of a function runs while its call is the innermost, and each of the others has a frame that
waits behind the call (`CompiledProgram.Waits`). One instruction of the interpreter is then one step
of compiled code, for as long as the run keeps within what compiled code takes for granted. That is
a set of machines here (`CompiledProgram.Follows`), so that it may be a whole run or the beginning
of one.

`Lockstep.advances` says what comes of one instruction. A system call is left open by it, since an
action can do anything: whoever runs the two further has to say why they still agree after it.
-/

set_option autoImplicit false

namespace Risc32

variable {σ : Type}

/-! ## Steps of calls and returns -/

namespace Machine

theorem step_of_call (fuel : Nat) {m : Machine σ} {w : Word} {op : Opcode} {f : JumpForm}
    (hread : m.cpu.memory.readWord ⟨"fetch", m.cpu.pc⟩ m.cpu.pc = .ok w)
    (hdecode : Instruction.decode w = some (.jump op f))
    (hoff : m.config.compileOnDemand = false) :
    step fuel m = .ok () ((m.fetched w).enter (m.calls.callee (f.target (m.cpu.pc + 4)))) := by
  have hfetched : Instruction.decode (m.fetched w).cpu.ir = some (.jump op f) := hdecode
  have hoff' : (m.fetched w).config.compileOnDemand = false := hoff
  rw [step_of_ok fuel hread, execute_of_target fuel hfetched rfl,
    call_callee fuel _ hoff' (f.aligned_target _)]
  rfl

theorem step_of_return (fuel : Nat) {m : Machine σ} {w : Word} {op : ExtendedOpcode}
    {f : RegisterForm} (hread : m.cpu.memory.readWord ⟨"fetch", m.cpu.pc⟩ m.cpu.pc = .ok w)
    (hdecode : Instruction.decode w = some (.register op f)) (hrole : op.role = .ret)
    (haligned : Word.Aligned (m.cpu.registers.read .returnAddress)) :
    step fuel m = .ok () { m.fetched w with
      cpu := { (m.fetched w).cpu with pc := m.cpu.registers.read .returnAddress } } := by
  have htarget : (Instruction.register op f).target? (m.fetched w).cpu = none := by
    simp [Instruction.target?, hrole]
  have hact : (Instruction.register op f).act (m.fetched w).cpu = .ok ()
      { (m.fetched w).cpu with pc := m.cpu.registers.read .returnAddress } := by
    simp only [Instruction.act, hrole, Exec.bind_apply, Exec.get_apply, Processor.jump_apply]
    exact if_pos haligned
  rw [step_of_act fuel hread hdecode htarget, hact]
  rfl

/-- The address of the system call that the instruction at the program counter makes. -/
def systemCall? (m : Machine σ) : Option Word :=
  m.instruction?.bind fun i =>
    (i.target? { m.cpu with pc := m.cpu.pc + 4 }).filter m.calls.contains

theorem systemCall?_of_act {m : Machine σ} {i : Instruction} (h : m.instruction? = some i)
    (ht : i.target? { m.cpu with pc := m.cpu.pc + 4 } = none) : m.systemCall? = none := by
  rw [systemCall?, h, Option.bind_some, ht]
  rfl

theorem systemCall?_of_call {m : Machine σ} {i : Instruction} {target : Word}
    (h : m.instruction? = some i)
    (ht : i.target? { m.cpu with pc := m.cpu.pc + 4 } = some target) :
    m.systemCall? = if m.calls.contains target then some target else none := by
  rw [systemCall?, h, Option.bind_some, ht, Option.filter_some]

end Machine

/-! ## Steps and the program counter -/

/-- The processors have the same program counter, and the same word was fetched last. -/
structure Processor.SameControl (cpu cpu' : Processor) : Prop where
  pc : cpu'.pc = cpu.pc
  ir : cpu'.ir = cpu.ir

theorem Processor.SameControl.trans {cpu cpu' cpu'' : Processor} (h : cpu.SameControl cpu')
    (h' : cpu'.SameControl cpu'') : cpu.SameControl cpu'' :=
  ⟨h'.pc.trans h.pc, h'.ir.trans h.ir⟩

/-- A step that goes on in compiled code has no use for the program counter. -/
theorem Renders.sameControl {s : Surroundings} {index : Nat} {goes : Nat → Nat → Prop}
    {i : Instruction} {st : Step} (h : Renders s index goes i st) {cpu : Processor}
    (hcall : i.target? cpu = none) {calls : SystemCalls σ} {flow : Successor} {g g' : Guest σ}
    (hrun : st.run calls g = .ok flow g') (hflow : flow ≠ .leave) :
    g.cpu.SameControl g'.cpu := by
  -- Only a fault and a return to the interpreter set it, and after those nothing goes on here.
  cases h with
  | compute role =>
    cases hrun
    exact ⟨rfl, rfl⟩
  | shift role =>
    cases hrun
    exact ⟨rfl, rfl⟩
  | computeWith role =>
    cases hrun
    exact ⟨rfl, rfl⟩
  | access role =>
    simp only [Step.run, Guest.onProcessor_apply, Exec.bind_apply, Exec.get_apply,
      Step.faultingAt] at hrun
    rcases Processor.access_cases _ _ _ _ (Processor.SameData.refl g.cpu) with
      ⟨reason, haccess, -⟩ | ⟨registers, memory, haccess, -⟩
    · rw [haccess] at hrun
      cases hrun
    · rw [haccess] at hrun
      cases hrun
      exact ⟨rfl, rfl⟩
  | branch role aligned distance hgoes =>
    cases hrun
    exact ⟨rfl, rfl⟩
  | @misalignedBranch op f condition role misaligned =>
    simp only [Step.run, Guest.onProcessor_apply, Exec.bind_apply, Exec.get_apply] at hrun
    by_cases htaken : condition.holds (g.cpu.register f.a) (g.cpu.register f.b)
    · simp only [htaken, if_true] at hrun
      cases hrun
    · simp only [htaken] at hrun
      cases hrun
      exact ⟨rfl, rfl⟩
  | returnTo role exit =>
    simp only [Step.run, Guest.onProcessor_apply, Exec.bind_apply, Exec.get_apply,
      Exec.modify_apply, Processor.jump_apply] at hrun
    by_cases ha : Word.Aligned (g.cpu.registers.read .returnAddress)
    · rw [if_pos ha] at hrun
      cases hrun
      exact absurd rfl hflow
    · rw [if_neg ha] at hrun
      cases hrun
  | leave role exit =>
    cases hrun
    exact absurd rfl hflow
  | callUnit linkage found => cases hcall
  | callSystem linkage absent found => cases hcall

/-! ## Places -/

namespace CompiledProgram

open Machine

/-- A routine that is running, with the listing it renders, the index bound to its end and the
return addresses of the active calls. The main routine runs while no call is active. -/
inductive Running (c : CompiledProgram) (p : Program) :
    Routine → Listing → Option Nat → List Word → Prop where
  | main : Running c p c.main (outsideFrom p.ranges 0 p.words) (some p.words.length) []
  | unit {u : Nat} {range : IndexRange} {r : Routine} {back : Word} {active : List Word}
      (function : p.ranges[u]? = some range) (compiled : c.units[u]? = some r)
      (aligned : Word.Aligned back) :
      Running c p r ((range.slice p.words).zipIdx range.first) none (back :: active)

/-- The active calls have frames that wait for them, each with the step behind its call. -/
inductive Waits (c : CompiledProgram) (p : Program) : List Frame → List Word → Prop where
  | none : Waits c p [] []
  | behind {fuel : Nat} {r : Routine} {code : Listing} {stop : Option Nat} {active : List Word}
      {position index : Nat} {w : Word} {i : Instruction} {rest : List Frame}
      (running : Running c p r code stop active) (word : code[position]? = some (w, index))
      (decode : Instruction.decode w = some i) (stays : i.isReturn = false)
      (waits : Waits c p rest active) :
      Waits c p (⟨fuel, r, position + 1⟩ :: rest)
        (codeAddress Program.textStart (index + 1) :: active)

/-- The compiled program can follow the interpreter from `m₀` on, as long as `R` holds of where the
interpreter is and of the calls that are active there. Nothing is compiled on demand, the program is
in memory, every return goes back behind the innermost call, functions are entered by calls, and
none of them has the address of a system call. -/
structure Follows (c : CompiledProgram) (p : Program) (m₀ : Machine σ)
    (R : Machine σ → List Word → Prop) : Prop where
  renders : c.Renders p m₀.calls.symbols.addresses
  functions : ∀ x ∈ p.functions.extents, p.HasFunction x
  apart : ∀ address ∈ m₀.calls.symbols.addresses, ¬p.IsEntry address
  compileOnDemand : m₀.config.compileOnDemand = false
  programEnd : m₀.programEnd.toNat = p.textEnd
  guest : ∀ {m : Machine σ} {active : List Word}, R m active → m = m₀.withGuest m.toGuest
  holds : ∀ {m : Machine σ} {active : List Word}, R m active → m.cpu.memory.Holds 0 p.words
  returns : ∀ {m : Machine σ} {active : List Word} {i : Instruction}, R m active →
    m.cpu.pc < m.programEnd → m.instruction? = some i → i.isReturn →
    active.head? = some (m.cpu.registers.read .returnAddress)
  outside : ∀ {m : Machine σ}, R m [] → ¬p.InFunction m.cpu.pc
  steps : ∀ {m m' : Machine σ} {active : List Word}, R m active → m.cpu.pc < m.programEnd →
    m.systemCall? = none → step 0 m = .ok () m' → R m' (m.activeAfter active)

/-- The interpreter has come to the instruction with the index, and the guest of compiled code has
the same data there. -/
structure At (R : Machine σ → List Word → Prop) (m : Machine σ) (g : Guest σ)
    (active : List Word) (index : Nat) : Prop where
  reaches : R m active
  pc : m.cpu.pc = codeAddress Program.textStart index
  data : m.cpu.SameData g.cpu
  host : g.host = m.host

/-- Compiled code has come to the step for the instruction that the interpreter has come to, and its
frames are those of the active calls. -/
inductive Lockstep (c : CompiledProgram) (p : Program) (R : Machine σ → List Word → Prop) :
    Machine σ → List Frame → Guest σ → Prop where
  | intro {m : Machine σ} {g : Guest σ} {fuel : Nat} {r : Routine} {code : Listing}
      {stop : Option Nat} {active : List Word} {position index : Nat} {rest : List Frame}
      (running : Running c p r code stop active) (place : code.Position stop index position)
      (at_place : At R m g active index) (waits : Waits c p rest active) :
      Lockstep c p R m (⟨fuel, r, position⟩ :: rest) g

/-- What comes of one instruction and the step of the topmost frame. -/
inductive Advances (c : CompiledProgram) (p : Program) (m₀ : Machine σ)
    (R : Machine σ → List Word → Prop) (m : Machine σ) (fuel : Nat) (r : Routine)
    (position : Nat) (rest : List Frame) (g : Guest σ) : Prop where
  /-- Both go on, and no system call was made. -/
  | goes {m' : Machine σ} {frames : List Frame} {g' : Guest σ}
      (lockstep : Lockstep c p R m' frames g') (succeeds : Frame.Succeeds fuel rest frames)
      (resumes : ∀ n, resume (n + 1) m = resume n m')
      (runs : Frame.runAll m₀.calls c.units (⟨fuel + 1, r, position⟩ :: rest) g =
        Frame.runAll m₀.calls c.units frames g')
      (host : g'.host = g.host) (control : g.cpu.SameControl g'.cpu)
  /-- Both make the same system call. They are in lockstep after it if it leads to where the next
  instruction is, with the same data. -/
  | calls {address w : Word} {active : List Word} (reaches : R m active)
      (running : m.cpu.pc < m.programEnd) (contains : m₀.calls.contains address)
      (system : m.systemCall? = some address)
      (call : r.steps[position]? = some (.callSystem (m.cpu.pc + 4) address))
      (steps : ∀ n, step n m = .ok () ((m.fetched w).enter (.system address)))
      (stays : m.activeAfter active = active)
      (goesOn : ∀ {m' : Machine σ} {g' : Guest σ}, R m' active → m'.cpu.pc = m.cpu.pc + 4 →
        m'.cpu.SameData g'.cpu → g'.host = m'.host →
        Lockstep c p R m' (⟨fuel, r, position + 1⟩ :: rest) g')
  /-- The program is over. -/
  | finished (pc : m.cpu.pc = m₀.programEnd) (ends : ∀ n, resume (n + 1) m = .ok () m)
      (runs : Frame.runAll m₀.calls c.units (⟨fuel + 1, r, position⟩ :: rest) g = .ok () g)
  /-- Both stop with the same fault. -/
  | stopped {halt : Halt} {m' : Machine σ} {g' : Guest σ}
      (stops : ∀ n, resume (n + 1) m = .error halt m')
      (runs : Frame.runAll m₀.calls c.units (⟨fuel + 1, r, position⟩ :: rest) g = .error halt g')
      (alike : m'.toGuest.Alike g') (host : m'.host = m.host)

variable {c : CompiledProgram} {p : Program} {m₀ m : Machine σ}
  {R : Machine σ → List Word → Prop} {r : Routine} {code : Listing} {stop : Option Nat}
  {active : List Word} {position index : Nat} {g : Guest σ} {w : Word} {i : Instruction}
  {rest : List Frame}

theorem Running.part (h : c.Running p r code stop active) : c.Part p r code stop := by
  cases h with
  | main => exact .main
  | unit function compiled aligned => exact .unit function compiled

namespace Follows

/-! ## At one place -/

/-- The addresses of instructions do not wrap around. -/
theorem toNat_codeAddress (h : c.Follows p m₀ R) (hindex : index ≤ p.words.length) :
    (codeAddress Program.textStart index).toNat = 4 * index := by
  have hlt : p.textEnd < 2 ^ 32 := by
    rw [← h.programEnd]
    exact m₀.programEnd.isLt
  have hend : p.textEnd = 4 * p.words.length := rfl
  rw [Program.codeAddress_textStart, BitVec.toNat_ofNat]
  omega

theorem codeAddress_length (h : c.Follows p m₀ R) :
    codeAddress Program.textStart p.words.length = m₀.programEnd :=
  BitVec.eq_of_toNat_eq ((h.toNat_codeAddress (Nat.le_refl _)).trans h.programEnd.symm)

theorem settings (h : c.Follows p m₀ R) (hreaches : R m active) : SameSettings m₀ m := by
  rw [h.guest hreaches]
  exact settings_withGuest m₀ m.toGuest

theorem fetches (h : c.Follows p m₀ R) (hreaches : R m active)
    (hpc : m.cpu.pc = codeAddress Program.textStart index) (hw : p.words[index]? = some w) :
    m.cpu.pc < m.programEnd ∧ m.cpu.memory.readWord ⟨"fetch", m.cpu.pc⟩ m.cpu.pc = .ok w := by
  have hindex : index < p.words.length := (List.getElem?_eq_some_iff.1 hw).1
  have hend : p.textEnd = 4 * p.words.length := rfl
  have hnat : m.cpu.pc.toNat = 4 * index := by
    rw [hpc, h.toNat_codeAddress (Nat.le_of_lt hindex)]
  refine ⟨?_, (h.holds hreaches).readWord hw (by omega) rfl _⟩
  rw [BitVec.lt_def, (h.settings hreaches).programEnd, h.programEnd, hnat]
  omega

/-- While no call is active, the interpreter is where the main routine has a step. -/
theorem outside_ranges (h : c.Follows p m₀ R) (hreaches : R m [])
    (hpc : m.cpu.pc = codeAddress Program.textStart index) :
    ¬p.ranges.any (·.contains index) := by
  intro hin
  obtain ⟨range, hrange, hfirst, hlast⟩ := IndexRange.any_contains_iff.1 hin
  obtain ⟨x, hx, hentry, hsize, -, hstop, -⟩ := Program.range_of_mem h.functions hrange
  refine h.outside hreaches ⟨x, hx, ?_⟩
  rw [hpc, h.toNat_codeAddress (by omega)]
  omega

/-- The interpreter comes to the next instruction, and compiled code to the next step. -/
theorem next (h : c.Follows p m₀ R) (hrunning : c.Running p r code stop active)
    (hword : code[position]? = some (w, index)) (hdecode : Instruction.decode w = some i)
    (hstays : i.isReturn = false) (hreaches : R m active)
    (hpc : m.cpu.pc = codeAddress Program.textStart (index + 1)) :
    code.Position stop (index + 1) (position + 1) := by
  refine hrunning.part.next h.functions hword hdecode hstays ?_
  intro hmain
  -- Only the main routine has gaps, and it runs while no call is active.
  cases hrunning with
  | main => exact h.outside_ranges hreaches hpc
  | unit function compiled aligned => cases hmain

theorem contains_of_isEntry (h : c.Follows p m₀ R) {target : Word} (hentry : p.IsEntry target) :
    m₀.calls.contains target = false := by
  rw [← Bool.not_eq_true, m₀.calls.contains_iff]
  exact fun hmem => h.apart target hmem hentry

/-- A step that makes no system call leads on. -/
theorem step (h : c.Follows p m₀ R) (hreaches : R m active) (hlt : m.cpu.pc < m.programEnd)
    (hquiet : m.systemCall? = none) {m' : Machine σ} (hstep : ∀ n, step n m = .ok () m') :
    R m' (m.activeAfter active) ∧ ∀ n, resume (n + 1) m = resume n m' :=
  ⟨h.steps hreaches hlt hquiet (hstep 0), fun n => resume_of_step hlt (hstep n)⟩

/-! ## One instruction -/

variable {fuel : Nat}

/-- Behind its last step the main routine is over, and so is the run of the interpreter. -/
theorem advances_of_end (h : c.Follows p m₀ R) (hrunning : c.Running p r code (some index) active)
    (hat : At R m g active index) (hwaits : c.Waits p rest active) :
    Advances c p m₀ R m fuel r code.length rest g := by
  have hsize := (hrunning.part.realizes h.renders).size
  cases hrunning with
  | main =>
    cases hwaits with
    | none =>
      have hpc : m.cpu.pc = m₀.programEnd := by rw [hat.pc, h.codeAddress_length]
      have hover : ¬m.cpu.pc < m.programEnd := by
        rw [hpc, (h.settings hat.reaches).programEnd, BitVec.lt_def]
        exact Nat.lt_irrefl _
      have hnone := Array.getElem?_eq_none (Nat.le_of_eq hsize)
      exact .finished hpc (fun n => resume_of_ge n hover) (Frame.runAll_of_none fuel [] g hnone)

/-- A return of the interpreter goes back behind the innermost call, where the frame is that waits
for it. -/
theorem advances_of_return (h : c.Follows p m₀ R) (hrunning : c.Running p r code stop active)
    (hat : At R m g active index) (hwaits : c.Waits p rest active)
    (hword : code[position]? = some (w, index)) (hdecode : Instruction.decode w = some i)
    (hreturn : i.isReturn) : Advances c p m₀ R m fuel r position rest g := by
  obtain ⟨i', st, hi', hst, hrenders⟩ := (hrunning.part.realizes h.renders).step hword
  obtain rfl := Option.some.inj (hdecode.symm.trans hi')
  obtain ⟨rfl, op, f, rfl, hrole⟩ := hrenders.of_isReturn hreturn rfl
  obtain ⟨hlt, hread⟩ := h.fetches hat.reaches hat.pc (hrunning.part.word hword)
  have hinstruction := instruction?_of_read hread hdecode
  have hback := h.returns hat.reaches hlt hinstruction hreturn
  cases hrunning with
  | main =>
    -- No call is active, so there is nothing a return could go back behind.
    cases hback
  | @unit u range r back active function compiled aligned =>
    obtain rfl := Option.some.inj hback
    have htarget : (Instruction.register op f).target? { m.cpu with pc := m.cpu.pc + 4 } = none := by
      simp [Instruction.target?, hrole]
    obtain ⟨hreaches, hresumes⟩ := h.step hat.reaches hlt (systemCall?_of_act hinstruction htarget)
      fun n => step_of_return n hread hdecode hrole aligned
    rw [activeAfter_of_act hinstruction htarget, if_pos hreturn, List.tail_cons] at hreaches
    generalize hlink : m.cpu.registers.read .returnAddress = back at *
    cases hwaits with
    | behind running word decode stays waits =>
      have hnext := h.next running word decode stays hreaches rfl
      refine .goes (.intro running hnext ⟨hreaches, rfl, ?_, hat.host⟩ waits) .left hresumes
        (Frame.runAll_of_leave fuel _ hst rfl) rfl ⟨rfl, rfl⟩
      exact ⟨hat.data.registers, hat.data.memory⟩

/-- An instruction that neither calls nor returns goes on in the same routine, or both fault. -/
theorem advances_of_act (h : c.Follows p m₀ R) (hrunning : c.Running p r code stop active)
    (hat : At R m g active index) (hwaits : c.Waits p rest active)
    (hword : code[position]? = some (w, index)) (hdecode : Instruction.decode w = some i)
    (htarget : i.target? (m.fetched w).cpu = none) (hstays : i.isReturn = false) :
    Advances c p m₀ R m fuel r position rest g := by
  obtain ⟨i', st, hi', hst, hrenders⟩ := (hrunning.part.realizes h.renders).step hword
  obtain rfl := Option.some.inj (hdecode.symm.trans hi')
  obtain ⟨hlt, hread⟩ := h.fetches hat.reaches hat.pc (hrunning.part.word hword)
  have hinstruction := instruction?_of_read hread hdecode
  have htarget' := (target?_fetched i m w).trans htarget
  have hquiet := systemCall?_of_act hinstruction htarget'
  have hactive : m.activeAfter active = active := by
    rw [activeAfter_of_act hinstruction htarget', hstays]
    rfl
  obtain ⟨outcome, hagrees, hstep⟩ := step_agrees hrenders hread hdecode htarget
    (fun hreturn => by simp [hstays] at hreturn) (show Word.Aligned Program.textStart by decide)
    hat.pc hat.data hat.host m₀.calls
  generalize hrun : st.run m₀.calls g = outcome' at hagrees
  cases hagrees with
  | @next cpu cpu' data stays pc =>
    obtain ⟨hreaches, hresumes⟩ := h.step hat.reaches hlt hquiet hstep
    rw [hactive] at hreaches
    have hnext := h.next hrunning hword hdecode hstays hreaches pc
    have hat' : At R { m with cpu := cpu } ⟨cpu', m.host⟩ active (index + 1) :=
      ⟨hreaches, pc, data, rfl⟩
    exact .goes (.intro hrunning hnext hat' hwaits) (.went _ _) hresumes
      (Frame.runAll_of_next fuel rest hst hrun) hat.host.symm
      (hrenders.sameControl htarget hrun (by simp))
  | @jump cpu cpu' label target data label_goes pc =>
    obtain ⟨hreaches, hresumes⟩ := h.step hat.reaches hlt hquiet hstep
    rw [hactive] at hreaches
    have hat' : At R { m with cpu := cpu } ⟨cpu', m.host⟩ active target :=
      ⟨hreaches, pc, data, rfl⟩
    exact .goes (.intro hrunning label_goes hat' hwaits) (.went _ _) hresumes
      (Frame.runAll_of_jump fuel rest hst hrun) hat.host.symm
      (hrenders.sameControl htarget hrun (by simp))
  -- The routines of a program return to their callers and never to the interpreter.
  | leave data exit pc => cases exit
  | @fault cpu cpu' reason data pc =>
    have halike : Guest.Alike ⟨cpu, m.host⟩ ⟨cpu', m.host⟩ := ⟨data, pc, rfl⟩
    have hstops : ∀ n, resume (n + 1) m = .error (.fault reason) { m with cpu := cpu } := by
      intro n
      rw [resume_of_lt n hlt, hstep n]
    exact .stopped hstops (Frame.runAll_of_error fuel rest hst hrun) halike rfl

/-- A call takes the interpreter to where it looks it up. -/
theorem enters (h : c.Follows p m₀ R) (hat : At R m g active index)
    (hw : p.words[index]? = some w) {op : Opcode} {f : JumpForm}
    (hdecode : Instruction.decode w = some (.jump op f)) (n : Nat) :
    Machine.step n m = .ok () ((m.fetched w).enter (m₀.calls.callee (f.target (m.cpu.pc + 4)))) := by
  have hsettings := h.settings hat.reaches
  have hoff : m.config.compileOnDemand = false := by rw [hsettings.config, h.compileOnDemand]
  have hstep := step_of_call n (h.fetches hat.reaches hat.pc hw).2 hdecode hoff
  rwa [hsettings.calls] at hstep

theorem advances_of_system (h : c.Follows p m₀ R) (hrunning : c.Running p r code stop active)
    (hat : At R m g active index) (hwaits : c.Waits p rest active)
    (hword : code[position]? = some (w, index)) {op : Opcode} {f : JumpForm}
    (hdecode : Instruction.decode w = some (.jump op f))
    (hcontains : m₀.calls.contains (f.target (m.cpu.pc + 4)))
    (hst : r.steps[position]? =
      some (.callSystem (m.cpu.pc + 4) (f.target (m.cpu.pc + 4)))) :
    Advances c p m₀ R m fuel r position rest g := by
  obtain ⟨hlt, hread⟩ := h.fetches hat.reaches hat.pc (hrunning.part.word hword)
  have hinstruction := instruction?_of_read hread hdecode
  have hcalls := (h.settings hat.reaches).calls
  have hcontains' : m.calls.contains (f.target (m.cpu.pc + 4)) := by rwa [hcalls]
  have hsystem : m.systemCall? = some (f.target (m.cpu.pc + 4)) := by
    rw [systemCall?_of_call hinstruction rfl]
    exact if_pos hcontains'
  have hsteps : ∀ n, Machine.step n m =
      .ok () ((m.fetched w).enter (.system (f.target (m.cpu.pc + 4)))) := by
    intro n
    rw [h.enters hat (hrunning.part.word hword) hdecode n, SystemCalls.callee, if_pos hcontains]
  refine .calls hat.reaches hlt hcontains hsystem hst hsteps ?_ ?_
  · rw [activeAfter_of_call hinstruction rfl]
    exact if_pos hcontains'
  · intro m' g' hreaches hpc hdata hhost
    have hpc' : m'.cpu.pc = codeAddress Program.textStart (index + 1) := by
      rw [hpc, hat.pc, codeAddress_succ]
    have hnext := h.next hrunning hword hdecode rfl hreaches hpc'
    exact .intro hrunning hnext ⟨hreaches, hpc', hdata, hhost⟩ hwaits

/-- After the call of a function the interpreter is at its entry. The routine of the function runs,
and the one that called it waits. -/
theorem advances_of_unit (h : c.Follows p m₀ R) (hrunning : c.Running p r code stop active)
    (hat : At R m g active index) (hwaits : c.Waits p rest active)
    (hword : code[position]? = some (w, index)) {op : Opcode} {f : JumpForm}
    (hdecode : Instruction.decode w = some (.jump op f)) {u : Nat} {range : IndexRange}
    {callee : Routine} (hfunction : p.ranges[u]? = some range)
    (hcompiled : c.units[u]? = some callee)
    (hfirst : 4 * range.first = (f.target (m.cpu.pc + 4)).toNat)
    (hst : r.steps[position]? = some (.callUnit (m.cpu.pc + 4) u)) :
    Advances c p m₀ R m fuel r position rest g := by
  obtain ⟨hlt, hread⟩ := h.fetches hat.reaches hat.pc (hrunning.part.word hword)
  have hinstruction := instruction?_of_read hread hdecode
  obtain ⟨x, hx, hentry, -, hnonempty, hstop, -⟩ :=
    Program.range_of_mem h.functions (List.mem_of_getElem? hfunction)
  have hcontains := h.contains_of_isEntry ⟨x, hx, hentry.trans hfirst⟩
  have hcontains' : m.calls.contains (f.target (m.cpu.pc + 4)) = false := by
    rwa [(h.settings hat.reaches).calls]
  have hquiet : m.systemCall? = none := by
    rw [systemCall?_of_call hinstruction rfl]
    exact if_neg (Bool.not_eq_true _ ▸ hcontains')
  obtain ⟨hreaches, hresumes⟩ := h.step hat.reaches hlt hquiet
    (h.enters hat (hrunning.part.word hword) hdecode)
  have hactive : m.activeAfter active = (m.cpu.pc + 4) :: active := by
    rw [activeAfter_of_call hinstruction rfl]
    exact if_neg (Bool.not_eq_true _ ▸ hcontains')
  rw [hactive, SystemCalls.callee, hcontains, if_neg Bool.false_ne_true, enter] at hreaches
  simp only [SystemCalls.callee, hcontains, if_neg Bool.false_ne_true, enter] at hresumes
  -- The interpreter keeps where it goes back to as an address, compiled code as a frame.
  have hback : m.cpu.pc + 4 = codeAddress Program.textStart (index + 1) := by
    rw [codeAddress_succ, ← hat.pc]
  have haligned : Word.Aligned (m.cpu.pc + 4) := by
    rw [hback]
    exact aligned_codeAddress (by decide) _
  have hpc : f.target (m.cpu.pc + 4) = codeAddress Program.textStart range.first :=
    (Program.codeAddress_eq hfirst).symm
  have hdata : (m.cpu.link (m.cpu.pc + 4)).SameData (g.cpu.link (m.cpu.pc + 4)) := hat.data.link _
  have hat' : At R { m.fetched w with
      cpu := { (m.fetched w).cpu.link (m.cpu.pc + 4) with pc := f.target (m.cpu.pc + 4) } }
      { g with cpu := g.cpu.link (m.cpu.pc + 4) } ((m.cpu.pc + 4) :: active) range.first :=
    ⟨hreaches, hpc, ⟨hdata.registers, hdata.memory⟩, hat.host⟩
  have hruns := Frame.runAll_of_call fuel rest hst (Step.run_callUnit m₀.calls _ _ g) hcompiled
  have hbehind : c.Waits p (⟨fuel, r, position + 1⟩ :: rest) ((m.cpu.pc + 4) :: active) := by
    rw [hback]
    exact .behind hrunning hword hdecode rfl hwaits
  exact .goes (.intro (.unit hfunction hcompiled haligned)
    (IndexRange.position_first hnonempty hstop) hat' hbehind) (.called _ _ _) hresumes hruns rfl
    ⟨rfl, rfl⟩

end Follows

namespace Lockstep

variable {frames : List Frame}

theorem data (hlock : Lockstep c p R m frames g) : m.cpu.SameData g.cpu := by
  cases hlock with
  | intro running place hat waits => exact hat.data

theorem host (hlock : Lockstep c p R m frames g) : g.host = m.host := by
  cases hlock with
  | intro running place hat waits => exact hat.host

theorem guest (h : c.Follows p m₀ R) (hlock : Lockstep c p R m frames g) :
    m = m₀.withGuest m.toGuest := by
  cases hlock with
  | intro running place hat waits => exact h.guest hat.reaches

theorem exists_top (hlock : Lockstep c p R m frames g) :
    ∃ fuel r position rest, frames = ⟨fuel, r, position⟩ :: rest := by
  cases hlock with
  | intro running place hat waits => exact ⟨_, _, _, _, rfl⟩

/-- The frame on top can take a step. -/
theorem exists_succ (hlock : Lockstep c p R m frames g) {n : Nat}
    (henough : Frame.Enough (n + 1) frames) :
    ∃ fuel r position rest, frames = ⟨fuel + 1, r, position⟩ :: rest := by
  obtain ⟨fuel, r, position, rest, rfl⟩ := hlock.exists_top
  have htop : n + 1 ≤ fuel := henough _ List.mem_cons_self
  obtain ⟨fuel, rfl⟩ := Nat.exists_eq_add_of_le' (Nat.le_trans (Nat.le_add_left 1 n) htop)
  exact ⟨fuel, r, position, rest, rfl⟩

/-- **One instruction.** Compiled code follows the interpreter, both make the same system call, both
are over, or both stop with the same fault. -/
theorem advances {fuel : Nat} (h : c.Follows p m₀ R)
    (hlock : Lockstep c p R m (⟨fuel + 1, r, position⟩ :: rest) g) :
    Advances c p m₀ R m fuel r position rest g := by
  cases hlock with
  | intro running place hat waits =>
    obtain ⟨w, hword⟩ | ⟨rfl, rfl⟩ := place
    · obtain ⟨i, st, hdecode, -, hrenders⟩ := (running.part.realizes h.renders).step hword
      cases htarget : i.target? (m.fetched w).cpu with
      | none =>
        cases hreturn : i.isReturn with
        | true => exact h.advances_of_return running hat waits hword hdecode hreturn
        | false => exact h.advances_of_act running hat waits hword hdecode htarget hreturn
      | some target =>
        obtain ⟨op, f, rfl⟩ := hrenders.of_target? htarget
        obtain ⟨st, hst, hcall⟩ := running.part.callStep h.renders hword hdecode
        rw [codeAddress_succ, ← hat.pc] at hcall
        cases hcall with
        | unit function compiled first =>
          exact h.advances_of_unit running hat waits hword hdecode function compiled first hst
        | system absent known =>
          exact h.advances_of_system running hat waits hword hdecode
            ((m₀.calls.contains_iff _).2 known) hst
    · exact h.advances_of_end running hat waits

end Lockstep

end CompiledProgram

/-! ## The beginning of a program -/

namespace Machine

variable {p : Program} {m : Machine σ}

theorem toNat_programEnd_prepared (m : Machine σ) (h : p.textEnd < 2 ^ 32) :
    (m.prepared p).programEnd.toNat = p.textEnd := by
  show (BitVec.ofNat 32 p.textEnd).toNat = p.textEnd
  rw [BitVec.toNat_ofNat, Nat.mod_eq_of_lt h]

/-- As long as nothing below its end changes, the program is in memory. -/
theorem holds_of_sameBelow (hfits : p.image.length ≤ m.cpu.memory.size)
    (htextEnd : p.textEnd < 2 ^ 32) {memory : Memory}
    (hsame : Memory.SameBelow (m.prepared p).programEnd.toNat (m.prepared p).cpu.memory memory) :
    memory.Holds 0 p.words := by
  have hend : p.textEnd = 4 * p.words.length := rfl
  have hlength : p.textEnd ≤ p.image.length := by
    rw [Program.image, List.length_append, Word.length_flatMap_bytes]
    exact Nat.le_add_right _ _
  have hsize : p.textEnd ≤ (m.cpu.memory.putBytes 0 p.image).size := by
    rw [Memory.size_putBytes]
    exact Nat.le_trans hlength hfits
  rw [toNat_programEnd_prepared m htextEnd] at hsame
  exact hsame.holds hsize (by omega) (holds_loaded hfits)

/-- As far as `R` goes, a run from `m₀` leaves the program alone, returns behind the innermost call
and is inside of a function only as long as a call is active. -/
structure KeepsTo (p : Program) (m₀ : Machine σ) (R : Machine σ → List Word → Prop) : Prop where
  reaches : ∀ {m : Machine σ} {active : List Word}, R m active → Reaches m₀ m active
  keeps : ∀ {m : Machine σ} {active : List Word}, R m active →
    Memory.SameBelow m₀.programEnd.toNat m₀.cpu.memory m.cpu.memory
  returns : ∀ {m : Machine σ} {active : List Word} {i : Instruction}, R m active →
    m.cpu.pc < m.programEnd → m.instruction? = some i → i.isReturn →
    active.head? = some (m.cpu.registers.read .returnAddress)
  functions : ∀ {m : Machine σ}, R m [] → ¬p.InFunction m.cpu.pc
  steps : ∀ {m m' : Machine σ} {active : List Word}, R m active → m.cpu.pc < m.programEnd →
    m.systemCall? = none → step 0 m = .ok () m' → R m' (m.activeAfter active)

variable {c : CompiledProgram} {R : Machine σ → List Word → Prop}

/-- The compiled program can follow such a run, as far as `R` goes. -/
theorem KeepsTo.follows (h : KeepsTo p (m.prepared p) R) (hoff : m.config.compileOnDemand = false)
    (htextEnd : p.textEnd < 2 ^ 32)
    (hapart : ∀ address ∈ m.calls.symbols.addresses, ¬p.IsEntry address)
    (hfunctions : ∀ x ∈ p.functions.extents, p.HasFunction x)
    (hc : CompiledProgram.compile p m.calls.symbols.addresses = .ok c)
    (hfits : p.image.length ≤ m.cpu.memory.size) : c.Follows p (m.prepared p) R where
  renders := CompiledProgram.compile_eq_ok hc
  functions := hfunctions
  apart := hapart
  compileOnDemand := hoff
  programEnd := toNat_programEnd_prepared m htextEnd
  guest hreaches := (h.reaches hreaches).guest hoff
  holds hreaches := holds_of_sameBelow hfits htextEnd (h.keeps hreaches)
  returns := h.returns
  outside := h.functions
  steps := h.steps

/-- The compiled program begins where the interpreter does. -/
theorem lockstep_prepared (h : c.Follows p (m.prepared p) R) (hstart : R (m.prepared p) [])
    (hentry : p.entryPoint % 4 = 0) (fuel : Nat) :
    c.Lockstep p R (m.prepared p) [⟨fuel, c.main, c.start⟩] (m.prepared p).toGuest := by
  have hpc : (m.prepared p).cpu.pc = codeAddress Program.textStart (p.entryPoint / 4) := by
    rw [Program.codeAddress_textStart, Nat.mul_div_cancel' (Nat.dvd_of_mod_eq_zero hentry)]
    rfl
  exact .intro .main h.renders.start ⟨hstart, hpc, .refl _, rfl⟩ .none

end Machine

end Risc32
