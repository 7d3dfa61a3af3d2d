import Risc32.Proofs.Compiled.Rendering
import Risc32.Proofs.Machine.Runs

/-!
# One step against one instruction

An instruction that calls nothing and the step that renders it do the same to registers and
memory. They differ in what they do to the program counter: the interpreter always has it right,
compiled code only when it matters. `Agrees` says how the two outcomes belong together, and
`Renders.agrees` that they do. Runs of compiled code are compared with the interpreter by this
theorem alone, in the form of `Machine.step_agrees`, and never look into a step.
-/

set_option autoImplicit false

namespace Risc32

/-! ## Processors with the same data -/

/-- The processors have the same registers and memory. -/
structure Processor.SameData (cpu cpu' : Processor) : Prop where
  registers : cpu'.registers = cpu.registers
  memory : cpu'.memory = cpu.memory

namespace Processor

theorem SameData.refl (cpu : Processor) : SameData cpu cpu :=
  ⟨rfl, rfl⟩

theorem SameData.register {cpu cpu' : Processor} (h : SameData cpu cpu') (index : Byte) :
    cpu'.register index = cpu.register index := by
  rw [Processor.register, h.registers]
  rfl

theorem SameData.setRegister {cpu cpu' : Processor} (h : SameData cpu cpu') (index : Byte)
    (value : Word) : SameData (cpu.setRegister index value) (cpu'.setRegister index value) :=
  ⟨congrArg (·.set index value) h.registers, h.memory⟩

theorem SameData.link {cpu cpu' : Processor} (h : SameData cpu cpu') (address : Word) :
    SameData (cpu.link address) (cpu'.link address) :=
  ⟨congrArg (·.write .returnAddress address) h.registers, h.memory⟩

/-- A store leaves the program counter alone, and is refused for the same reason elsewhere. -/
theorem onMemory_apply {α : Type} (x : Exec Memory α) (cpu : Processor) :
    onMemory x cpu = match x cpu.memory with
      | .ok a memory => .ok a { cpu with memory := memory }
      | .error halt memory => .error halt { cpu with memory := memory } := rfl

theorem jump_apply (name : String) (target : Word) (cpu : Processor) :
    jump name target cpu =
      if Word.Aligned target then .ok () { cpu with pc := target }
      else .error (.fault (.misaligned ⟨name, cpu.pc⟩ target)) cpu := by
  by_cases h : Word.Aligned target <;> simp [jump, checkAligned, h]

/-- An access reads registers and memory only. It is refused and changes nothing, or it changes
registers and memory only. -/
theorem access_cases (kind : MemoryAccess) (site : Site) (b : Byte) (address : Word)
    {cpu cpu' : Processor} (h : SameData cpu cpu') :
    (∃ reason, access kind site b address cpu = .error (.fault reason) cpu ∧
      access kind site b address cpu' = .error (.fault reason) cpu') ∨
    ∃ registers memory,
      access kind site b address cpu =
        .ok () { cpu with registers := registers, memory := memory } ∧
      access kind site b address cpu' =
        .ok () { cpu' with registers := registers, memory := memory } := by
  obtain ⟨registers, memory, pc, ir⟩ := cpu
  obtain ⟨registers', memory', pc', ir'⟩ := cpu'
  obtain ⟨rfl, rfl⟩ : registers = registers' ∧ memory = memory' :=
    ⟨h.registers.symm, h.memory.symm⟩
  -- Now both have the very same registers and memory, so each kind has one result for both.
  cases kind with
  | loadWord =>
    cases hread : memory.readWord site address with
    | error reason => exact .inl ⟨reason, by simp [access, hread]⟩
    | ok w => exact .inr ⟨registers.set b w, memory, by simp [access, setRegister, hread]⟩
  | loadByte =>
    cases hread : memory.readByte site address with
    | error reason => exact .inl ⟨reason, by simp [access, hread]⟩
    | ok v =>
      exact .inr ⟨registers.set b (v.signExtend 32), memory, by simp [access, setRegister, hread]⟩
  | loadByteUnsigned =>
    cases hread : memory.readByte site address with
    | error reason => exact .inl ⟨reason, by simp [access, hread]⟩
    | ok v =>
      exact .inr ⟨registers.set b (v.setWidth 32), memory, by simp [access, setRegister, hread]⟩
  | storeWord =>
    cases hcheck : memory.checkWord site address with
    | error reason =>
      exact .inl ⟨reason, by simp [access, onMemory_apply, Memory.writeWord, hcheck]⟩
    | ok =>
      refine .inr ⟨registers, memory.putWord address.toNat (registers.get b), ?_⟩
      simp [access, onMemory_apply, Memory.writeWord, hcheck, register]
  | storeByte =>
    cases hcheck : memory.checkByte site address with
    | error reason =>
      exact .inl ⟨reason, by simp [access, onMemory_apply, Memory.writeByte, hcheck]⟩
    | ok =>
      refine .inr ⟨registers, memory.putByte address.toNat ((registers.get b).setWidth 8), ?_⟩
      simp [access, onMemory_apply, Memory.writeByte, hcheck, register]

end Processor

/-! ## Addresses of instructions -/

namespace Word

/-- A jump goes to a multiple of four from a multiple of four exactly if its distance is one. -/
theorem aligned_add_iff {a : Word} (ha : Aligned a) (d : Word) :
    Aligned (a + d) ↔ d.toInt % 4 = 0 := by
  have hmod : a.toNat % 4 = 0 := ha
  rw [Aligned, BitVec.toNat_add, BitVec.toInt_eq_toNat_cond]
  split <;> omega

end Word

theorem aligned_codeAddress {base : Word} (h : Word.Aligned base) (index : Nat) :
    Word.Aligned (codeAddress base index) := by
  have hmod : base.toNat % 4 = 0 := h
  rw [Word.Aligned, codeAddress, BitVec.toNat_add, BitVec.toNat_ofNat]
  omega

theorem codeAddress_succ (base : Word) (index : Nat) :
    codeAddress base (index + 1) = codeAddress base index + 4 := by
  rw [codeAddress, codeAddress, BitVec.add_assoc, Nat.mul_add, BitVec.ofNat_add]
  rfl

/-- The distance of a branch counted in instructions is the one counted in bytes. -/
theorem codeAddress_add_distance {index target : Nat} {d : Word} (aligned : d.toInt % 4 = 0)
    (distance : (target : Int) = index + d.toInt / 4 + 1) (base : Word) :
    codeAddress base (index + 1) + d = codeAddress base target := by
  have hbytes : ((4 * target : Nat) : Int) = (4 * (index + 1) : Nat) + d.toInt := by omega
  rw [codeAddress, codeAddress, BitVec.add_assoc]
  congr 1
  rw [← BitVec.ofInt_natCast, ← BitVec.ofInt_natCast, hbytes, BitVec.ofInt_add, BitVec.ofInt_toInt]

/-! ## Where a step leads -/

variable {σ : Type}

/-- Where a step can lead when it does not fault. -/
inductive Step.LeadsTo : Step → Successor → Prop where
  | next (st : Step) : LeadsTo st .next
  | branch (condition : Arithmetic.Condition) (a b : Byte) (label : Nat) :
      LeadsTo (.branch condition a b label) (.jump label)
  | callUnit (link : Word) (unit : Nat) : LeadsTo (.callUnit link unit) (.call unit)
  | returnTo (site : Site) : LeadsTo (.returnTo site) .leave
  | transfer (flow : Successor) : LeadsTo (.transfer flow) flow

/-- The step is the return of a function. -/
inductive Step.IsReturn : Step → Prop where
  | returnTo (site : Site) : IsReturn (.returnTo site)
  | leave : IsReturn (.transfer .leave)

theorem Step.LeadsTo.isReturn {st : Step} (h : st.LeadsTo .leave) : st.IsReturn := by
  cases h with
  | returnTo site => exact .returnTo site
  | transfer flow => exact .leave

theorem Step.run_returnTo (calls : SystemCalls σ) (site : Site) (g : Guest σ) :
    (Step.returnTo site).run calls g =
      let target := g.cpu.registers.read .returnAddress
      if Word.Aligned target then .ok .leave { g with cpu := { g.cpu with pc := target } }
      else
        .error (.fault (.misaligned site target)) { g with cpu := { g.cpu with pc := site.pc } } := by
  simp only [run, Guest.onProcessor_apply, Exec.bind_apply, Exec.get_apply, Exec.modify_apply,
    Processor.jump_apply]
  by_cases ha : Word.Aligned (g.cpu.registers.read .returnAddress)
  · rw [if_pos ha, if_pos ha]
    rfl
  · rw [if_neg ha, if_neg ha]

theorem Step.leadsTo_of_run {calls : SystemCalls σ} {st : Step} {flow : Successor} {g g' : Guest σ}
    (h : st.run calls g = .ok flow g') : st.LeadsTo flow := by
  cases st with
  | compute f c a b =>
    cases h
    exact .next _
  | computeWith f b a operand =>
    cases h
    exact .next _
  | access kind site b a offset =>
    simp only [run, Guest.onProcessor_apply, Exec.bind_apply, Exec.get_apply, faultingAt] at h
    rcases Processor.access_cases kind site b (g.cpu.register a + offset) (.refl g.cpu) with
      ⟨reason, haccess, -⟩ | ⟨registers, memory, haccess, -⟩
    · rw [haccess] at h
      cases h
    · rw [haccess] at h
      cases h
      exact .next _
  | branch condition a b label =>
    simp only [run, Guest.onProcessor_apply, Exec.bind_apply, Exec.get_apply, Exec.pure_apply] at h
    split at h
    · cases h
      exact .branch condition a b label
    · cases h
      exact .next _
  | misalignedBranch condition a b site address =>
    simp only [run, Guest.onProcessor_apply, Exec.bind_apply, Exec.get_apply] at h
    by_cases htaken : condition.holds (g.cpu.register a) (g.cpu.register b)
    · simp only [htaken, if_true] at h
      cases h
    · simp only [htaken] at h
      cases h
      exact .next _
  | callUnit link unit =>
    cases h
    exact .callUnit link unit
  | callSystem link address =>
    cases h
    exact .next _
  | returnTo site =>
    rw [run_returnTo] at h
    dsimp only at h
    split at h <;> cases h
    exact .returnTo site
  | transfer flow' =>
    cases h
    exact .transfer flow

/-- Returns are rendered by returns. -/
theorem Renders.isReturn_iff {s : Surroundings} {index : Nat} {goes : Nat → Nat → Prop}
    {i : Instruction} {st : Step} (h : Renders s index goes i st) : i.isReturn ↔ st.IsReturn := by
  constructor
  · intro hreturn
    cases h with
    | returnTo role exit => exact .returnTo _
    | leave role exit => exact .leave
    | compute role | shift role =>
      rw [Instruction.isReturn_register, role] at hreturn
      cases hreturn
    | _ => cases hreturn
  · intro hreturn
    cases hreturn with
    | returnTo site =>
      cases h with
      | returnTo role exit => exact (Instruction.isReturn_register _ _).2 role
    | leave =>
      cases h with
      | leave role exit => exact (Instruction.isReturn_register _ _).2 role

/-- Only a return is rendered by a step that leaves. -/
theorem Renders.isReturn_of_leave {s : Surroundings} {index : Nat} {goes : Nat → Nat → Prop}
    {i : Instruction} {st : Step} (h : Renders s index goes i st) (hleads : st.LeadsTo .leave) :
    i.isReturn :=
  h.isReturn_iff.2 hleads.isReturn

/-- A step jumps to the label of an instruction at some distance in whole instructions. -/
theorem Renders.distance_of_jump {s : Surroundings} {index : Nat} {goes : Nat → Nat → Prop}
    {i : Instruction} {st : Step} (h : Renders s index goes i st) {label : Nat}
    (hleads : st.LeadsTo (.jump label)) :
    ∃ (d : Word) (target : Nat), d.toInt % 4 = 0 ∧ (target : Int) = index + d.toInt / 4 + 1 ∧
      goes label target := by
  cases hleads with
  | branch condition a b label =>
    cases h with
    | branch role aligned distance label_goes => exact ⟨_, _, aligned, distance, label_goes⟩
  | transfer flow => cases h

/-! ## One instruction -/

/-- The outcome of an instruction and the outcome of the step that renders it. If the step goes on,
the interpreter's program counter is where the step leads. If it stops, for good or for the
interpreter to take over, then both program counters are the same. -/
inductive Agrees (s : Surroundings) (index : Nat) (goes : Nat → Nat → Prop) (i : Instruction)
    (host : σ) :
    EStateM.Result Halt Processor Unit → EStateM.Result Halt (Guest σ) Successor → Prop where
  | next {cpu cpu' : Processor} (data : cpu.SameData cpu') (stays : i.isReturn = false)
      (pc : cpu.pc = codeAddress s.base (index + 1)) :
      Agrees s index goes i host (.ok () cpu) (.ok .next ⟨cpu', host⟩)
  | jump {cpu cpu' : Processor} {label target : Nat} (data : cpu.SameData cpu')
      (label_goes : goes label target) (pc : cpu.pc = codeAddress s.base target) :
      Agrees s index goes i host (.ok () cpu) (.ok (.jump label) ⟨cpu', host⟩)
  | leave {cpu cpu' : Processor} (data : cpu.SameData cpu') (exit : s.exit = .toInterpreter)
      (pc : cpu'.pc = cpu.pc) :
      Agrees s index goes i host (.ok () cpu) (.ok .leave ⟨cpu', host⟩)
  | fault {cpu cpu' : Processor} {reason : Fault} (data : cpu.SameData cpu')
      (pc : cpu'.pc = cpu.pc) :
      Agrees s index goes i host (.error (.fault reason) cpu) (.error (.fault reason) ⟨cpu', host⟩)

/-- Only a call is rendered where something is called. -/
theorem Renders.of_target? {s : Surroundings} {index : Nat} {goes : Nat → Nat → Prop}
    {i : Instruction} {st : Step} (h : Renders s index goes i st) {cpu : Processor} {target : Word}
    (htarget : i.target? cpu = some target) : ∃ op f, i = .jump op f := by
  cases h with
  | compute role => simp [Instruction.target?, role] at htarget
  | shift role => simp [Instruction.target?, role] at htarget
  | computeWith role => cases htarget
  | access role => cases htarget
  | branch role aligned distance hgoes => cases htarget
  | misalignedBranch role misaligned => cases htarget
  | returnTo role exit => simp [Instruction.target?, role] at htarget
  | leave role exit => simp [Instruction.target?, role] at htarget
  | callUnit linkage found => exact ⟨_, _, rfl⟩
  | callSystem linkage absent found => exact ⟨_, _, rfl⟩

/-- Where calls are not linked, nothing that is rendered calls. -/
theorem Renders.target?_eq_none {s : Surroundings} {index : Nat} {goes : Nat → Nat → Prop}
    {i : Instruction} {st : Step} (h : Renders s index goes i st) (hlink : s.linkage = .none)
    (cpu : Processor) : i.target? cpu = none := by
  cases htarget : i.target? cpu with
  | none => rfl
  | some target =>
    obtain ⟨op, f, rfl⟩ := h.of_target? htarget
    cases h with
    | callUnit linkage found => cases hlink.symm.trans linkage
    | callSystem linkage absent found => cases hlink.symm.trans linkage

/-- A return to the routine that called leaves at once. -/
theorem Renders.of_isReturn {s : Surroundings} {index : Nat} {goes : Nat → Nat → Prop}
    {i : Instruction} {st : Step} (h : Renders s index goes i st) (hreturn : i.isReturn)
    (hexit : s.exit = .toCaller) :
    st = .transfer .leave ∧ ∃ op f, i = .register op f ∧ op.role = .ret := by
  cases h.isReturn_iff.1 hreturn with
  | returnTo site =>
    cases h with
    | returnTo role exit => cases exit.symm.trans hexit
  | leave =>
    cases h with
    | leave role exit => exact ⟨rfl, _, _, rfl, role⟩

/-- An instruction agrees with its step. A return to the routine that called is left out, since
the interpreter goes where the return address says and the step does not look at it. -/
theorem Renders.agrees {s : Surroundings} {index : Nat} {goes : Nat → Nat → Prop}
    {i : Instruction} {st : Step} (h : Renders s index goes i st) {cpu cpu' : Processor}
    (hcall : i.target? cpu = none) (hreturn : i.isReturn → s.exit = .toInterpreter)
    (haligned : Word.Aligned s.base) (hdata : cpu.SameData cpu')
    (hpc : cpu.pc = codeAddress s.base (index + 1)) (calls : SystemCalls σ) (host : σ) :
    Agrees s index goes i host (i.act cpu) (st.run calls ⟨cpu', host⟩) := by
  have hregister : ∀ index, cpu'.register index = cpu.register index := hdata.register
  cases h with
  | @compute op f g role =>
    have hstays : (Instruction.register op f).isReturn = false := by
      rw [← Bool.not_eq_true, Instruction.isReturn_register, role]
      simp
    rw [Instruction.act, Step.run]
    simp only [role, Guest.onProcessor_apply, Exec.bind_apply, Exec.modify_apply, Exec.pure_apply,
      hregister]
    exact .next (hdata.setRegister _ _) hstays hpc
  | @shift op f g role =>
    have hstays : (Instruction.register op f).isReturn = false := by
      rw [← Bool.not_eq_true, Instruction.isReturn_register, role]
      simp
    rw [Instruction.act, Step.run]
    simp only [role, Guest.onProcessor_apply, Exec.bind_apply, Exec.modify_apply, Exec.pure_apply,
      hregister]
    exact .next (hdata.setRegister _ _) hstays hpc
  | @computeWith op f g role =>
    rw [Instruction.act, Step.run]
    simp only [role, Guest.onProcessor_apply, Exec.bind_apply, Exec.modify_apply, Exec.pure_apply,
      hregister]
    exact .next (hdata.setRegister _ _) rfl hpc
  | @access op f kind role =>
    rw [Instruction.act, Step.run]
    simp only [role, Guest.onProcessor_apply, Exec.bind_apply, Exec.get_apply, Step.faultingAt,
      hregister, hpc]
    rcases Processor.access_cases kind ⟨op.name, codeAddress s.base (index + 1)⟩ f.b
      (cpu.register f.a + f.signed) hdata with ⟨reason, hc, hc'⟩ | ⟨registers, memory, hc, hc'⟩
    · rw [hc, hc']
      exact .fault ⟨hdata.registers, hdata.memory⟩ hpc.symm
    · rw [hc, hc']
      exact .next ⟨rfl, rfl⟩ rfl hpc
  | @branch op f condition label target role aligned distance hgoes =>
    have htarget := codeAddress_add_distance aligned distance s.base
    rw [Instruction.act, Step.run]
    simp only [role, Guest.onProcessor_apply, Exec.bind_apply, Exec.get_apply, Exec.pure_apply,
      hregister]
    by_cases htaken : condition.holds (cpu.register f.a) (cpu.register f.b)
    · -- A label stands for an instruction, so the interpreter does not find its target misaligned.
      simp only [htaken, if_true]
      rw [Processor.jump_apply, hpc, htarget, if_pos (aligned_codeAddress haligned target)]
      exact .jump ⟨hdata.registers, hdata.memory⟩ hgoes rfl
    · simp only [htaken, Bool.false_eq_true, if_false, Exec.pure_apply]
      exact .next hdata rfl hpc
  | @misalignedBranch op f condition role misaligned =>
    have hcode := aligned_codeAddress haligned (index + 1)
    have htarget : ¬Word.Aligned (codeAddress s.base (index + 1) + f.signed) := fun h =>
      misaligned ((Word.aligned_add_iff hcode _).1 h)
    rw [Instruction.act, Step.run]
    simp only [role, Guest.onProcessor_apply, Exec.bind_apply, Exec.get_apply, hregister]
    by_cases htaken : condition.holds (cpu.register f.a) (cpu.register f.b)
    · simp only [htaken, if_true]
      rw [Processor.jump_apply, hpc, if_neg htarget]
      exact .fault ⟨hdata.registers, hdata.memory⟩ hpc.symm
    · simp only [htaken, Bool.false_eq_true, if_false, Exec.pure_apply]
      exact .next hdata rfl hpc
  | @returnTo op f role exit =>
    rw [Instruction.act, Step.run]
    simp only [role, Guest.onProcessor_apply, Exec.bind_apply, Exec.get_apply, Exec.modify_apply,
      Exec.pure_apply, Processor.jump_apply, hdata.registers, hpc]
    -- This return sets the program counter by itself, as the interpreter does.
    by_cases ha : Word.Aligned (cpu.registers.read .returnAddress)
    · rw [if_pos ha, if_pos ha]
      exact .leave ⟨rfl, hdata.memory⟩ exit rfl
    · rw [if_neg ha, if_neg ha]
      exact .fault ⟨rfl, hdata.memory⟩ hpc.symm
  | @leave op f role exit =>
    have hret : (Instruction.register op f).isReturn := (Instruction.isReturn_register op f).2 role
    exact absurd (hreturn hret) (by simp [exit])
  | callUnit linkage found => exact absurd hcall (by simp [Instruction.target?])
  | callSystem linkage absent found => exact absurd hcall (by simp [Instruction.target?])

/-- A step of the interpreter that calls nothing agrees with the step that renders its
instruction. -/
theorem Machine.step_agrees {s : Surroundings} {index : Nat} {goes : Nat → Nat → Prop}
    {i : Instruction} {st : Step} (h : Renders s index goes i st) {m : Machine σ} {g : Guest σ}
    {w : Word} (hread : m.cpu.memory.readWord ⟨"fetch", m.cpu.pc⟩ m.cpu.pc = .ok w)
    (hdecode : Instruction.decode w = some i) (htarget : i.target? (m.fetched w).cpu = none)
    (hreturn : i.isReturn → s.exit = .toInterpreter) (haligned : Word.Aligned s.base)
    (hpc : m.cpu.pc = codeAddress s.base index) (hdata : m.cpu.SameData g.cpu)
    (hhost : g.host = m.host) (calls : SystemCalls σ) :
    ∃ outcome, Agrees s index goes i m.host outcome (st.run calls g) ∧
      ∀ fuel, step fuel m = match outcome with
        | .ok _ cpu => .ok () { m with cpu := cpu }
        | .error halt cpu => .error halt { m with cpu := cpu } := by
  obtain ⟨cpu', host⟩ := g
  obtain rfl : host = m.host := hhost
  have hfetched : (m.fetched w).cpu.SameData cpu' := ⟨hdata.registers, hdata.memory⟩
  have hnext : (m.fetched w).cpu.pc = codeAddress s.base (index + 1) := by
    rw [codeAddress_succ, ← hpc]
    rfl
  exact ⟨i.act (m.fetched w).cpu,
    h.agrees htarget hreturn haligned hfetched hnext calls m.host,
    fun fuel => step_of_act fuel hread hdecode htarget⟩

end Risc32
