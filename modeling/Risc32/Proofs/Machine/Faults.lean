import Risc32.Proofs.Machine.HostMaps
import Risc32.Proofs.Compiled.Agreement
import Risc32.Proofs.Compiled.Calls

/-!
# When an instruction is refused

An instruction is refused for one of a few reasons, and a refused instruction has done nothing: each
looks at everything that could stop it before it changes the first register. A call through a
register, which changes two things one after the other, is no exception. `Machine.Refuses` has the
reasons, each with the fault that it is reported by, and `Machine.execute_faultsFor` says that
there are no others.

A routine is left out. It is a run and not an instruction, and a run that is stopped has done what
came before.
-/

set_option autoImplicit false

namespace Risc32

variable {σ : Type}

namespace Exec

variable {s α : Type}

/-- In the state, the execution stops for these reasons and for no others, and when it stops it has
changed nothing. -/
def FaultsFor (x : Exec s α) (st : s) (R : Fault → Prop) : Prop :=
  ∀ halt st', x st = .error halt st' ↔ st' = st ∧ ∃ reason, halt = .fault reason ∧ R reason

variable {x : Exec s α} {st : s} {R : Fault → Prop}

theorem faultsFor_of_ok {a : α} {st' : s} (h : x st = .ok a st') (hR : ∀ reason, ¬R reason) :
    x.FaultsFor st R := by
  intro halt st''
  rw [h]
  constructor
  · rintro ⟨⟩
  · rintro ⟨-, reason, -, hreason⟩
    exact absurd hreason (hR reason)

theorem faultsFor_of_error {reason : Fault} (h : x st = .error (.fault reason) st)
    (hR : ∀ reason', R reason' ↔ reason' = reason) : x.FaultsFor st R := by
  intro halt st'
  rw [h]
  constructor
  · rintro ⟨⟩
    exact ⟨rfl, reason, rfl, (hR reason).2 rfl⟩
  · rintro ⟨rfl, reason', rfl, hreason⟩
    rw [(hR reason').1 hreason]

/-- That it stops at all, whatever for. -/
theorem FaultsFor.exists_iff (h : x.FaultsFor st R) :
    (∃ halt st', x st = .error halt st') ↔ ∃ reason, R reason := by
  constructor
  · rintro ⟨halt, st', hx⟩
    obtain ⟨-, reason, -, hreason⟩ := (h halt st').1 hx
    exact ⟨reason, hreason⟩
  · rintro ⟨reason, hreason⟩
    exact ⟨.fault reason, st, (h _ _).2 ⟨rfl, reason, rfl, hreason⟩⟩

/-- It is a matter of what the execution does in the state. -/
theorem FaultsFor.congr {y : Exec s α} {R' : Fault → Prop} (h : x.FaultsFor st R)
    (hxy : y st = x st) (hR : ∀ reason, R' reason ↔ R reason) : y.FaultsFor st R' := by
  intro halt st'
  rw [hxy, h halt st']
  simp only [hR]

theorem FaultsFor.apply {reason : Fault} (h : x.FaultsFor st R) (hreason : R reason) :
    x st = .error (.fault reason) st :=
  (h _ _).2 ⟨rfl, reason, rfl, hreason⟩

end Exec

/-! ## Memory -/

namespace Memory

variable {m : Memory} {site : Site} {address : Word}

theorem checkWord_eq :
    m.checkWord site address =
      if Word.Aligned address then m.checkRange site address 4
      else .error (.misaligned site address) := by
  by_cases ha : Word.Aligned address <;> simp [checkWord, checkAligned, ha, bind, Except.bind]

theorem readWord_eq_map :
    m.readWord site address =
      (m.checkWord site address).map fun _ => m.wordAt address.toNat := by
  rw [readWord]
  cases m.checkWord site address <;> rfl

theorem readByte_eq_map :
    m.readByte site address =
      (m.checkByte site address).map fun _ => m.byteAt address.toNat := by
  rw [readByte]
  cases m.checkByte site address <;> rfl

end Memory

namespace MemoryAccess

/-- How many bytes are read or written. -/
def width : MemoryAccess → Nat
  | loadWord | storeWord => 4
  | loadByte | loadByteUnsigned | storeByte => 1

/-- Why an access to a memory of `size` bytes is refused. That a word is misaligned comes before
that it is out of bounds. -/
inductive Refuses (kind : MemoryAccess) (size : Nat) (site : Site) (address : Word) :
    Fault → Prop where
  | misaligned (whole : kind.width = 4) (misaligned : ¬Word.Aligned address) :
      Refuses kind size site address (.misaligned site address)
  | outOfBounds (aligned : kind.width = 4 → Word.Aligned address)
      (past : size < address.toNat + kind.width) :
      Refuses kind size site address (.outOfBounds site address)

variable {kind : MemoryAccess} {m : Memory} {size : Nat} {site : Site} {address : Word}

theorem exists_refuses_iff :
    (∃ reason, kind.Refuses size site address reason) ↔
      (kind.width = 4 ∧ ¬Word.Aligned address) ∨ size < address.toNat + kind.width := by
  constructor
  · rintro ⟨reason, ⟨whole, misaligned⟩ | ⟨aligned, past⟩⟩
    · exact .inl ⟨whole, misaligned⟩
    · exact .inr past
  · rintro (⟨whole, misaligned⟩ | past)
    · exact ⟨_, .misaligned whole misaligned⟩
    · by_cases ha : Word.Aligned address
      · exact ⟨_, .outOfBounds (fun _ => ha) past⟩
      · by_cases whole : kind.width = 4
        · exact ⟨_, .misaligned whole ha⟩
        · exact ⟨_, .outOfBounds (fun h => absurd h whole) past⟩

/-- The check that comes before the access. -/
def check (kind : MemoryAccess) (m : Memory) (site : Site) (address : Word) : Except Fault Unit :=
  match kind with
  | loadWord | storeWord => m.checkWord site address
  | loadByte | loadByteUnsigned | storeByte => m.checkByte site address

theorem check_of_misaligned (whole : kind.width = 4) (misaligned : ¬Word.Aligned address) :
    kind.check m site address = .error (.misaligned site address) := by
  cases kind with
  | loadWord => rw [check, Memory.checkWord_eq, if_neg misaligned]
  | storeWord => rw [check, Memory.checkWord_eq, if_neg misaligned]
  | loadByte => cases whole
  | loadByteUnsigned => cases whole
  | storeByte => cases whole

theorem check_of_aligned (aligned : kind.width = 4 → Word.Aligned address) :
    kind.check m site address = m.checkRange site address kind.width := by
  cases kind with
  | loadWord => rw [check, Memory.checkWord_eq, if_pos (aligned rfl), width]
  | storeWord => rw [check, Memory.checkWord_eq, if_pos (aligned rfl), width]
  | loadByte => rfl
  | loadByteUnsigned => rfl
  | storeByte => rfl

theorem check_eq_error_iff {reason : Fault} :
    kind.check m site address = .error reason ↔ kind.Refuses m.size site address reason := by
  constructor
  · intro h
    by_cases hbad : kind.width = 4 ∧ ¬Word.Aligned address
    · rw [check_of_misaligned hbad.1 hbad.2] at h
      cases h
      exact .misaligned hbad.1 hbad.2
    · have aligned : kind.width = 4 → Word.Aligned address :=
        fun whole => Decidable.of_not_not fun ha => hbad ⟨whole, ha⟩
      rw [check_of_aligned aligned, Memory.checkRange] at h
      split at h
      · cases h
      · cases h
        exact .outOfBounds aligned (by omega)
  · rintro (⟨whole, misaligned⟩ | ⟨aligned, past⟩)
    · exact check_of_misaligned whole misaligned
    · rw [check_of_aligned aligned, Memory.checkRange, if_neg (by omega)]

end MemoryAccess

/-! ## The processor -/

namespace Processor

theorem access_of_check_error {kind : MemoryAccess} {site : Site} {b : Byte} {address : Word}
    {cpu : Processor} {reason : Fault}
    (h : kind.check cpu.memory site address = .error reason) :
    access kind site b address cpu = .error (.fault reason) cpu := by
  cases kind <;> dsimp only [MemoryAccess.check] at h
  case loadWord => simp [access, Memory.readWord_eq_map, h, Except.map]
  case loadByte => simp [access, Memory.readByte_eq_map, h, Except.map]
  case loadByteUnsigned => simp [access, Memory.readByte_eq_map, h, Except.map]
  case storeWord => simp [access, onMemory_apply, Memory.writeWord, h]
  case storeByte => simp [access, onMemory_apply, Memory.writeByte, h]

theorem access_of_check_ok {kind : MemoryAccess} {site : Site} {b : Byte} {address : Word}
    {cpu : Processor} (h : kind.check cpu.memory site address = .ok ()) :
    ∃ cpu', access kind site b address cpu = .ok () cpu' := by
  cases kind <;> dsimp only [MemoryAccess.check] at h
  case loadWord => simp [access, Memory.readWord_eq_map, h, Except.map]
  case loadByte => simp [access, Memory.readByte_eq_map, h, Except.map]
  case loadByteUnsigned => simp [access, Memory.readByte_eq_map, h, Except.map]
  case storeWord => simp [access, onMemory_apply, Memory.writeWord, h]
  case storeByte => simp [access, onMemory_apply, Memory.writeByte, h]

theorem access_faultsFor (kind : MemoryAccess) (site : Site) (b : Byte) (address : Word)
    (cpu : Processor) :
    (access kind site b address).FaultsFor cpu (kind.Refuses cpu.memory.size site address) := by
  cases hcheck : kind.check cpu.memory site address with
  | error reason =>
    refine Exec.faultsFor_of_error (access_of_check_error hcheck) fun reason' => ?_
    rw [← MemoryAccess.check_eq_error_iff, hcheck, Except.error.injEq, eq_comm]
  | ok =>
    obtain ⟨cpu', haccess⟩ := access_of_check_ok hcheck (b := b)
    refine Exec.faultsFor_of_ok haccess fun reason hreason => ?_
    rw [← MemoryAccess.check_eq_error_iff, hcheck] at hreason
    cases hreason

theorem jump_faultsFor (name : String) (target : Word) (cpu : Processor) :
    (jump name target).FaultsFor cpu fun reason =>
      ¬Word.Aligned target ∧ reason = .misaligned ⟨name, cpu.pc⟩ target := by
  have hjump := jump_apply name target cpu
  by_cases ha : Word.Aligned target
  · rw [if_pos ha] at hjump
    exact Exec.faultsFor_of_ok hjump fun reason hreason => hreason.1 ha
  · rw [if_neg ha] at hjump
    exact Exec.faultsFor_of_error hjump fun reason' => and_iff_right ha

end Processor

/-! ## Instructions -/

namespace Instruction

/-- Why an instruction that calls nothing is refused by a processor whose program counter is past
it. -/
inductive Refuses (cpu : Processor) : Instruction → Fault → Prop where
  | branch {op : Opcode} {f : ImmediateForm} {condition : Arithmetic.Condition}
      (role : op.role = .branch condition)
      (taken : condition.holds (cpu.register f.a) (cpu.register f.b))
      (misaligned : ¬Word.Aligned (cpu.pc + f.signed)) :
      Refuses cpu (.immediate op f) (.misaligned ⟨op.name, cpu.pc⟩ (cpu.pc + f.signed))
  | access {op : Opcode} {f : ImmediateForm} {kind : MemoryAccess} {reason : Fault}
      (role : op.role = .access kind)
      (refused : kind.Refuses cpu.memory.size ⟨op.name, cpu.pc⟩
        (cpu.register f.a + f.signed) reason) :
      Refuses cpu (.immediate op f) reason
  | ret {op : ExtendedOpcode} {f : RegisterForm} (role : op.role = .ret)
      (misaligned : ¬Word.Aligned (cpu.registers.read .returnAddress)) :
      Refuses cpu (.register op f)
        (.misaligned ⟨op.name, cpu.pc⟩ (cpu.registers.read .returnAddress))

theorem act_faultsFor (i : Instruction) (cpu : Processor) :
    i.act.FaultsFor cpu (i.Refuses cpu) := by
  cases i with
  | immediate op f =>
    rw [act]
    cases hrole : op.role with
    | compute g =>
      refine Exec.faultsFor_of_ok (Exec.modify_apply _ _) ?_
      rintro reason (⟨role, -, -⟩ | ⟨role, -⟩) <;> cases hrole.symm.trans role
    | branch condition =>
      by_cases htaken : condition.holds (cpu.register f.a) (cpu.register f.b)
      · refine (Processor.jump_faultsFor op.name (cpu.pc + f.signed) cpu).congr
          (by simp [htaken]) fun reason => ?_
        constructor
        · rintro (⟨role, taken, misaligned⟩ | ⟨role, refused⟩)
          · exact ⟨misaligned, rfl⟩
          · cases hrole.symm.trans role
        · rintro ⟨misaligned, rfl⟩
          exact .branch hrole htaken misaligned
      · refine Exec.faultsFor_of_ok (show _ = EStateM.Result.ok () cpu by simp [htaken]) ?_
        rintro reason (⟨role, taken, misaligned⟩ | ⟨role, refused⟩)
        · cases hrole.symm.trans role
          exact htaken taken
        · cases hrole.symm.trans role
    | access kind =>
      refine (Processor.access_faultsFor kind ⟨op.name, cpu.pc⟩ f.b
        (cpu.register f.a + f.signed) cpu).congr rfl fun reason => ?_
      constructor
      · rintro (⟨role, taken, misaligned⟩ | ⟨role, refused⟩)
        · cases hrole.symm.trans role
        · cases hrole.symm.trans role
          exact refused
      · exact .access hrole
    | call =>
      refine Exec.faultsFor_of_ok (Exec.pure_apply _ _) ?_
      rintro reason (⟨role, -, -⟩ | ⟨role, -⟩) <;> cases hrole.symm.trans role
    | registers =>
      refine Exec.faultsFor_of_ok (Exec.pure_apply _ _) ?_
      rintro reason (⟨role, -, -⟩ | ⟨role, -⟩) <;> cases hrole.symm.trans role
  | register op f =>
    rw [act]
    cases hrole : op.role with
    | compute g =>
      refine Exec.faultsFor_of_ok (Exec.modify_apply _ _) fun reason hrefuses => ?_
      cases hrefuses with
      | ret role misaligned => cases hrole.symm.trans role
    | shift g =>
      refine Exec.faultsFor_of_ok (Exec.modify_apply _ _) fun reason hrefuses => ?_
      cases hrefuses with
      | ret role misaligned => cases hrole.symm.trans role
    | ret =>
      refine (Processor.jump_faultsFor op.name _ cpu).congr rfl fun reason => ?_
      constructor
      · intro hrefuses
        cases hrefuses with
        | ret role misaligned => exact ⟨misaligned, rfl⟩
      · rintro ⟨misaligned, rfl⟩
        exact .ret hrole misaligned
    | callRegister =>
      refine Exec.faultsFor_of_ok (Exec.pure_apply _ _) fun reason hrefuses => ?_
      cases hrefuses with
      | ret role misaligned => cases hrole.symm.trans role
  | jump op f =>
    refine Exec.faultsFor_of_ok (Exec.pure_apply _ _) fun reason hrefuses => ?_
    cases hrefuses

end Instruction

/-! ## The machine -/

namespace Machine

variable {m : Machine σ}

theorem onProcessor_faultsFor {α : Type} {x : Exec Processor α} {R : Fault → Prop}
    (h : x.FaultsFor m.cpu R) : (onProcessor x).FaultsFor m R := by
  intro halt m'
  rw [onProcessor_apply]
  cases hx : x m.cpu with
  | ok a cpu =>
    constructor
    · rintro ⟨⟩
    · rintro ⟨-, reason, -, hreason⟩
      cases hx.symm.trans (h.apply hreason)
  | error halt' cpu =>
    obtain ⟨rfl, reason, rfl, hreason⟩ := (h halt' cpu).1 hx
    constructor
    · rintro ⟨⟩
      exact ⟨rfl, reason, rfl, hreason⟩
    · rintro ⟨rfl, reason', rfl, hreason'⟩
      cases hx.symm.trans (h.apply hreason')
      rfl

/-- A fetch is refused if the word at the program counter cannot be read. -/
theorem fetch_faultsFor (m : Machine σ) :
    fetch.FaultsFor m
      (MemoryAccess.loadWord.Refuses m.cpu.memory.size ⟨"fetch", m.cpu.pc⟩ m.cpu.pc) := by
  have hfetch := fetch_apply m
  rw [Memory.readWord_eq_map] at hfetch
  cases hcheck : m.cpu.memory.checkWord ⟨"fetch", m.cpu.pc⟩ m.cpu.pc with
  | ok =>
    rw [hcheck] at hfetch
    refine Exec.faultsFor_of_ok hfetch fun reason hreason => ?_
    cases hcheck.symm.trans (MemoryAccess.check_eq_error_iff.2 hreason)
  | error reason =>
    rw [hcheck] at hfetch
    refine Exec.faultsFor_of_error hfetch fun reason' => ?_
    have hcheck' : MemoryAccess.loadWord.check m.cpu.memory ⟨"fetch", m.cpu.pc⟩ m.cpu.pc =
        .error reason := hcheck
    rw [← MemoryAccess.check_eq_error_iff, hcheck', Except.error.injEq, eq_comm]

/-- The word that was fetched calls a function which has been compiled, so that its routine is
run. -/
def RunsRoutine (m : Machine σ) : Prop :=
  ∃ i target r, Instruction.decode m.cpu.ir = some i ∧ i.target? m.cpu = some target ∧
    m.calls.contains target = false ∧ m.config.compileOnDemand = true ∧
    m.cache.routine? target = some r

/-- Why the word that was fetched is refused. A call by its own word always goes to a multiple of
four, and a system call may have any address. -/
inductive Refuses (m : Machine σ) : Fault → Prop where
  | meaningless (strict : m.config.strictDecoding = true)
      (decode : Instruction.decode m.cpu.ir = none) :
      Refuses m (.illegalInstruction (m.cpu.pc - 4) m.cpu.ir)
  | instruction {i : Instruction} {reason : Fault} (decode : Instruction.decode m.cpu.ir = some i)
      (refused : i.Refuses m.cpu reason) : Refuses m reason
  | callRegister {op : ExtendedOpcode} {f : RegisterForm}
      (decode : Instruction.decode m.cpu.ir = some (.register op f))
      (role : op.role = .callRegister) (guest : m.calls.contains (m.cpu.register f.a) = false)
      (misaligned : ¬Word.Aligned (m.cpu.register f.a)) :
      Refuses m (.misaligned ⟨op.name, m.cpu.pc⟩ (m.cpu.register f.a))

/-- Only the target of a call through a register can be misaligned. -/
theorem refuses_of_target {i : Instruction} {target : Word}
    (hdecode : Instruction.decode m.cpu.ir = some i) (htarget : i.target? m.cpu = some target)
    {reason : Fault} :
    m.Refuses reason ↔ m.calls.contains target = false ∧ ¬Word.Aligned target ∧
      reason = .misaligned ⟨i.name, m.cpu.pc⟩ target := by
  constructor
  · rintro (⟨strict, decode⟩ | ⟨decode, refused⟩ | ⟨decode, role, guest, misaligned⟩)
    · cases hdecode.symm.trans decode
    · cases hdecode.symm.trans decode
      cases refused with
      | branch role taken misaligned => cases htarget
      | access role refused => cases htarget
      | ret role misaligned => simp [Instruction.target?, role] at htarget
    · cases hdecode.symm.trans decode
      obtain rfl : m.cpu.register _ = target := by simpa [Instruction.target?, role] using htarget
      exact ⟨guest, misaligned, rfl⟩
  · rintro ⟨guest, misaligned, rfl⟩
    cases i with
    | immediate op f => cases htarget
    | register op f =>
      cases hrole : op.role with
      | callRegister =>
        obtain rfl : m.cpu.register f.a = target := by
          simpa [Instruction.target?, hrole] using htarget
        exact .callRegister hdecode hrole guest misaligned
      | compute g => simp [Instruction.target?, hrole] at htarget
      | shift g => simp [Instruction.target?, hrole] at htarget
      | ret => simp [Instruction.target?, hrole] at htarget
    | jump op f =>
      obtain rfl : f.target m.cpu.pc = target := Option.some.inj htarget
      exact absurd (f.aligned_target m.cpu.pc) misaligned

/-- Where no routine is run, a call is a system call or a jump. -/
theorem call_faultsFor (fuel : Nat) (name : String) {target : Word}
    (hfree : m.config.compileOnDemand = true → m.cache.routine? target = none ∨
      m.calls.contains target = true) :
    (call fuel name target).FaultsFor m fun reason =>
      m.calls.contains target = false ∧ ¬Word.Aligned target ∧
        reason = .misaligned ⟨name, m.cpu.pc⟩ target := by
  cases hcontains : m.calls.contains target with
  | true =>
    exact Exec.faultsFor_of_ok (call_of_contains fuel name hcontains) fun reason h => by simp at h
  | false =>
    obtain ⟨m', hcall⟩ : ∃ m', call fuel name target m =
        if Word.Aligned target then .ok () m'
        else .error (.fault (.misaligned ⟨name, m.cpu.pc⟩ target)) m := by
      cases hon : m.config.compileOnDemand with
      | false => exact ⟨_, call_of_off fuel name hcontains hon⟩
      | true =>
        have hr : m.cache.routine? target = none := by simpa [hcontains] using hfree hon
        exact ⟨_, call_of_on fuel name hcontains hon hr⟩
    by_cases ha : Word.Aligned target
    · rw [if_pos ha] at hcall
      exact Exec.faultsFor_of_ok hcall fun reason h => h.2.1 ha
    · rw [if_neg ha] at hcall
      exact Exec.faultsFor_of_error hcall fun reason => by simp [ha]

theorem execute_faultsFor (hfree : ¬m.RunsRoutine) (fuel : Nat) :
    (execute fuel).FaultsFor m m.Refuses := by
  cases hdecode : Instruction.decode m.cpu.ir with
  | none =>
    have hexecute := (execute_of_none fuel hdecode).trans (passOver_apply m.cpu.ir m)
    cases hstrict : m.config.strictDecoding with
    | true =>
      rw [hstrict, if_pos rfl] at hexecute
      refine Exec.faultsFor_of_error hexecute fun reason => ⟨?_, ?_⟩
      · rintro (⟨strict, decode⟩ | ⟨decode, refused⟩ | ⟨decode, role, guest, misaligned⟩)
        · rfl
        · cases hdecode.symm.trans decode
        · cases hdecode.symm.trans decode
      · rintro rfl
        exact .meaningless hstrict hdecode
    | false =>
      rw [hstrict, if_neg Bool.false_ne_true] at hexecute
      refine Exec.faultsFor_of_ok hexecute ?_
      rintro reason (⟨strict, decode⟩ | ⟨decode, refused⟩ | ⟨decode, role, guest, misaligned⟩)
      · cases hstrict.symm.trans strict
      · cases hdecode.symm.trans decode
      · cases hdecode.symm.trans decode
  | some i =>
    cases htarget : i.target? m.cpu with
    | none =>
      refine (onProcessor_faultsFor (i.act_faultsFor m.cpu)).congr
        (execute_of_act fuel hdecode htarget) fun reason => ⟨?_, .instruction hdecode⟩
      rintro (⟨strict, decode⟩ | ⟨decode, refused⟩ | ⟨decode, role, guest, misaligned⟩)
      · cases hdecode.symm.trans decode
      · cases hdecode.symm.trans decode
        exact refused
      · cases hdecode.symm.trans decode
        simp [Instruction.target?, role] at htarget
    | some target =>
      refine (call_faultsFor fuel i.name ?_).congr (execute_of_target fuel hdecode htarget)
        fun reason => refuses_of_target hdecode htarget
      intro hon
      cases hcontains : m.calls.contains target with
      | true => exact .inr rfl
      | false =>
        cases hr : m.cache.routine? target with
        | none => exact .inl rfl
        | some r =>
          exact absurd ⟨i, target, r, hdecode, htarget, hcontains, hon, hr⟩ hfree

/-! ## Strict decoding -/

/-- The machine with strict decoding turned on or off. -/
def setStrictDecoding (on : Bool) (m : Machine σ) : Machine σ :=
  { m with config := { m.config with strictDecoding := on } }

theorem onGuest_setStrictDecoding {α : Type} (on : Bool) (x : Exec (Guest σ) α) (m : Machine σ) :
    onGuest x (m.setStrictDecoding on) = Exec.mapState (setStrictDecoding on) (onGuest x m) := by
  have hguest : (m.setStrictDecoding on).toGuest = m.toGuest := rfl
  rw [onGuest_apply, onGuest_apply, hguest]
  cases x m.toGuest <;> rfl

theorem call_setStrictDecoding (on : Bool) (fuel : Nat) (name : String) (target : Word)
    (m : Machine σ) :
    call fuel name target (m.setStrictDecoding on) =
      Exec.mapState (setStrictDecoding on) (call fuel name target m) := by
  cases hcontains : m.calls.contains target with
  | true =>
    rw [call_of_contains fuel name hcontains,
      call_of_contains fuel name (m := m.setStrictDecoding on) hcontains]
    rfl
  | false =>
    cases hon : m.config.compileOnDemand with
    | false =>
      rw [call_of_off fuel name hcontains hon,
        call_of_off fuel name (m := m.setStrictDecoding on) hcontains hon]
      split <;> rfl
    | true =>
      cases hr : m.cache.routine? target with
      | none =>
        rw [call_of_on fuel name hcontains hon hr,
          call_of_on fuel name (m := m.setStrictDecoding on) hcontains hon hr]
        split <;> rfl
      | some r =>
        rw [call_of_routine fuel name hcontains hon hr,
          call_of_routine fuel name (m := m.setStrictDecoding on) hcontains hon hr]
        exact onGuest_setStrictDecoding on (r.run m.calls #[] fuel)
          { m with cpu := m.cpu.link m.cpu.pc }

/-- What a word that means something does has nothing to do with how words are treated that mean
nothing. -/
theorem execute_setStrictDecoding {i : Instruction}
    (hdecode : Instruction.decode m.cpu.ir = some i) (on : Bool) (fuel : Nat) :
    execute fuel (m.setStrictDecoding on) =
      Exec.mapState (setStrictDecoding on) (execute fuel m) := by
  have hdecode' : Instruction.decode (m.setStrictDecoding on).cpu.ir = some i := hdecode
  cases htarget : i.target? m.cpu with
  | none =>
    rw [execute_of_act fuel hdecode htarget, execute_of_act fuel hdecode' htarget]
    exact onGuest_setStrictDecoding on _ m
  | some target =>
    rw [execute_of_target fuel hdecode htarget, execute_of_target fuel hdecode' htarget]
    exact call_setStrictDecoding on fuel i.name target m

/-! ## The whole cycle -/

/-- **When a fetch and an instruction are refused.** A fetch is refused exactly if the program
counter is no multiple of four or memory ends before the word does. If no routine is run, a word is
executed without a fault unless there is a reason to refuse it, and every reason leads to its fault.
In either case a refusal changes nothing. A word that means nothing is passed over if decoding is
not strict. A word that means something has a handler, and whether decoding is strict makes no
difference to it. -/
theorem fetch_execute_faultsFor (m : Machine σ) (fuel : Nat) :
    fetch.FaultsFor m
      (MemoryAccess.loadWord.Refuses m.cpu.memory.size ⟨"fetch", m.cpu.pc⟩ m.cpu.pc) ∧
    ((∃ halt m', fetch m = .error halt m') ↔
      ¬Word.Aligned m.cpu.pc ∨ m.cpu.memory.size < m.cpu.pc.toNat + 4) ∧
    (¬m.RunsRoutine → (execute fuel).FaultsFor m m.Refuses) ∧
    (Instruction.decode m.cpu.ir = none → m.config.strictDecoding = false →
      execute fuel m = .ok () m) ∧
    ∀ i, Instruction.decode m.cpu.ir = some i → i.Handled ∧
      ∀ on, execute fuel (m.setStrictDecoding on) =
        Exec.mapState (setStrictDecoding on) (execute fuel m) := by
  refine ⟨fetch_faultsFor m, ?_, fun hfree => execute_faultsFor hfree fuel, ?_, ?_⟩
  · rw [(fetch_faultsFor m).exists_iff, MemoryAccess.exists_refuses_iff]
    exact or_congr_left (and_iff_right rfl)
  · intro hdecode hstrict
    rw [execute_of_none fuel hdecode, passOver_apply, hstrict, if_neg Bool.false_ne_true]
  · intro i hdecode
    exact ⟨Instruction.handled_of_decode hdecode,
      fun on => execute_setStrictDecoding hdecode on fuel⟩

/-- A call through `r2`, which holds 6, on a machine that has compiled the function at 8. It is
refused, and `r31` still holds what it held before. -/
theorem fetch_execute_faultsFor_callr :
    let i := Instruction.ofRegisters .callr 2 0 31
    let cpu := ((Processor.zero 64).setRegister 2 6).setRegister 31 9
    let m : Machine (Array Byte) :=
      { Machine.new { compileOnDemand := true } #[] with
        cpu := { cpu with pc := 4, ir := i.encode }
        cache := ⟨[(8, .compiled ⟨8, #[.returnTo ⟨"ret", 12⟩], #[]⟩)]⟩ }
    ¬m.RunsRoutine ∧ execute 1 m = .error (.fault (.misaligned ⟨"callr", 4⟩ 6)) m ∧
      m.cpu.registers.read .returnAddress = 9 := by
  intro i cpu m
  have hdecode : Instruction.decode m.cpu.ir = some i := by decide
  have hfree : ¬m.RunsRoutine := by
    rintro ⟨i', target, r, hdecode', htarget, -, -, hr⟩
    obtain rfl := Option.some.inj (hdecode.symm.trans hdecode')
    obtain rfl : (6 : Word) = target := Option.some.inj htarget
    cases hr
  refine ⟨hfree, ?_, by decide⟩
  have hrefuses : m.Refuses (.misaligned ⟨"callr", 4⟩ 6) :=
    .callRegister hdecode rfl (by decide) (by decide)
  exact ((fetch_execute_faultsFor m 1).2.2.1 hfree).apply hrefuses

end Machine

end Risc32
