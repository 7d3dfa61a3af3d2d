import Risc32.Proofs.Compiled.Agreement

/-!
# What every execution preserves

Three things are always true of a processor: its program counter is a multiple of four, slot zero
of its registers is zero, and its memory has the size it began with (`Processor.Sound`). An
execution keeps such a property if it is true of the state that the execution leaves, also when it
stops early (`Exec.Keeps`). That an execution is put together from others carries over to this, so
the proofs below follow the programs they are about.

Slot zero is not out of reach: an index that is a multiple of thirty-two and not zero counts to it.
What keeps it zero is that a register field has five bits (`Instruction.NamesRegister`).
-/

set_option autoImplicit false

namespace Risc32

/-! ## Executions -/

namespace Exec

variable {s α β : Type} {P : s → Prop}

/-- The state that an execution leaves, however it ends. -/
def state (x : Exec s α) (st : s) : s :=
  match x st with
  | .ok _ st => st
  | .error _ st => st

/-- A property of the state that survives the execution, also if it stops early. -/
def Keeps (P : s → Prop) (x : Exec s α) : Prop :=
  ∀ st, P st → P (x.state st)

theorem state_of_ok {x : Exec s α} {st st' : s} {a : α} (h : x st = .ok a st') :
    x.state st = st' := by
  rw [state, h]

theorem state_of_error {x : Exec s α} {st st' : s} {halt : Halt} (h : x st = .error halt st') :
    x.state st = st' := by
  rw [state, h]

theorem state_congr {x y : Exec s α} {st st' : s} (h : x st = y st') :
    x.state st = y.state st' := by
  rw [state, h]
  rfl

theorem keeps_pure (a : α) : Keeps P (pure a) :=
  fun _ h => h

theorem keeps_throw (halt : Halt) : Keeps P (throw halt : Exec s α) :=
  fun _ h => h

theorem keeps_raise (reason : Fault) : Keeps P (raise reason : Exec s α) :=
  fun _ h => h

theorem keeps_ofExcept (x : Except Fault α) : Keeps P (ofExcept x : Exec s α) := by
  cases x with
  | ok a => exact keeps_pure a
  | error reason => exact keeps_raise reason

theorem keeps_modify {f : s → s} (h : ∀ st, P st → P (f st)) : Keeps P (modify f) :=
  h

theorem Keeps.bind {x : Exec s α} {f : α → Exec s β} (hx : Keeps P x) (hf : ∀ a, Keeps P (f a)) :
    Keeps P (x >>= f) := by
  intro st hst
  have hkeeps := hx st hst
  rw [state, bind_apply]
  cases h : x st with
  | ok a st' =>
    rw [state_of_ok h] at hkeeps
    exact hf a st' hkeeps
  | error halt st' =>
    rw [state_of_error h] at hkeeps
    exact hkeeps

/-- What is read of the state has the property too. -/
theorem keeps_bind_get {f : s → Exec s β} (h : ∀ st, P st → Keeps P (f st)) :
    Keeps P (get >>= f) :=
  fun st hst => h st hst st hst

end Exec

/-! ## Registers -/

theorem Register.index_lt (r : Register) : r.index.toNat < 32 := by
  have hlt := r.isLt
  rw [index, BitVec.toNat_ofNat]
  omega

namespace RegisterFile

/-- No index below thirty-two but zero counts to slot zero, and at index zero nothing is
written. -/
theorem slots_zero_set (file : RegisterFile) {index : Byte} (h : index.toNat < 32) (value : Word) :
    (file.set index value).slots[slot 0] = file.slots[slot 0] := by
  rw [set]
  split
  · rfl
  · next hne =>
    have hpos : index.toNat % 32 ≠ 0 := by
      intro hzero
      apply hne
      apply BitVec.eq_of_toNat_eq
      rw [BitVec.toNat_ofNat]
      omega
    exact Vector.getElem_set_ne (slot index).isLt (by decide) hpos

/-- If slot zero is zero, then so is what every index reads that counts to it. -/
theorem get_eq_zero {file : RegisterFile} (h : file.slots[slot 0] = 0#32) {index : Byte}
    (hindex : index.toNat % 32 = 0) : file.get index = 0#32 := by
  rw [get]
  split
  · rfl
  · have hslot : slot index = slot 0 := Fin.ext hindex
    simpa only [hslot] using h

end RegisterFile

/-! ## The processor -/

/-- What is always true of a processor with `size` bytes of memory. -/
structure Processor.Sound (size : Nat) (cpu : Processor) : Prop where
  pc : Word.Aligned cpu.pc
  slotZero : cpu.registers.slots[RegisterFile.slot 0] = 0#32
  memory : cpu.memory.size = size

theorem Word.Aligned.next {a : Word} (h : Aligned a) : Aligned (a + 4) := by
  rw [aligned_add_iff h]
  decide

namespace Processor

variable {size : Nat} {cpu : Processor}

theorem sound_zero (size : Nat) : (zero size).Sound size where
  pc := rfl
  slotZero := rfl
  memory := Memory.size_zero size

theorem Sound.setPc (h : cpu.Sound size) {pc : Word} (hpc : Word.Aligned pc) :
    Sound size { cpu with pc := pc } :=
  ⟨hpc, h.slotZero, h.memory⟩

theorem Sound.setMemory (h : cpu.Sound size) {memory : Memory} (hmemory : memory.size = size) :
    Sound size { cpu with memory := memory } :=
  ⟨h.pc, h.slotZero, hmemory⟩

theorem Sound.setRegister (h : cpu.Sound size) {index : Byte} (hindex : index.toNat < 32)
    (value : Word) : (cpu.setRegister index value).Sound size :=
  ⟨h.pc, (cpu.registers.slots_zero_set hindex value).trans h.slotZero, h.memory⟩

theorem Sound.link (h : cpu.Sound size) (address : Word) : (cpu.link address).Sound size :=
  h.setRegister (Register.index_lt .returnAddress) address

theorem keeps_onMemory {α : Type} {x : Exec Memory α} (h : Exec.Keeps (·.size = size) x) :
    Exec.Keeps (Sound size) (onMemory x) := by
  intro cpu hcpu
  have hmemory := h cpu.memory hcpu.memory
  rw [Exec.state, onMemory_apply]
  rw [Exec.state] at hmemory
  cases hx : x cpu.memory with
  | ok a memory => exact hcpu.setMemory (by rwa [hx] at hmemory)
  | error halt memory => exact hcpu.setMemory (by rwa [hx] at hmemory)

theorem keeps_writeByte (site : Site) (address : Word) (b : Byte) :
    Exec.Keeps (·.size = size) (Memory.writeByte site address b) := by
  refine Exec.keeps_bind_get fun m _ => (Exec.keeps_ofExcept _).bind fun _ => ?_
  exact Exec.keeps_modify fun m h => (Memory.size_putByte _ _ _).trans h

theorem keeps_writeWord (site : Site) (address w : Word) :
    Exec.Keeps (·.size = size) (Memory.writeWord site address w) := by
  refine Exec.keeps_bind_get fun m _ => (Exec.keeps_ofExcept _).bind fun _ => ?_
  exact Exec.keeps_modify fun m h => (Memory.size_putWord _ _ _).trans h

theorem keeps_load (address : Word) (bs : List Byte) :
    Exec.Keeps (·.size = size) (Memory.load address bs) := by
  refine Exec.keeps_bind_get fun m _ => (Exec.keeps_ofExcept _).bind fun _ => ?_
  exact Exec.keeps_modify fun m h => (Memory.size_putBytes _ _ _).trans h

/-- A load writes one register and a store writes memory. -/
theorem keeps_access (kind : MemoryAccess) (site : Site) {b : Byte} (hb : b.toNat < 32)
    (address : Word) : Exec.Keeps (Sound size) (access kind site b address) := by
  cases kind with
  | loadWord =>
    refine Exec.keeps_bind_get fun _ _ => (Exec.keeps_ofExcept _).bind fun _ => ?_
    exact Exec.keeps_modify fun _ h => h.setRegister hb _
  | loadByte =>
    refine Exec.keeps_bind_get fun _ _ => (Exec.keeps_ofExcept _).bind fun _ => ?_
    exact Exec.keeps_modify fun _ h => h.setRegister hb _
  | loadByteUnsigned =>
    refine Exec.keeps_bind_get fun _ _ => (Exec.keeps_ofExcept _).bind fun _ => ?_
    exact Exec.keeps_modify fun _ h => h.setRegister hb _
  | storeWord => exact Exec.keeps_bind_get fun _ _ => keeps_onMemory (keeps_writeWord _ _ _)
  | storeByte => exact Exec.keeps_bind_get fun _ _ => keeps_onMemory (keeps_writeByte _ _ _)

/-- A jump is refused if it does not go to a multiple of four. -/
theorem keeps_jump (name : String) (target : Word) :
    Exec.Keeps (Sound size) (jump name target) := by
  intro cpu hcpu
  rw [Exec.state, jump_apply]
  by_cases ha : Word.Aligned target
  · rw [if_pos ha]
    exact hcpu.setPc ha
  · rw [if_neg ha]
    exact hcpu

end Processor

/-! ## System calls -/

/-- Every action keeps the property of the guest. -/
def SystemCalls.Keeping {σ : Type} (P : Guest σ → Prop) (t : SystemCalls σ) : Prop :=
  ∀ c ∈ t.calls, ∀ (cpu : Processor) (host : σ), P ⟨cpu, host⟩ →
    P ⟨(c.action cpu host).1, (c.action cpu host).2⟩

namespace SystemCalls

variable {σ : Type} {P : Guest σ → Prop} {t t' : SystemCalls σ} {c : SystemCall σ}

theorem Keeping.invoke? (h : t.Keeping P) (address : Word) {g : Guest σ} (hg : P g) :
    P ((t.invoke? address g).getD g) := by
  obtain ⟨cpu, host⟩ := g
  cases hfind : t.find? address with
  | none =>
    simp only [SystemCalls.invoke?, hfind]
    exact hg
  | some c =>
    simp only [SystemCalls.invoke?, hfind]
    exact h c (List.mem_of_find?_eq_some hfind) cpu host hg

theorem calls_add? (hadd : t.add? c = some t') : t'.calls = c :: t.calls := by
  rw [SystemCalls.add?] at hadd
  split at hadd
  · cases hadd
  · next hinsert =>
    obtain rfl := Option.some.inj hadd
    exact SystemCalls.insertCall_eq_cons (SymbolTable.insert?_eq_some hinsert).1

theorem Keeping.add? (h : t.Keeping P)
    (hc : ∀ (cpu : Processor) (host : σ), P ⟨cpu, host⟩ →
      P ⟨(c.action cpu host).1, (c.action cpu host).2⟩)
    (hadd : t.add? c = some t') : t'.Keeping P := by
  intro c' hc'
  rw [calls_add? hadd] at hc'
  rcases List.mem_cons.1 hc' with rfl | hc'
  · exact hc
  · exact h c' hc'

end SystemCalls

/-! ## Instructions -/

namespace Instruction

/-- The field for the register that is written names one of the thirty-two. -/
def NamesRegister : Instruction → Prop
  | immediate _ f => f.b.toNat < 32
  | register _ f => f.c.toNat < 32
  | jump _ _ => True

/-- A register field of a word has five bits. -/
theorem namesRegister_of_decode {w : Word} {i : Instruction} (h : decode w = some i) :
    i.NamesRegister := by
  have hfield : ∀ x : BitVec 5, (x.setWidth 8).toNat < 32 := by
    intro x
    rw [BitVec.toNat_setWidth]
    omega
  have hviews := views_of_decode h
  cases i with
  | immediate op f =>
    obtain ⟨-, rfl⟩ := hviews
    exact hfield _
  | register op f =>
    obtain rfl : f = RegisterForm.decode w := hviews
    exact hfield _
  | jump op f => trivial

/-- No instruction that is no call does harm. -/
theorem keeps_act {i : Instruction} (h : i.NamesRegister) (size : Nat) :
    Exec.Keeps (Processor.Sound size) i.act := by
  cases i with
  | immediate op f =>
    rw [act]
    cases op.role with
    | compute g => exact Exec.keeps_modify fun _ hcpu => hcpu.setRegister h _
    | branch condition =>
      refine Exec.keeps_bind_get fun cpu _ => ?_
      split
      · exact Processor.keeps_jump _ _
      · exact Exec.keeps_pure _
    | access kind => exact Exec.keeps_bind_get fun _ _ => Processor.keeps_access kind _ h _
    | call => exact Exec.keeps_pure _
    | registers => exact Exec.keeps_pure _
  | register op f =>
    rw [act]
    cases op.role with
    | compute g => exact Exec.keeps_modify fun _ hcpu => hcpu.setRegister h _
    | shift g => exact Exec.keeps_modify fun _ hcpu => hcpu.setRegister h _
    | ret => exact Exec.keeps_bind_get fun _ _ => Processor.keeps_jump _ _
    | callRegister => exact Exec.keeps_pure _
  | jump op f => exact Exec.keeps_pure _

end Instruction

/-! ## The machine -/

namespace Machine

variable {σ : Type} {P : Machine σ → Prop}

/-- A machine has what its guest has, as far as the rest of it is not concerned. -/
theorem keeps_onGuest_of {α : Type} {Q : Guest σ → Prop} {x : Exec (Guest σ) α}
    (hguest : ∀ m, P m → Q m.toGuest) (hmachine : ∀ m g, P m → Q g → P { m with toGuest := g })
    (h : Exec.Keeps Q x) : Exec.Keeps P (onGuest x) := by
  intro m hm
  have hg := h m.toGuest (hguest m hm)
  rw [Exec.state] at hg
  rw [Exec.state, onGuest_apply]
  cases hx : x m.toGuest with
  | ok a g =>
    rw [hx] at hg
    exact hmachine m g hm hg
  | error halt g =>
    rw [hx] at hg
    exact hmachine m g hm hg

theorem keeps_passOver (w : Word) : Exec.Keeps P (passOver w) := by
  refine Exec.keeps_bind_get fun m _ => ?_
  split
  · exact Exec.keeps_raise _
  · exact Exec.keeps_pure _

/-- What a step keeps is kept by a run. -/
theorem keeps_resume_of_step (h : ∀ fuel, Exec.Keeps P (step fuel)) (fuel : Nat) :
    Exec.Keeps P (resume fuel) := by
  induction fuel with
  | zero => exact Exec.keeps_throw _
  | succ fuel ih =>
    refine Exec.keeps_bind_get fun m _ => ?_
    split
    · exact (h fuel).bind fun _ => ih
    · exact Exec.keeps_pure _

end Machine

end Risc32
