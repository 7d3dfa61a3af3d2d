import Risc32.Proofs.Compiled.Preservation

/-!
# What is true after any history

A machine is used through requests: to load and run programs in one way or the other, to execute
single instructions, to change registers, memory and settings. Requests may fail, and then others
follow. This file says what is true of the processor after any sequence of them
(`Machine.sound_after`).

One part of the machine answers for another. Routines in the cache run later, so they have to be
sound as long as they are there; the beginning and the end of the program become program counters,
so they have to be multiples of four. `Machine.Sound` is what all of this comes to, and every request
keeps it (`Machine.Request.keeps_sound`).
-/

set_option autoImplicit false

namespace Risc32

variable {σ : Type}

namespace RoutineCache

theorem allSound_empty : empty.AllSound := by
  intro entry r h
  simp [routine?, verdict?, empty] at h

theorem AllSound.consider {c : RoutineCache} (h : c.AllSound) (entry : Word) (m : Memory)
    (stop : Word) : (c.consider entry m stop).AllSound := by
  intro entry' r hr
  rcases routine?_consider hr with hr | ⟨-, hr⟩
  · exact h entry' r hr
  · exact Routine.ofFunction_sound hr

end RoutineCache

namespace Machine

/-- What is always true of a machine with `size` bytes of memory. -/
structure Sound (size : Nat) (m : Machine σ) : Prop where
  cpu : m.cpu.Sound size
  entryPoint : Word.Aligned m.entryPoint
  programEnd : Word.Aligned m.programEnd
  calls : m.calls.Keep size
  cache : m.cache.AllSound

variable {size : Nat} {m : Machine σ}

theorem sound_new [Console σ] (config : Config) (host : σ) :
    (new config host).Sound config.memorySize where
  cpu := Processor.sound_zero _
  entryPoint := rfl
  programEnd := rfl
  calls := by
    show (if config.defaultSystemCalls then _ else _ : SystemCalls σ).Keep _
    split
    · exact SystemCalls.keep_defaults _
    · exact SystemCalls.keep_empty _
  cache := RoutineCache.allSound_empty

theorem Sound.setGuest (h : m.Sound size) {g : Guest σ} (hg : g.Sound size) :
    Sound size { m with toGuest := g } :=
  ⟨hg, h.entryPoint, h.programEnd, h.calls, h.cache⟩

theorem keeps_onGuest {α : Type} {x : Exec (Guest σ) α} (h : Exec.Keeps (Guest.Sound size) x) :
    Exec.Keeps (Sound size) (onGuest x) :=
  keeps_onGuest_of (fun _ hm => hm.cpu) (fun _ _ hm hg => hm.setGuest hg) h

theorem keeps_onProcessor {α : Type} {x : Exec Processor α}
    (h : Exec.Keeps (Processor.Sound size) x) :
    Exec.Keeps (Sound (σ := σ) size) (onProcessor x) :=
  keeps_onGuest (Guest.keeps_onProcessor h)

/-! ## Executing -/

theorem keeps_fetch : Exec.Keeps (Sound (σ := σ) size) fetch := by
  refine keeps_onProcessor (Exec.keeps_bind_get fun cpu hcpu => Exec.keeps_bind_get fun _ _ => ?_)
  refine (Exec.keeps_ofExcept _).bind fun w => Exec.keeps_modify fun cpu' hcpu' => ?_
  exact ⟨hcpu.pc.next, hcpu'.slotZero, hcpu'.memory⟩

/-- A call runs an action, runs a routine, is refused, or is a jump after which the cache may hold
one routine more. -/
theorem keeps_call (fuel : Nat) (name : String) (target : Word) :
    Exec.Keeps (Sound (σ := σ) size) (call fuel name target) := by
  intro m hm
  have hlinked : Processor.Sound size (m.cpu.link m.cpu.pc) := hm.cpu.link _
  cases hcontains : m.calls.contains target with
  | true =>
    rw [Exec.state_of_ok (call_of_contains fuel name hcontains)]
    exact hm.setGuest (hm.calls.perform _ _ hm.cpu)
  | false =>
    cases hon : m.config.compileOnDemand with
    | false =>
      have hcall := call_of_off fuel name hcontains hon
      by_cases ha : Word.Aligned target
      · rw [if_pos ha] at hcall
        rw [Exec.state_of_ok hcall]
        exact ⟨hlinked.setPc ha, hm.entryPoint, hm.programEnd, hm.calls, hm.cache⟩
      · rw [if_neg ha] at hcall
        rwa [Exec.state_of_error hcall]
    | true =>
      cases hr : m.cache.routine? target with
      | some r =>
        -- The routine may leave by a fault, but was compiled to steps which are sound.
        rw [Exec.state, call_of_routine fuel name hcontains hon hr]
        have hrun : Exec.Keeps (Guest.Sound size) (r.run m.calls #[] fuel) :=
          Routine.keeps_runFrom hm.calls (fun _ _ hu => by simp at hu) fuel (hm.cache target r hr) 0
        exact keeps_onGuest hrun _
          ⟨hlinked, hm.entryPoint, hm.programEnd, hm.calls, hm.cache⟩
      | none =>
        have hcall := call_of_on fuel name hcontains hon hr
        by_cases ha : Word.Aligned target
        · rw [if_pos ha] at hcall
          rw [Exec.state_of_ok hcall]
          exact ⟨hlinked.setPc ha, hm.entryPoint, hm.programEnd, hm.calls,
            hm.cache.consider _ _ _⟩
        · rw [if_neg ha] at hcall
          rwa [Exec.state_of_error hcall]

theorem keeps_execute (fuel : Nat) : Exec.Keeps (Sound (σ := σ) size) (execute fuel) := by
  intro m hm
  cases hdecode : Instruction.decode m.cpu.ir with
  | none =>
    rw [Exec.state, execute_of_none fuel hdecode]
    exact keeps_passOver _ m hm
  | some i =>
    cases htarget : i.target? m.cpu with
    | none =>
      have hi := Instruction.namesRegister_of_decode hdecode
      rw [Exec.state, execute_of_act fuel hdecode htarget]
      exact keeps_onProcessor (Instruction.keeps_act hi size) m hm
    | some target =>
      rw [Exec.state, execute_of_target fuel hdecode htarget]
      exact keeps_call fuel i.name target m hm

/-- Any word can be executed. -/
theorem keeps_executeWord (fuel : Nat) (w : Word) :
    Exec.Keeps (Sound (σ := σ) size) (executeWord fuel w) := by
  refine (keeps_onProcessor ?_).bind fun _ => keeps_execute fuel
  exact Exec.keeps_modify fun _ h => ⟨h.pc, h.slotZero, h.memory⟩

theorem keeps_step (fuel : Nat) : Exec.Keeps (Sound (σ := σ) size) (step fuel) :=
  keeps_fetch.bind fun _ => keeps_execute fuel

/-! ## Programs -/

theorem keeps_setPc {pc : Word} (hpc : Word.Aligned pc) :
    Exec.Keeps (Sound (σ := σ) size) (setPc pc) :=
  keeps_onProcessor (Exec.keeps_modify fun _ h => h.setPc hpc)

theorem keeps_restart : Exec.Keeps (Sound (σ := σ) size) restart :=
  Exec.keeps_bind_get fun _ h => keeps_setPc h.entryPoint

theorem keeps_stop : Exec.Keeps (Sound (σ := σ) size) stop :=
  Exec.keeps_bind_get fun _ h => keeps_setPc h.programEnd

theorem keeps_resume (fuel : Nat) : Exec.Keeps (Sound (σ := σ) size) (resume fuel) :=
  keeps_resume_of_step keeps_step fuel

theorem keeps_run (fuel : Nat) : Exec.Keeps (Sound (σ := σ) size) (run fuel) :=
  keeps_restart.bind fun _ => keeps_resume fuel

/-- Instructions are words, so a program ends at a multiple of four. Where it begins depends on its
symbols. -/
theorem keeps_load {p : Program} (hentry : p.entryPoint % 4 = 0) :
    Exec.Keeps (Sound (σ := σ) size) (load p) := by
  refine (keeps_onProcessor (Processor.keeps_onMemory (Processor.keeps_load _ _))).bind fun _ => ?_
  refine Exec.keeps_modify fun m h => ?_
  exact ⟨h.cpu, (Word.aligned_ofNat_iff _).2 hentry,
    (Word.aligned_ofNat_iff _).2 (Nat.mul_mod_right 4 _), h.calls, RoutineCache.allSound_empty⟩

theorem keeps_runProgram (fuel : Nat) {p : Program} (hentry : p.entryPoint % 4 = 0) :
    Exec.Keeps (Sound (σ := σ) size) (runProgram fuel p) :=
  (keeps_load hentry).bind fun _ => keeps_run fuel

theorem keeps_runCompiled (fuel : Nat) {p : Program} (hentry : p.entryPoint % 4 = 0) :
    Exec.Keeps (Sound (σ := σ) size) (runCompiled fuel p) := by
  refine (keeps_load hentry).bind fun _ => Exec.keeps_bind_get fun m hm => ?_
  dsimp only
  split
  · exact Exec.keeps_throw _
  · next c hc =>
    obtain ⟨hmain, hunits⟩ := CompiledProgram.compile_sound hc
    have hrun := Routine.keeps_runFrom hm.calls hunits fuel hmain c.start
    exact keeps_restart.bind fun _ => (keeps_onGuest hrun).bind fun _ => keeps_stop

/-! ## Requests -/

/-- What can be asked of a machine. Runs take the fuel they may use. -/
inductive Request (σ : Type) where
  | load (p : Program)
  | runProgram (fuel : Nat) (p : Program)
  | runCompiled (fuel : Nat) (p : Program)
  | run (fuel : Nat)
  | resume (fuel : Nat)
  | step (fuel : Nat)
  | fetch
  | execute (fuel : Nat)
  | executeWord (fuel : Nat) (w : Word)
  | restart
  | stop
  | reset
  | setRegister (r : Register) (value : Word)
  | writeByte (address : Word) (b : Byte)
  | writeWord (address w : Word)
  | addSystemCall (c : SystemCall σ)
  | setCompileOnDemand (on : Bool)
  | setPc (pc : Word)

namespace Request

/-- The machine after a request, also after one that failed. -/
def perform (m : Machine σ) : Request σ → Machine σ
  | load p => (Machine.load p).state m
  | runProgram fuel p => (Machine.runProgram fuel p).state m
  | runCompiled fuel p => (Machine.runCompiled fuel p).state m
  | run fuel => (Machine.run fuel).state m
  | resume fuel => (Machine.resume fuel).state m
  | step fuel => (Machine.step fuel).state m
  | fetch => Machine.fetch.state m
  | execute fuel => (Machine.execute fuel).state m
  | executeWord fuel w => (Machine.executeWord fuel w).state m
  | restart => Machine.restart.state m
  | stop => Machine.stop.state m
  | reset => m.reset
  | setRegister r value => (onProcessor (modify (·.setRegister r.index value))).state m
  | writeByte address b =>
    (onProcessor (Processor.onMemory
      (Memory.writeByte ⟨"write_byte", m.cpu.pc⟩ address b))).state m
  | writeWord address w =>
    (onProcessor (Processor.onMemory
      (Memory.writeWord ⟨"write_word", m.cpu.pc⟩ address w))).state m
  | addSystemCall c => (m.addSystemCall? c).getD m
  | setCompileOnDemand on => m.setCompileOnDemand on
  | setPc pc => (Machine.setPc pc).state m

/-- What is asked of a request: that programs begin at a multiple of four and program counters are
one, and that actions leave the processor sound. -/
def Admissible (size : Nat) : Request σ → Prop
  | load p | runProgram _ p | runCompiled _ p => p.entryPoint % 4 = 0
  | addSystemCall c => c.Keeps size
  | setPc pc => Word.Aligned pc
  | _ => True

theorem keeps_sound {r : Request σ} (hr : r.Admissible size) (hm : m.Sound size) :
    (r.perform m).Sound size := by
  cases r with
  | load p => exact keeps_load hr m hm
  | runProgram fuel p => exact keeps_runProgram fuel hr m hm
  | runCompiled fuel p => exact keeps_runCompiled fuel hr m hm
  | run fuel => exact keeps_run fuel m hm
  | resume fuel => exact keeps_resume fuel m hm
  | step fuel => exact keeps_step fuel m hm
  | fetch => exact keeps_fetch m hm
  | execute fuel => exact keeps_execute fuel m hm
  | executeWord fuel w => exact keeps_executeWord fuel w m hm
  | restart => exact keeps_restart m hm
  | stop => exact keeps_stop m hm
  | reset =>
    have hsize : m.cpu.memory.size = size := hm.cpu.memory
    refine ⟨?_, hm.entryPoint, hm.programEnd, hm.calls, RoutineCache.allSound_empty⟩
    show (Processor.zero m.cpu.memory.size).Sound size
    rw [hsize]
    exact Processor.sound_zero size
  | setRegister r value =>
    exact keeps_onProcessor (Exec.keeps_modify fun _ h => h.setRegister r.index_lt value) m hm
  | writeByte address b =>
    exact keeps_onProcessor (Processor.keeps_onMemory (Processor.keeps_writeByte _ _ _)) m hm
  | writeWord address w =>
    exact keeps_onProcessor (Processor.keeps_onMemory (Processor.keeps_writeWord _ _ _)) m hm
  | addSystemCall c =>
    rw [perform, addSystemCall?]
    cases hadd : m.calls.add? c with
    | none => exact hm
    | some calls =>
      exact ⟨hm.cpu, hm.entryPoint, hm.programEnd, hm.calls.add? hr hadd, hm.cache⟩
  | setCompileOnDemand on => exact ⟨hm.cpu, hm.entryPoint, hm.programEnd, hm.calls, hm.cache⟩
  | setPc pc => exact keeps_setPc hr m hm

end Request

/-- The machine after requests, one after the other. -/
def after (m : Machine σ) (requests : List (Request σ)) : Machine σ :=
  requests.foldl Request.perform m

theorem Sound.after (hm : m.Sound size) {requests : List (Request σ)}
    (h : ∀ r ∈ requests, r.Admissible size) : (m.after requests).Sound size := by
  induction requests generalizing m with
  | nil => exact hm
  | cons r rest ih =>
    have hfirst := Request.keeps_sound (h r List.mem_cons_self) hm
    exact ih hfirst fun r' hr' => h r' (List.mem_cons_of_mem _ hr')

/-- **After any history.** Whatever was asked of a new machine, and whatever of it failed: the
program counter is a multiple of four, slot zero of the registers is zero, so that every index which
counts to it reads zero, and the memory has the size that the machine was made with. -/
theorem sound_after [Console σ] (config : Config) (host : σ) (requests : List (Request σ))
    (h : ∀ r ∈ requests, r.Admissible config.memorySize) :
    let m := (new config host).after requests
    m.cpu.pc.toNat % 4 = 0 ∧ m.cpu.registers.slots[0] = 0#32 ∧ m.cpu.registers.read 0 = 0#32 ∧
      (∀ index : Byte, index.toNat % 32 = 0 → m.cpu.registers.get index = 0#32) ∧
      m.cpu.memory.size = config.memorySize := by
  intro m
  have hm : m.Sound config.memorySize := (sound_new config host).after h
  exact ⟨hm.cpu.pc, hm.cpu.slotZero, rfl, fun _ => RegisterFile.get_eq_zero hm.cpu.slotZero,
    hm.cpu.memory⟩

/-- A program that calls a function and a system call. -/
def callsLeap : List String := [
  "main: call half",
  "      call leap",
  "      br   main",
  "half: movi r1, 1",
  "      ret"]

/-- An action that moves the program counter. -/
def leap : SystemCall (Array Byte) where
  name := "leap"
  address := 4000#32
  action cpu host := ({ cpu with pc := 12#32 }, host)

/-- A history in which a store and a word fail, a program is run in both ways, and an action moves
the program counter. -/
theorem sound_after_callsLeap :
    ∃ p, Program.ofLines callsLeap ⟨[("leap", 4000)], by simp⟩ = .ok p ∧ p.entryPoint % 4 = 0 ∧
      let requests : List (Request (Array Byte)) :=
        [.addSystemCall leap, .writeWord 2 7, .setCompileOnDemand true, .runProgram 9 p,
          .executeWord 0 0xFFFFFFFF#32, .runCompiled 9 p, .setPc 8]
      let m := (new { memorySize := 64, strictDecoding := true } #[]).after requests
      m.cpu.pc.toNat % 4 = 0 ∧ m.cpu.registers.slots[0] = 0#32 ∧ m.cpu.memory.size = 64 := by
  have haccepted : (Program.ofLines callsLeap ⟨[("leap", 4000)], by simp⟩).toOption.any fun p =>
      decide (p.entryPoint % 4 = 0) := by decide +kernel
  obtain ⟨p, h, hp⟩ := any_toOption haccepted
  have hentry := of_decide_eq_true hp
  have hleap : leap.Keeps 64 := fun cpu host hcpu => hcpu.setPc (by decide)
  refine ⟨p, h, hentry, ?_⟩
  intro requests m
  have hadmissible : ∀ r ∈ requests, r.Admissible 64 := by
    intro r hr
    simp only [requests, List.mem_cons, List.not_mem_nil, or_false] at hr
    rcases hr with rfl | rfl | rfl | rfl | rfl | rfl | rfl
    · exact hleap
    · trivial
    · trivial
    · exact hentry
    · trivial
    · exact hentry
    · exact (by decide : Word.Aligned 8)
  obtain ⟨hpc, hslot, -, -, hsize⟩ := sound_after { memorySize := 64, strictDecoding := true } #[]
    requests hadmissible
  exact ⟨hpc, hslot, hsize⟩

end Machine

end Risc32
