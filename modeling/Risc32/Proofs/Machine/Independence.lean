import Risc32.Proofs.Machine.Actions
import Risc32.Proofs.Machine.Histories

/-!
# What a run of a program depends on

A machine that runs a program has a past: where its program counter was, what it fetched, which
program it had loaded and what of it was compiled. None of this reaches the run. Loading overwrites
where the program begins and ends and forgets all routines, going to the beginning overwrites the
program counter, and the word fetched last is overwritten by the first fetch. So the run is
determined by registers, memory, settings, and by what the system calls do
(`Machine.runProgram_determined`).

The word fetched last is left over if the run ends without a fetch. It is the one thing in which the
outcomes may differ.
-/

set_option autoImplicit false

namespace Risc32

variable {σ : Type}

/-! ## Tables -/

/-- The tables have the same actions at the same addresses. They may have got them in another
order and under other names. -/
def SystemCalls.SameActions (t t' : SystemCalls σ) : Prop :=
  ∀ address, (t'.find? address).map (·.action) = (t.find? address).map (·.action)

namespace SystemCalls

variable {t t' : SystemCalls σ}

theorem SameActions.refl (t : SystemCalls σ) : t.SameActions t :=
  fun _ => rfl

theorem SameActions.maps (h : t.SameActions t') : t.Maps id t' where
  contains address := by
    rw [contains, contains, ← Option.isSome_map (f := (·.action)), h address, Option.isSome_map]
  invoke address g := by
    have hfind := h address
    show t'.invoke? address g = (t.invoke? address g).map id
    rw [Option.map_id_fun, id]
    obtain ⟨cpu, host⟩ := g
    cases hc : t.find? address with
    | none =>
      rw [hc, Option.map_none, Option.map_eq_none_iff] at hfind
      simp only [invoke?, hc, hfind]
    | some c =>
      rw [hc, Option.map_some, Option.map_eq_some_iff] at hfind
      obtain ⟨c', hc', haction⟩ := hfind
      simp only [invoke?, hc, hc', haction]

end SystemCalls

namespace Machine

/-! ## The word fetched last -/

/-- The machine with another word fetched last. -/
def withIr (w : Word) (m : Machine σ) : Machine σ :=
  { m with cpu := { m.cpu with ir := w } }

/-- An outcome is its own image under the word that it left. -/
theorem exists_mapState_withIr (outcome : EStateM.Result Halt (Machine σ) Unit) :
    ∃ w, outcome = Exec.mapState (withIr w) outcome := by
  cases outcome with
  | ok a m => exact ⟨m.cpu.ir, rfl⟩
  | error halt m => exact ⟨m.cpu.ir, rfl⟩

/-- The word fetched last makes no difference to a run, except that it is left over from a run that
fetches none. -/
theorem resume_withIr (m : Machine σ) (w : Word) (fuel : Nat) :
    ∃ w', resume fuel (m.withIr w) = Exec.mapState (withIr w') (resume fuel m) := by
  cases fuel with
  | zero => exact ⟨w, rfl⟩
  | succ fuel =>
    by_cases hlt : m.cpu.pc < m.programEnd
    · have hlt' : (m.withIr w).cpu.pc < (m.withIr w).programEnd := hlt
      rw [resume_of_lt fuel hlt, resume_of_lt fuel hlt']
      cases hread : m.cpu.memory.readWord ⟨"fetch", m.cpu.pc⟩ m.cpu.pc with
      | error reason =>
        have hread' : (m.withIr w).cpu.memory.readWord ⟨"fetch", (m.withIr w).cpu.pc⟩
            (m.withIr w).cpu.pc = .error reason := hread
        rw [step_of_error fuel hread, step_of_error fuel hread']
        exact ⟨w, rfl⟩
      | ok w₀ =>
        -- From the first fetch on it is the same run.
        have hread' : (m.withIr w).cpu.memory.readWord ⟨"fetch", (m.withIr w).cpu.pc⟩
            (m.withIr w).cpu.pc = .ok w₀ := hread
        have hstep : step fuel (m.withIr w) = step fuel m := by
          rw [step_of_ok fuel hread, step_of_ok fuel hread']
          rfl
        rw [hstep]
        exact exists_mapState_withIr _
    · have hlt' : ¬(m.withIr w).cpu.pc < (m.withIr w).programEnd := hlt
      rw [resume_of_ge fuel hlt, resume_of_ge fuel hlt']
      exact ⟨w, rfl⟩

/-! ## Runs of a program -/

/-- The machines are set up alike for a program: they have the same settings, system calls, host,
registers and memory. -/
structure SameSetup (m m' : Machine σ) : Prop where
  config : m'.config = m.config
  calls : m.calls.SameActions m'.calls
  host : m'.host = m.host
  data : m.cpu.SameData m'.cpu

/-- Two machines that are set up alike run a program alike. -/
theorem SameSetup.runProgram {m m' : Machine σ} (h : SameSetup m m') {p : Program}
    (hfits : p.image.length ≤ m.cpu.memory.size) (fuel : Nat) :
    ∃ w, Machine.runProgram fuel p m' = Exec.mapState
      (fun n => { n with cpu := { n.cpu with ir := w }, calls := m'.calls })
      (Machine.runProgram fuel p m) := by
  have hfits' : p.image.length ≤ m'.cpu.memory.size := by rwa [h.data.memory]
  have hprepared : m'.prepared p = ((m.prepared p).withIr m'.cpu.ir).mapHost id m'.calls := by
    simp only [prepared, loaded, withIr, mapHost, Guest.mapHost, h.config, h.host,
      h.data.registers, h.data.memory, id]
  have hmaps : ((m.prepared p).withIr m'.cpu.ir).calls.Maps id m'.calls := h.calls.maps
  obtain ⟨w, hresume⟩ := resume_withIr (m.prepared p) m'.cpu.ir fuel
  refine ⟨w, ?_⟩
  rw [runProgram_of_fits fuel hfits, runProgram_of_fits fuel hfits', hprepared,
    resume_mapHost hmaps, hresume]
  cases resume fuel (m.prepared p) <;> rfl

/-! ## Histories -/

/-- The memory has `size` bytes, as the settings say, and no action changes that. -/
structure SizeKept (size : Nat) (m : Machine σ) : Prop where
  calls : m.calls.Keeping fun g => g.cpu.HasMemory size
  config : m.config.memorySize = size
  memory : m.cpu.HasMemory size

variable {size : Nat} {m : Machine σ}

theorem sheltered_hasMemory (size : Nat) :
    Guest.Sheltered fun g : Guest σ => g.cpu.HasMemory size :=
  fun _ _ hg hsize => hsize.trans hg

/-- An execution that keeps the size of memory, and the settings, whatever they are. -/
theorem SizeKept.state {x : Exec (Machine σ) Unit} (hm : m.SizeKept size)
    (hx : Exec.Keeps (GuestKept m.calls m.config fun g => g.cpu.HasMemory size) x) :
    (x.state m).SizeKept size := by
  have hkept := hx m ⟨rfl, rfl, hm.memory⟩
  refine ⟨?_, ?_, hkept.guest⟩
  · rw [hkept.calls]
    exact hm.calls
  · rw [hkept.config, hm.config]

/-- What is asked of a request here: that actions leave memory its size. -/
def Request.KeepsSize (size : Nat) : Request σ → Prop
  | addSystemCall c => ∀ (cpu : Processor) (host : σ), cpu.HasMemory size →
      (c.action cpu host).1.HasMemory size
  | _ => True

theorem Request.sizeKept {r : Request σ} (hr : r.KeepsSize size) (hm : m.SizeKept size) :
    (r.perform m).SizeKept size := by
  have hP := sheltered_hasMemory (σ := σ) size
  cases r with
  | load p => exact hm.state (keepsSheltered_load hP p)
  | runProgram fuel p => exact hm.state (keepsSheltered_runProgram hP hm.calls fuel p)
  | runCompiled fuel p => exact hm.state (keepsSheltered_runCompiled hP hm.calls fuel p)
  | run fuel => exact hm.state (keepsSheltered_run hP hm.calls fuel)
  | resume fuel => exact hm.state (keepsSheltered_resume hP hm.calls fuel)
  | step fuel => exact hm.state (keepsSheltered_step hP hm.calls fuel)
  | fetch => exact hm.state (keepsSheltered_fetch hP)
  | execute fuel => exact hm.state (keepsSheltered_execute hP hm.calls fuel)
  | executeWord fuel w => exact hm.state (keepsSheltered_executeWord hP hm.calls fuel w)
  | restart => exact hm.state (keepsSheltered_restart hP)
  | stop => exact hm.state (keepsSheltered_stop hP)
  | reset => exact ⟨hm.calls, hm.config, (Memory.size_zero _).trans hm.memory⟩
  | setRegister r value =>
    have hset : ∀ size', Exec.Keeps (Processor.HasMemory size')
        (modify (·.setRegister r.index value)) := fun _ => Exec.keeps_modify fun _ h => h
    exact hm.state (keepsSheltered_onProcessor hP hset)
  | writeByte address b =>
    exact hm.state (keepsSheltered_onProcessor hP fun _ =>
      Processor.keepsMemory_onMemory (Processor.keeps_writeByte _ _ _))
  | writeWord address w =>
    exact hm.state (keepsSheltered_onProcessor hP fun _ =>
      Processor.keepsMemory_onMemory (Processor.keeps_writeWord _ _ _))
  | addSystemCall c =>
    rw [perform, addSystemCall?]
    cases hadd : m.calls.add? c with
    | none => exact hm
    | some calls => exact ⟨hm.calls.add? hr hadd, hm.config, hm.memory⟩
  | setCompileOnDemand on => exact ⟨hm.calls, hm.config, hm.memory⟩
  | setPc pc => exact hm.state (keepsSheltered_setPc hP pc)

theorem SizeKept.after (hm : m.SizeKept size) {requests : List (Request σ)}
    (h : ∀ r ∈ requests, r.KeepsSize size) : (m.after requests).SizeKept size := by
  induction requests generalizing m with
  | nil => exact hm
  | cons r rest ih =>
    have hfirst := Request.sizeKept (h r List.mem_cons_self) hm
    exact ih hfirst fun r' hr' => h r' (List.mem_cons_of_mem _ hr')

end Machine

end Risc32
