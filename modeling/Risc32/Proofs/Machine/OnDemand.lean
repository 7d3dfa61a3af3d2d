import Risc32.Proofs.Compiled.OnDemand
import Risc32.Proofs.Compiled.Agreement
import Risc32.Proofs.Machine.Recording

/-!
# Compilation on demand changes nothing

Two machines run the same program, one with compilation on demand and one without. As long as the
program stays in memory as it was loaded, both come to the same end.

The proof follows the machine without compilation. At every instruction it reaches, the other
machine looks the same and every routine it has compiled is the routine of a function of the loaded
program (`Machine.Compiling`). One step of the first is one step of the second, except at a call of
a compiled function: there the second runs a whole routine, and the first as many instructions as
the routine has steps (`Machine.routine_alike`).
-/

set_option autoImplicit false

namespace Risc32

variable {σ : Type}

/-- The guests are the same up to the word fetched last. -/
structure Guest.Alike (g g' : Guest σ) : Prop where
  data : g.cpu.SameData g'.cpu
  pc : g'.cpu.pc = g.cpu.pc
  host : g'.host = g.host

theorem Guest.Alike.refl (g : Guest σ) : g.Alike g :=
  ⟨.refl _, rfl, rfl⟩

/-- Both machines stop for the same reason, and their guests are alike. -/
inductive Machine.SameOutcome :
    EStateM.Result Halt (Machine σ) Unit → EStateM.Result Halt (Machine σ) Unit → Prop where
  | ok {m m' : Machine σ} (alike : m.toGuest.Alike m'.toGuest) : SameOutcome (.ok () m) (.ok () m')
  | error {halt : Halt} {m m' : Machine σ} (alike : m.toGuest.Alike m'.toGuest) :
      SameOutcome (.error halt m) (.error halt m')

theorem Machine.SameOutcome.ends {r r' : EStateM.Result Halt (Machine σ) Unit}
    (h : SameOutcome r r') (hends : Exec.Ends r) : Exec.Ends r' := by
  cases h with
  | ok => exact .ok _ _
  | error => exact Exec.ends_error_iff.2 (Exec.ends_error_iff.1 hends)

/-! ## The cache -/

namespace RoutineCache

/-- Every routine in the cache is the routine of a function in the memory given. -/
def Sound (c : RoutineCache) (m : Memory) (stop : Word) : Prop :=
  ∀ entry r, c.routine? entry = some r → Routine.ofFunction m entry stop = .ok r

theorem sound_empty (m : Memory) (stop : Word) : empty.Sound m stop := by
  intro entry r h
  simp [routine?, verdict?, empty] at h

theorem Sound.consider {c : RoutineCache} {m m' : Memory} {stop : Word} (h : c.Sound m stop)
    (entry : Word)
    (hsame : Routine.ofFunction m' entry stop = Routine.ofFunction m entry stop) :
    (c.consider entry m' stop).Sound m stop := by
  intro entry' r hr
  rcases routine?_consider hr with hr | ⟨rfl, hr⟩
  · exact h entry' r hr
  · rwa [← hsame]

end RoutineCache

/-! ## The two machines -/

namespace Machine

/-- A run that leaves the instructions in memory as they were at its beginning. -/
def KeepsProgram (m₀ : Machine σ) : Prop :=
  ∀ m active, Reaches m₀ m active →
    Memory.SameBelow m₀.programEnd.toNat m₀.cpu.memory m.cpu.memory

/-- What this asks of a single machine. -/
def keepsProgramAt (m₀ m : Machine σ) (_ : List Word) : Bool :=
  decide (Memory.SameBelow m₀.programEnd.toNat m₀.cpu.memory m.cpu.memory)

/-- The machine has the settings of `m₀` but compiles on demand, and what it has compiled so far
are functions of the program in the memory of `m₀`. -/
structure Compiling (m₀ m : Machine σ) : Prop where
  calls : m.calls = m₀.calls
  strictDecoding : m.config.strictDecoding = m₀.config.strictDecoding
  compileOnDemand : m.config.compileOnDemand
  programEnd : m.programEnd = m₀.programEnd
  cache : m.cache.Sound m₀.cpu.memory m₀.programEnd

theorem Compiling.of_settings {m₀ m m' : Machine σ} (h : Compiling m₀ m)
    (hsettings : SameSettings m m') (hcache : m'.cache = m.cache) : Compiling m₀ m' where
  calls := hsettings.calls.trans h.calls
  strictDecoding := by rw [hsettings.config, h.strictDecoding]
  compileOnDemand := by rw [hsettings.config, h.compileOnDemand]
  programEnd := hsettings.programEnd.trans h.programEnd
  cache := by
    rw [hcache]
    exact h.cache

/-! ### A compiled function -/

/-- What comes of a routine at a position, compared with the interpreter at the instruction of that
position. Either the routine returns to where the interpreter gets after some instructions, with
less fuel, or both stop. -/
inductive RoutineOutcome (m₀ : Machine σ) (fuel : Nat) (m : Machine σ) :
    EStateM.Result Halt (Guest σ) Unit → Prop where
  | returned {fuel' : Nat} {m' : Machine σ} {active : List Word} {g : Guest σ}
      (less : fuel' < fuel) (reaches : Reaches m₀ m' active)
      (resumes : resume fuel m = resume fuel' m') (alike : m'.toGuest.Alike g) :
      RoutineOutcome m₀ fuel m (.ok () g)
  | stopped {halt : Halt} {m' : Machine σ} {g : Guest σ} (stops : resume fuel m = .error halt m')
      (alike : m'.toGuest.Alike g) : RoutineOutcome m₀ fuel m (.error halt g)

theorem RoutineOutcome.of_step {m₀ m m' : Machine σ} {fuel : Nat}
    {r : EStateM.Result Halt (Guest σ) Unit} (hresume : resume (fuel + 1) m = resume fuel m')
    (h : RoutineOutcome m₀ fuel m' r) : RoutineOutcome m₀ (fuel + 1) m r := by
  cases h with
  | returned less reaches resumes alike =>
    exact .returned (Nat.lt_succ_of_lt less) reaches (hresume.trans resumes) alike
  | stopped stops alike => exact .stopped (hresume.trans stops) alike

section Simulation

variable {m₀ : Machine σ} (hkept : m₀.KeepsProgram)
  (hsize : m₀.programEnd.toNat ≤ m₀.cpu.memory.size) (hmul : m₀.programEnd.toNat % 4 = 0)

include hkept hsize hmul in
/-- A routine does what the interpreter does, from any position on. The induction is on the fuel,
since a body may loop. -/
theorem routine_alike {entry : Word} {body : List Word} {r : Routine}
    (hbody : m₀.cpu.memory.Body entry m₀.programEnd body)
    (hr : r.Realizes ⟨entry, .toInterpreter, .none⟩ body.zipIdx none) (calls : SystemCalls σ)
    {fuel index : Nat} {m : Machine σ} {active : List Word} {g : Guest σ}
    (hreaches : Reaches m₀ m active) (hindex : index < body.length)
    (hpc : m.cpu.pc = codeAddress entry index) (hdata : m.cpu.SameData g.cpu)
    (hhost : g.host = m.host) (hends : Exec.Ends (resume fuel m)) :
    RoutineOutcome m₀ fuel m (r.runFrom calls #[] fuel index g) := by
  induction fuel generalizing index m active g with
  | zero => exact absurd hends (Exec.not_ends_outOfFuel _)
  | succ fuel ih =>
    obtain ⟨hbelow, hread⟩ := hbody.word (List.getElem?_eq_getElem hindex)
    have hlt : m.cpu.pc < m.programEnd := by
      rw [hpc, hreaches.settings.programEnd]
      exact hbelow
    have hfetch : m.cpu.memory.readWord ⟨"fetch", m.cpu.pc⟩ m.cpu.pc = .ok body[index] := by
      rw [hpc, (hkept _ _ hreaches).readWord_eq hsize hmul _ hbelow]
      exact hread _
    have hcode : body.zipIdx[index]? = some (body[index], index) := by
      rw [Listing.zipIdx_of_lt hindex, Nat.zero_add]
    obtain ⟨i, st, hdecode, hst, hrenders⟩ := hr.step hcode
    have htarget : i.target? (m.fetched body[index]).cpu = none :=
      hrenders.target?_eq_none rfl _
    obtain ⟨outcome, hagrees, hstep⟩ := step_agrees hrenders hfetch hdecode htarget (fun _ => rfl)
      hbody.aligned hpc hdata hhost calls
    generalize hrun : st.run calls g = outcome' at hagrees
    cases hagrees with
    | @next cpu cpu' data stays pc =>
      have hresume := resume_of_step hlt (hstep fuel)
      rw [hresume] at hends
      have hnext : index + 1 < body.length :=
        hbody.continues (List.getElem?_eq_getElem hindex) (by rw [hdecode]; exact stays)
      rw [Routine.runFrom_of_next fuel hst hrun]
      exact .of_step hresume (ih (hreaches.step hlt (hstep fuel)) hnext pc data rfl hends)
    | @jump cpu cpu' label target data label_goes pc =>
      have hresume := resume_of_step hlt (hstep fuel)
      rw [hresume] at hends
      rw [Routine.runFrom_of_jump fuel hst hrun]
      -- The end of a body has no index, so a label leads to a word of it.
      obtain ⟨w, hw⟩ | ⟨hstop, -⟩ := label_goes
      · obtain ⟨hw, htarget⟩ := Listing.zipIdx_eq_some hw
        rw [htarget, Nat.zero_add] at pc
        have hlt' : r.target label < body.length := (List.getElem?_eq_some_iff.1 hw).1
        exact .of_step hresume (ih (hreaches.step hlt (hstep fuel)) hlt' pc data rfl hends)
      · cases hstop
    | @leave cpu cpu' data exit pc =>
      rw [Routine.runFrom_of_leave fuel hst hrun]
      exact .returned (Nat.lt_succ_self fuel) (hreaches.step hlt (hstep fuel))
        (resume_of_step hlt (hstep fuel)) ⟨data, pc, rfl⟩
    | @fault cpu cpu' reason data pc =>
      have hresume := resume_of_lt fuel hlt
      rw [hstep fuel] at hresume
      rw [Routine.runFrom_of_error fuel hst hrun]
      exact .stopped hresume ⟨data, pc, rfl⟩

/-! ### One instruction -/

/-- What comes of one step of both machines. At a call of a compiled function the machine without
compilation has only got to the entry of the function. -/
inductive StepOutcome (m₀ : Machine σ) (fuel : Nat) :
    EStateM.Result Halt (Machine σ) Unit → EStateM.Result Halt (Machine σ) Unit → Prop where
  | both {m m' : Machine σ} (alike : m.toGuest.Alike m'.toGuest) (compiling : Compiling m₀ m') :
      StepOutcome m₀ fuel (.ok () m) (.ok () m')
  | stopped {halt : Halt} {m m' : Machine σ} (alike : m.toGuest.Alike m'.toGuest) :
      StepOutcome m₀ fuel (.error halt m) (.error halt m')
  | routine {m m' : Machine σ} {r : Routine} (data : m.cpu.SameData m'.cpu)
      (host : m'.host = m.host) (compiling : Compiling m₀ m')
      (function : Routine.ofFunction m₀.cpu.memory m.cpu.pc m₀.programEnd = .ok r) :
      StepOutcome m₀ fuel (.ok () m) (onGuest (r.run m'.calls #[] fuel) m')

include hsize hmul in
theorem call_alike (hoff : m₀.config.compileOnDemand = false) (fuel : Nat) (name : String)
    (target : Word) {m m' : Machine σ} (hsettings : SameSettings m₀ m)
    (hmemory : Memory.SameBelow m₀.programEnd.toNat m₀.cpu.memory m.cpu.memory)
    (hcompiling : Compiling m₀ m') (hguest : m'.toGuest = m.toGuest) :
    StepOutcome m₀ fuel (call fuel name target m) (call fuel name target m') := by
  have hoff' : m.config.compileOnDemand = false := by rw [hsettings.config, hoff]
  have hcalls : m'.calls = m.calls := by rw [hcompiling.calls, hsettings.calls]
  have hcpu : m'.cpu = m.cpu := congrArg Guest.cpu hguest
  have hhost : m'.host = m.host := congrArg Guest.host hguest
  cases hcontains : m.calls.contains target with
  | true =>
    have hcontains' : m'.calls.contains target := by rw [hcalls, hcontains]
    rw [call_of_contains _ _ hcontains, call_of_contains _ _ hcontains', hcalls, hguest]
    exact .both (.refl _) (hcompiling.of_settings ⟨hcalls.symm, rfl, rfl⟩ rfl)
  | false =>
    have hcontains' : m'.calls.contains target = false := by rw [hcalls, hcontains]
    have hon := hcompiling.compileOnDemand
    rw [call_of_off _ _ hcontains hoff']
    cases hr : m'.cache.routine? target with
    | none =>
      rw [call_of_on _ _ hcontains' hon hr, hcpu]
      by_cases haligned : Word.Aligned target
      · rw [if_pos haligned, if_pos haligned]
        refine .both ⟨.refl _, rfl, hhost⟩ ⟨hcompiling.calls, hcompiling.strictDecoding, hon,
          hcompiling.programEnd, ?_⟩
        rw [hcompiling.programEnd]
        exact hcompiling.cache.consider target (Routine.ofFunction_congr hmemory hsize hmul target)
      · rw [if_neg haligned, if_neg haligned]
        exact .stopped (by rw [hguest]; exact .refl _)
    | some r =>
      -- What is in the cache was compiled from the program as it was loaded.
      have hfunction := hcompiling.cache _ _ hr
      obtain ⟨body, hbody, -⟩ := Routine.ofFunction_realizes hfunction
      rw [call_of_routine _ _ hcontains' hon hr, if_pos hbody.aligned, hcpu]
      exact @StepOutcome.routine σ m₀ fuel _ { m' with cpu := m.cpu.link m.cpu.pc } r ⟨rfl, rfl⟩
        hhost (hcompiling.of_settings ⟨rfl, rfl, rfl⟩ rfl) hfunction

include hkept hsize hmul in
theorem step_alike (hoff : m₀.config.compileOnDemand = false) (fuel : Nat) {m m' : Machine σ}
    {active : List Word} (hreaches : Reaches m₀ m active) (hcompiling : Compiling m₀ m')
    (halike : m.toGuest.Alike m'.toGuest) :
    StepOutcome m₀ fuel (step fuel m) (step fuel m') := by
  have hread' : m'.cpu.memory.readWord ⟨"fetch", m'.cpu.pc⟩ m'.cpu.pc =
      m.cpu.memory.readWord ⟨"fetch", m.cpu.pc⟩ m.cpu.pc := by
    rw [halike.pc, halike.data.memory]
  cases hread : m.cpu.memory.readWord ⟨"fetch", m.cpu.pc⟩ m.cpu.pc with
  | error reason =>
    rw [step_of_error _ hread, step_of_error _ (hread'.trans hread)]
    exact .stopped halike
  | ok w =>
    rw [step_of_ok _ hread, step_of_ok _ (hread'.trans hread)]
    -- The fetch makes the last difference between the guests disappear.
    have hguest : (m'.fetched w).toGuest = (m.fetched w).toGuest := by
      simp only [fetched, halike.data.registers, halike.data.memory, halike.pc, halike.host]
    have hcompiling' : Compiling m₀ (m'.fetched w) := hcompiling.of_settings ⟨rfl, rfl, rfl⟩ rfl
    generalize m'.fetched w = n' at hguest hcompiling'
    have hsettings : SameSettings m₀ (m.fetched w) :=
      ⟨hreaches.settings.calls, hreaches.settings.config, hreaches.settings.programEnd⟩
    have hmemory : Memory.SameBelow m₀.programEnd.toNat m₀.cpu.memory (m.fetched w).cpu.memory :=
      show Memory.SameBelow _ _ m.cpu.memory from hkept _ _ hreaches
    generalize m.fetched w = n at hguest hsettings hmemory
    have hcpu : n'.cpu = n.cpu := congrArg Guest.cpu hguest
    have hhost : n'.host = n.host := congrArg Guest.host hguest
    cases hdecode : Instruction.decode n.cpu.ir with
    | none =>
      rw [execute_of_none _ hdecode, execute_of_none _ (by rw [hcpu, hdecode]), passOver_apply,
        passOver_apply, hcompiling'.strictDecoding, hsettings.config, hcpu]
      split
      · exact .stopped (by rw [hguest]; exact .refl _)
      · exact .both (by rw [hguest]; exact .refl _) hcompiling'
    | some i =>
      cases htarget : i.target? n.cpu with
      | none =>
        rw [execute_of_act _ hdecode htarget,
          execute_of_act _ (by rw [hcpu, hdecode]) (by rw [hcpu, htarget]), onProcessor_apply,
          onProcessor_apply, hcpu]
        cases i.act n.cpu with
        | ok a cpu =>
          exact .both ⟨.refl _, rfl, hhost⟩ (hcompiling'.of_settings ⟨rfl, rfl, rfl⟩ rfl)
        | error halt cpu => exact .stopped ⟨.refl _, rfl, hhost⟩
      | some target =>
        rw [execute_of_target _ hdecode htarget,
          execute_of_target _ (by rw [hcpu, hdecode]) (by rw [hcpu, htarget])]
        exact call_alike hsize hmul hoff fuel _ target hsettings hmemory hcompiling' hguest

/-! ### Whole runs -/

include hkept hsize hmul in
/-- From machines that look the same, both runs end in the same way. -/
theorem resume_alike (hoff : m₀.config.compileOnDemand = false) {fuel : Nat} {m m' : Machine σ}
    {active : List Word} (hreaches : Reaches m₀ m active) (hcompiling : Compiling m₀ m')
    (halike : m.toGuest.Alike m'.toGuest) (hends : Exec.Ends (resume fuel m)) :
    SameOutcome (resume fuel m) (resume fuel m') := by
  induction fuel using Nat.strongRecOn generalizing m m' active with
  | ind fuel ih =>
    cases fuel with
    | zero => exact absurd hends (Exec.not_ends_outOfFuel _)
    | succ fuel =>
      have hend : m'.programEnd = m.programEnd := by
        rw [hcompiling.programEnd, hreaches.settings.programEnd]
      by_cases hlt : m.cpu.pc < m.programEnd
      · have hlt' : m'.cpu.pc < m'.programEnd := by rwa [halike.pc, hend]
        have hstep := step_alike hkept hsize hmul hoff fuel hreaches hcompiling halike
        rw [resume_of_lt _ hlt] at hends
        rw [resume_of_lt _ hlt, resume_of_lt _ hlt']
        generalize hrun : step fuel m = outcome at hstep hends
        generalize step fuel m' = outcome' at hstep
        cases hstep with
        | both alike compiling =>
          exact ih fuel (Nat.lt_succ_self _) (hreaches.step hlt hrun) compiling alike hends
        | stopped alike => exact .error alike
        | @routine n n' r data host compiling function =>
          -- The interpreter has entered the body, and the routine is a run of all of it. The rest is
          -- compared from where both are back, with the fuel that the interpreter has left.
          obtain ⟨body, hbody, hr⟩ := Routine.ofFunction_realizes function
          change Exec.Ends (resume fuel n) at hends
          have hreaches' := hreaches.step hlt hrun
          have hroutine := routine_alike hkept hsize hmul hbody hr n'.calls hreaches'
            (List.length_pos_iff.2 hbody.nonempty) (codeAddress_zero n.cpu.pc).symm data host hends
          rw [onGuest_apply, Routine.run]
          show SameOutcome (resume fuel n) _
          generalize r.runFrom n'.calls #[] fuel 0 n'.toGuest = outcome at hroutine
          cases hroutine with
          | @returned fuel' n'' active' g less reaches resumes alike =>
            rw [resumes] at hends
            have hrest : SameOutcome (resume fuel' n'') (resume fuel' { n' with toGuest := g }) :=
              ih fuel' (Nat.lt_succ_of_lt less) reaches
                (compiling.of_settings ⟨rfl, rfl, rfl⟩ rfl) alike hends
            show SameOutcome (resume fuel n) (resume fuel { n' with toGuest := g })
            rw [resumes, resume_mono (Nat.le_of_lt less) (hrest.ends hends)]
            exact hrest
          | stopped stops alike =>
            rw [stops]
            exact .error alike
      · have hlt' : ¬m'.cpu.pc < m'.programEnd := by rwa [halike.pc, hend]
        rw [resume_of_ge _ hlt, resume_of_ge _ hlt']
        exact .ok halike

end Simulation

/-! ### Runs of a program -/

/-- The run of the program, if it fits, leaves its instructions alone. -/
def KeepsProgramOf (p : Program) (m : Machine σ) : Prop :=
  ∀ m₀, prepare p m = .ok () m₀ → KeepsProgram m₀

theorem KeepsProgramOf.recording {α : Type} {p : Program} {m : Machine σ} (h : KeepsProgramOf p m)
    (view : Processor → α) : KeepsProgramOf p (m.recording view) := by
  intro m₀ hprepare m' active hreaches
  have hforget := prepare_forget view p m
  rw [hprepare] at hforget
  exact h _ hforget _ _ (hreaches.forget (calls_of_prepare hprepare))

theorem keepsProgramOf_of_check {p : Program} {m : Machine σ} {fuel : Nat}
    (hoff : m.config.compileOnDemand = false)
    (hcheck : checkReached (keepsProgramAt (m.prepared p)) fuel (m.prepared p) []) :
    KeepsProgramOf p m := by
  intro m₀ hprepare m' active hreaches
  obtain ⟨-, rfl⟩ := prepare_eq_ok hprepare
  have hoff₀ : (m.prepared p).config.compileOnDemand = false := hoff
  exact of_decide_eq_true (hreaches.of_check hoff₀ hcheck)

theorem programEnd_prepared (m : Machine σ) (p : Program) :
    (m.prepared p).programEnd.toNat % 4 = 0 ∧
      (m.prepared p).programEnd.toNat ≤ p.image.length := by
  have hlength : 4 * p.words.length ≤ p.image.length := by
    rw [Program.image, List.length_append, Word.length_flatMap_bytes]
    exact Nat.le_add_right _ _
  show (BitVec.ofNat 32 (4 * p.words.length)).toNat % 4 = 0 ∧
    (BitVec.ofNat 32 (4 * p.words.length)).toNat ≤ p.image.length
  rw [BitVec.toNat_ofNat]
  omega

theorem runProgram_alike (p : Program) (m : Machine σ) {fuel : Nat}
    (hends : Exec.Ends (runProgram fuel p (m.setCompileOnDemand false)))
    (hkept : KeepsProgramOf p (m.setCompileOnDemand false)) :
    SameOutcome (runProgram fuel p (m.setCompileOnDemand false))
      (runProgram fuel p (m.setCompileOnDemand true)) := by
  by_cases hfits : p.image.length ≤ m.cpu.memory.size
  · rw [runProgram_of_fits (m := m.setCompileOnDemand false) fuel hfits] at hends ⊢
    rw [runProgram_of_fits (m := m.setCompileOnDemand true) fuel hfits]
    have hprepared := (prepare_apply p (m.setCompileOnDemand false)).trans (if_pos hfits)
    obtain ⟨hmul, hend⟩ := programEnd_prepared (m.setCompileOnDemand false) p
    have hsize : ((m.setCompileOnDemand false).prepared p).programEnd.toNat ≤
        ((m.setCompileOnDemand false).prepared p).cpu.memory.size := by
      show _ ≤ (m.cpu.memory.putBytes 0 p.image).size
      rw [Memory.size_putBytes]
      omega
    exact resume_alike (hkept _ hprepared) hsize hmul rfl .start
      ⟨rfl, rfl, rfl, rfl, RoutineCache.sound_empty _ _⟩ (.refl _) hends
  · rw [runProgram_of_lt (m := m.setCompileOnDemand false) fuel hfits,
      runProgram_of_lt (m := m.setCompileOnDemand true) fuel hfits]
    exact .error (.refl _)

theorem systemCallsOf_eq {α : Type} {view : Processor → α} {m m' : Machine σ}
    {run run' : Exec (Machine (σ × CallRecord α)) Unit}
    (h : SameOutcome (run (m.recording view)) (run' (m'.recording view))) :
    systemCallsOf view run' m' = systemCallsOf view run m := by
  rw [systemCallsOf, systemCallsOf]
  generalize run (m.recording view) = outcome at h ⊢
  generalize run' (m'.recording view) = outcome' at h ⊢
  cases h with
  | ok alike => exact congrArg Prod.snd alike.host
  | error alike => exact congrArg Prod.snd alike.host

/-- **Compilation on demand is transparent.** If a program ends without it, well or by a fault, and
never changes its own instructions, then it ends with it as well, with the same outcome, and makes
the same system calls, each of which sees the same processor. -/
theorem runProgram_compileOnDemand (p : Program) (m : Machine σ) {fuel : Nat}
    (hends : Exec.Ends (runProgram fuel p (m.setCompileOnDemand false)))
    (hkept : KeepsProgramOf p (m.setCompileOnDemand false)) :
    Exec.Ends (runProgram fuel p (m.setCompileOnDemand true)) ∧
      SameOutcome (runProgram fuel p (m.setCompileOnDemand false))
        (runProgram fuel p (m.setCompileOnDemand true)) ∧
      systemCallsOf id (runProgram fuel p) (m.setCompileOnDemand true) =
        systemCallsOf id (runProgram fuel p) (m.setCompileOnDemand false) := by
  have hsame := runProgram_alike p m hends hkept
  refine ⟨hsame.ends hends, hsame, ?_⟩
  have hends' : Exec.Ends (runProgram fuel p ((m.recording id).setCompileOnDemand false)) :=
    (ends_runProgram_recording id fuel p (m.setCompileOnDemand false)).2 hends
  exact systemCallsOf_eq (runProgram_alike p (m.recording id) hends' (hkept.recording id))

/-- Calls a function twice, so that the second call runs its routine, and then the host. -/
def calledTwice : Program where
  words := [
    (Instruction.ofJump .call 4).encode,
    (Instruction.ofJump .call 4).encode,
    (Instruction.ofJump .call 1250).encode,
    (Instruction.ofImmediate .br 0 0 8).encode,
    (Instruction.ofImmediate .addi 4 4 33).encode,
    (Instruction.ofRegisters .ret 31 0 0).encode,
    (Instruction.ofRegisters .add 0 0 0).encode]
  data := Program.noData 7
  symbols := .empty
  functions := .empty

/-- A machine with just enough memory for `calledTwice`. -/
def small : Machine (Array Byte) :=
  .new { memorySize := 32 } #[]

/-- The run of `calledTwice` is one that the theorem speaks of. -/
theorem runProgram_compileOnDemand_calledTwice :
    (Exec.Ends (runProgram 20 calledTwice (small.setCompileOnDemand false)) ∧
      KeepsProgramOf calledTwice (small.setCompileOnDemand false)) ∧
    SameOutcome (runProgram 20 calledTwice (small.setCompileOnDemand false))
      (runProgram 20 calledTwice (small.setCompileOnDemand true)) := by
  have hends : Exec.Ends (runProgram 20 calledTwice (small.setCompileOnDemand false)) := by
    decide +kernel
  have hcheck : checkReached
      (keepsProgramAt ((small.setCompileOnDemand false).prepared calledTwice)) 20
      ((small.setCompileOnDemand false).prepared calledTwice) [] := by
    decide +kernel
  have hkept : KeepsProgramOf calledTwice (small.setCompileOnDemand false) :=
    keepsProgramOf_of_check rfl hcheck
  exact ⟨⟨hends, hkept⟩, (runProgram_compileOnDemand calledTwice small hends hkept).2.1⟩

end Machine

end Risc32
