import Risc32.Proofs.Compiled.Agreement
import Risc32.Proofs.Compiled.Linking
import Risc32.Proofs.Compiled.Requests

/-!
# Compiled functions stay inside

A routine may run past its last step, and is over then. The main routine does that when the program
is over. The routine of a function never does. Its last step is a return, the index behind it was
left unbound, so that no label leads there, and no other step leaves.

`Routine.Contains` says so of one step, wherever it leads. A run of the routine is a sequence of
such steps with runs of other routines in between, which may do what they like to the guest but
have no say in where this one goes on. So every position it comes to is one of its own
(`Routine.Contained.visits_lt`), and a run that ends does so by a fault or by the last step.
-/

set_option autoImplicit false

namespace Risc32

variable {σ : Type}

/-! ## Steps that end a run -/

/-- A return leaves, or it faults. -/
theorem Step.IsReturn.eq_leave {calls : SystemCalls σ} {st : Step} {g g' : Guest σ}
    {flow : Successor} (h : st.IsReturn) (hrun : st.run calls g = .ok flow g') : flow = .leave := by
  cases h with
  | returnTo site =>
    rw [run_returnTo] at hrun
    dsimp only at hrun
    split at hrun <;> cases hrun
    rfl
  | leave =>
    cases hrun
    rfl

/-- A step that stops does so by a fault. -/
theorem Step.fault_of_run {calls : SystemCalls σ} {st : Step} {g g' : Guest σ} {halt : Halt}
    (h : st.run calls g = .error halt g') : ∃ reason, halt = .fault reason := by
  cases st with
  | access kind site b a offset =>
    simp only [run, Guest.onProcessor_apply, Exec.bind_apply, Exec.get_apply, faultingAt] at h
    rcases Processor.access_cases kind site b (g.cpu.register a + offset) (.refl g.cpu) with
      ⟨reason, haccess, -⟩ | ⟨registers, memory, haccess, -⟩
    · rw [haccess] at h
      cases h
      exact ⟨reason, rfl⟩
    · rw [haccess] at h
      cases h
  | branch condition a b label =>
    simp only [run, Guest.onProcessor_apply, Exec.bind_apply, Exec.get_apply, Exec.pure_apply] at h
    cases h
  | misalignedBranch condition a b site address =>
    simp only [run, Guest.onProcessor_apply, Exec.bind_apply, Exec.get_apply] at h
    by_cases htaken : condition.holds (g.cpu.register a) (g.cpu.register b)
    · simp only [htaken, if_true] at h
      cases h
      exact ⟨_, rfl⟩
    · simp only [htaken] at h
      cases h
  | returnTo site =>
    rw [run_returnTo] at h
    dsimp only at h
    split at h <;> cases h
    exact ⟨_, rfl⟩
  | _ => cases h

/-! ## Runs of one routine -/

namespace Routine

/-- The positions that a run of the routine comes to, with the guest as it is there. -/
inductive Visits (calls : SystemCalls σ) (units : Array Routine) (r : Routine) (g₀ : Guest σ) :
    Nat → Guest σ → Prop where
  | start : Visits calls units r g₀ 0 g₀
  | next {position : Nat} {st : Step} {g g' : Guest σ}
      (before : Visits calls units r g₀ position g) (step : r.steps[position]? = some st)
      (run : st.run calls g = .ok .next g') : Visits calls units r g₀ (position + 1) g'
  | jump {position label : Nat} {st : Step} {g g' : Guest σ}
      (before : Visits calls units r g₀ position g) (step : r.steps[position]? = some st)
      (run : st.run calls g = .ok (.jump label) g') : Visits calls units r g₀ (r.target label) g'
  | call {position unit fuel : Nat} {st : Step} {callee : Routine} {g g' g'' : Guest σ}
      (before : Visits calls units r g₀ position g) (step : r.steps[position]? = some st)
      (run : st.run calls g = .ok (.call unit) g') (found : units[unit]? = some callee)
      (returns : callee.run calls units fuel g' = .ok () g'') :
      Visits calls units r g₀ (position + 1) g''
  | callNone {position unit : Nat} {st : Step} {g g' : Guest σ}
      (before : Visits calls units r g₀ position g) (step : r.steps[position]? = some st)
      (run : st.run calls g = .ok (.call unit) g') (missing : units[unit]? = none) :
      Visits calls units r g₀ (position + 1) g'

/-- Going on from the step at the position, one gets to a step of the routine again, or leaves by
its last step, which is a return. A call is to one of `count` units. -/
inductive Contains (r : Routine) (count position : Nat) (st : Step) : Successor → Prop where
  | next (inside : position + 1 < r.size) : Contains r count position st .next
  | jump {label target : Nat} (resolves : r.targets[label]? = some target)
      (inside : target < r.size) : Contains r count position st (.jump label)
  | call {unit : Nat} (exists_unit : unit < count) (inside : position + 1 < r.size) :
      Contains r count position st (.call unit)
  | leave (returns : st.IsReturn) (last : position + 1 = r.size) :
      Contains r count position st .leave

/-- How a run can end at the position: by the last step, by a fault there, or by a fault in what is
called there. -/
inductive EndsAt (calls : SystemCalls σ) (units : Array Routine) (r : Routine) (position : Nat)
    (g : Guest σ) : EStateM.Result Halt (Guest σ) Unit → Prop where
  | returned {st : Step} {g' : Guest σ} (step : r.steps[position]? = some st)
      (returns : st.IsReturn) (last : position + 1 = r.size)
      (run : st.run calls g = .ok .leave g') : EndsAt calls units r position g (.ok () g')
  | faulted {st : Step} {reason : Fault} {g' : Guest σ} (step : r.steps[position]? = some st)
      (run : st.run calls g = .error (.fault reason) g') :
      EndsAt calls units r position g (.error (.fault reason) g')
  | calleeFaulted {st : Step} {unit fuel : Nat} {callee : Routine} {reason : Fault}
      {g' g'' : Guest σ} (step : r.steps[position]? = some st)
      (run : st.run calls g = .ok (.call unit) g') (found : units[unit]? = some callee)
      (faults : callee.run calls units fuel g' = .error (.fault reason) g'') :
      EndsAt calls units r position g (.error (.fault reason) g'')

variable {calls : SystemCalls σ} {units : Array Routine} {r : Routine} {count position : Nat}
  {g₀ g : Guest σ}

/-- A run that stops early does so by a fault, or for want of fuel. -/
theorem halt_of_runFrom {fuel : Nat} {halt : Halt} {g' : Guest σ}
    (h : r.runFrom calls units fuel position g = .error halt g') :
    halt = .outOfFuel ∨ ∃ reason, halt = .fault reason := by
  induction fuel generalizing r position g with
  | zero =>
    cases h
    exact .inl rfl
  | succ fuel ih =>
    cases hstep : r.steps[position]? with
    | none =>
      rw [runFrom_of_none _ _ hstep] at h
      cases h
    | some st =>
      cases hrun : st.run calls g with
      | error halt' g₁ =>
        rw [runFrom_of_error _ hstep hrun] at h
        cases h
        exact .inr (Step.fault_of_run hrun)
      | ok flow g₁ =>
        cases flow with
        | next =>
          rw [runFrom_of_next _ hstep hrun] at h
          exact ih h
        | jump label =>
          rw [runFrom_of_jump _ hstep hrun] at h
          exact ih h
        | leave =>
          rw [runFrom_of_leave _ hstep hrun] at h
          cases h
        | call unit =>
          cases hcallee : units[unit]? with
          | none =>
            rw [runFrom_of_call_none _ hstep hrun hcallee] at h
            exact ih h
          | some callee =>
            rw [runFrom_of_call _ hstep hrun hcallee] at h
            cases hinner : callee.runFrom calls units fuel 0 g₁ with
            | ok a g₂ =>
              rw [hinner] at h
              exact ih h
            | error halt' g₂ =>
              rw [hinner] at h
              cases h
              exact ih hinner

/-- The routine has a step, and every step of it leads to another or is the last one. -/
structure Contained (r : Routine) (count : Nat) (calls : SystemCalls σ) : Prop where
  nonempty : 0 < r.size
  step : ∀ {position : Nat} {st : Step} {flow : Successor} {g g' : Guest σ},
    r.steps[position]? = some st → st.run calls g = .ok flow g' → r.Contains count position st flow

/-- A run stays inside of the routine. -/
theorem Contained.visits_lt (h : r.Contained count calls)
    (hvisits : r.Visits calls units g₀ position g) : position < r.size := by
  induction hvisits with
  | start => exact h.nonempty
  | next before step run ih =>
    cases h.step step run with
    | next inside => exact inside
  | jump before step run ih =>
    cases h.step step run with
    | jump resolves inside =>
      rw [target, Array.getD_eq_getD_getElem?, resolves]
      exact inside
  | call before step run found returns ih =>
    cases h.step step run with
    | call exists_unit inside => exact inside
  | callNone before step run missing ih =>
    cases h.step step run with
    | call exists_unit inside => exact inside

/-- From every position that a run comes to it goes on to the next one, or it ends there. -/
theorem Contained.runFrom_ends (h : r.Contained count calls) (fuel : Nat)
    (hvisits : r.Visits calls units g₀ position g) :
    (∃ g', r.runFrom calls units fuel position g = .error .outOfFuel g') ∨
      ∃ position' g', r.Visits calls units g₀ position' g' ∧
        r.EndsAt calls units position' g' (r.runFrom calls units fuel position g) := by
  induction fuel generalizing position g with
  | zero => exact .inl ⟨g, rfl⟩
  | succ fuel ih =>
    obtain ⟨st, hstep⟩ : ∃ st, r.steps[position]? = some st :=
      ⟨_, Array.getElem?_eq_getElem (h.visits_lt hvisits)⟩
    cases hrun : st.run calls g with
    | error halt g₁ =>
      obtain ⟨reason, rfl⟩ := Step.fault_of_run hrun
      rw [runFrom_of_error _ hstep hrun]
      exact .inr ⟨position, g, hvisits, .faulted hstep hrun⟩
    | ok flow g₁ =>
      cases flow with
      | next =>
        rw [runFrom_of_next _ hstep hrun]
        exact ih (hvisits.next hstep hrun)
      | jump label =>
        rw [runFrom_of_jump _ hstep hrun]
        exact ih (hvisits.jump hstep hrun)
      | leave =>
        rw [runFrom_of_leave _ hstep hrun]
        cases h.step hstep hrun with
        | leave returns last =>
          exact .inr ⟨position, g, hvisits, .returned hstep returns last hrun⟩
      | call unit =>
        cases hcallee : units[unit]? with
        | none =>
          rw [runFrom_of_call_none _ hstep hrun hcallee]
          exact ih (hvisits.callNone hstep hrun hcallee)
        | some callee =>
          rw [runFrom_of_call _ hstep hrun hcallee]
          cases hinner : callee.runFrom calls units fuel 0 g₁ with
          | ok a g₂ => exact ih (hvisits.call hstep hrun hcallee hinner)
          | error halt g₂ =>
            obtain rfl | ⟨reason, rfl⟩ := halt_of_runFrom hinner
            · exact .inl ⟨g₂, rfl⟩
            · exact .inr ⟨position, g, hvisits, .calleeFaulted hstep hrun hcallee hinner⟩

/-! ## Routines of functions -/

/-- A listing that stands in a row and ends with its only return, and whose calls are to one of
`count` units, has a routine that stays inside. -/
theorem Resolves.contained {s : Surroundings} {ws : List Word} {first : Nat}
    (h : r.Resolves s (ws.zipIdx first) none) (hnonempty : ws ≠ [])
    (hreturns : ∀ {k : Nat} {w : Word}, ws[k]? = some w →
      ((Instruction.decode w).any (·.isReturn) ↔ k + 1 = ws.length))
    (hunits : ∀ {functions systemCalls target unit}, s.linkage = .units functions systemCalls →
      s.unit? functions target = some unit → unit < count) (calls : SystemCalls σ) :
    r.Contained count calls := by
  have hsize : r.size = ws.length := h.size.trans List.length_zipIdx
  refine ⟨hsize ▸ List.length_pos_iff.2 hnonempty, ?_⟩
  intro position st flow g g' hst hrun
  have hlt : position < ws.length := by
    rw [← hsize]
    exact (Array.getElem?_eq_some_iff.1 hst).1
  obtain ⟨i, st', hi, hst', hrenders⟩ := h.step (Listing.zipIdx_of_lt hlt first)
  obtain rfl := Option.some.inj (hst.symm.trans hst')
  have hlast : st.IsReturn ↔ position + 1 = r.size := by
    rw [← hrenders.isReturn_iff, hsize, ← hreturns (List.getElem?_eq_getElem hlt), hi,
      Option.any_some]
  have hleads := Step.leadsTo_of_run hrun
  -- The last step leaves, and another step does not.
  have hinside : flow ≠ .leave → position + 1 < r.size := by
    intro hflow
    have hnotlast : position + 1 ≠ r.size :=
      fun heq => hflow ((hlast.2 heq).eq_leave hrun)
    omega
  cases flow with
  | next => exact .next (hinside (by simp))
  | jump label =>
    obtain ⟨d, target, -, -, q, hq, w, hw⟩ := hrenders.distance_of_jump hleads
    · have hqlt := (List.getElem?_eq_some_iff.1 hw).1
      exact .jump hq (by rwa [h.size])
    · next hstop => cases hstop.1
  | call unit =>
    refine .call ?_ (hinside (by simp))
    cases hleads with
    | callUnit link unit =>
      cases hrenders with
      | callUnit linkage found => exact hunits linkage found
    | transfer flow => cases hrenders
  | leave =>
    have hreturn := hrenders.isReturn_iff.1 (hrenders.isReturn_of_leave hleads)
    exact .leave hreturn (hlast.1 hreturn)

/-- The routine is that of a function, and its calls are to one of `count` units. -/
inductive OfFunction : Routine → Nat → Prop where
  | onDemand {m : Memory} {entry stop : Word} {r : Routine}
      (compiled : Routine.ofFunction m entry stop = .ok r) : OfFunction r 0
  | unit {lines : List String} {seed : LabelTable} {p : Program} {systemCalls : List Word}
      {c : CompiledProgram} {r : Routine} (assembled : Program.ofLines lines seed = .ok p)
      (compiled : CompiledProgram.compile p systemCalls = .ok c) (member : r ∈ c.units) :
      OfFunction r c.units.size

theorem OfFunction.contained (h : r.OfFunction count) (calls : SystemCalls σ) :
    r.Contained count calls := by
  cases h with
  | @onDemand m entry stop r compiled =>
    rw [ofFunction_eq] at compiled
    obtain ⟨body, hbody, hcompile⟩ := bind_eq_ok.1 compiled
    obtain ⟨hfunction, hwords⟩ := Memory.hasFunction_of_functionAt hbody
    refine (Listing.compile_eq_ok hcompile).2.contained ?_ ?_ (fun hlinkage => ?_) calls
    · exact List.length_pos_iff.1 hfunction.nonempty
    · intro k w hw
      have hk := (List.getElem?_eq_some_iff.1 hw).1
      rw [hwords, Memory.getElem?_wordsFrom hk] at hw
      obtain rfl := Option.some.inj hw
      exact hfunction.returns k hk
    · cases hlinkage
  | @unit lines seed p systemCalls c r assembled compiled member =>
    have horderly := Program.orderly_ofLines assembled
    have hsize := CompiledProgram.size_units_of_compile horderly compiled
    obtain ⟨u, hu⟩ := Array.getElem?_of_mem member
    have hlt : u < p.functions.extents.length :=
      hsize ▸ (Array.getElem?_eq_some_iff.1 hu).1
    have hx := List.getElem?_eq_getElem hlt
    have hmem := List.mem_of_getElem? hx
    obtain ⟨r', hr', -, hresolves⟩ := CompiledProgram.unit_of_compile horderly compiled hx
    obtain rfl := Option.some.inj (hu.symm.trans hr')
    have hlength := horderly.length_slice hmem
    refine hresolves.contained ?_ ?_ ?_ calls
    · rw [← List.length_pos_iff, hlength]
      exact (horderly.range_of_mem hmem).2.2.1
    · rw [hlength]
      exact horderly.returns _ hmem
    · intro functions known target unit hlinkage hunit
      obtain ⟨rfl, rfl⟩ := Linkage.units.inj hlinkage
      obtain ⟨range, hrange, -⟩ := CompiledProgram.unit?_eq_some hunit
      have hrange := (List.getElem?_eq_some_iff.1 hrange).1
      rwa [horderly.ranges_eq, List.length_map, ← hsize] at hrange

/-- **Compiled functions stay inside.** Whatever the guest is and whatever the routines that are
called make of it, every position that a run of a function's routine comes to has a step, and where
that leads is inside of the routine again. A run ends by a fault or by the return, which is the last
step. -/
theorem OfFunction.confined (h : r.OfFunction count) (calls : SystemCalls σ)
    (units : Array Routine) (g₀ : Guest σ) :
    (∀ position g, r.Visits calls units g₀ position g →
      ∃ st, r.steps[position]? = some st ∧
        ∀ flow g', st.run calls g = .ok flow g' → r.Contains count position st flow) ∧
    ∀ fuel, (∃ g, r.run calls units fuel g₀ = .error .outOfFuel g) ∨
      ∃ position g, r.Visits calls units g₀ position g ∧
        r.EndsAt calls units position g (r.run calls units fuel g₀) := by
  have hcontained := h.contained calls
  constructor
  · intro position g hvisits
    have hstep := Array.getElem?_eq_getElem (hcontained.visits_lt hvisits)
    exact ⟨_, hstep, fun flow g' hrun => hcontained.step hstep hrun⟩
  · intro fuel
    exact hcontained.runFrom_ends fuel .start

/-- The countdown from two ends at its return, the last of three steps. The unit of `linked` is the
routine of a function as well, so a run of it stays in front of position 4. -/
theorem OfFunction.confined_countsDown :
    let t : SystemCalls (Array Byte) := .defaults
    let m : Machine (Array Byte) := .new { memorySize := 64 } #[]
    let g₀ : Guest (Array Byte) := { m.toGuest with cpu := m.cpu.setRegister 1 2 }
    (∃ (r : Routine) (g g' : Guest (Array Byte)), r.OfFunction 0 ∧ r.size = 3 ∧
      r.run t #[] 10 g₀ = .ok () g' ∧ r.Visits t #[] g₀ 2 g) ∧
    ∃ p c r, Program.ofLines CompiledProgram.linked (.ofSymbols t.symbols) = .ok p ∧
      CompiledProgram.compile p t.symbols.addresses = .ok c ∧ r ∈ c.units ∧
      r.OfFunction c.units.size ∧
      ∀ position g, r.Visits t c.units g₀ position g → position < 4 := by
  intro t m g₀
  have hcountsDown : (Routine.ofFunction RoutineCache.countsDown 32 44).toOption.any fun r =>
      decide (r.size = 3) && match r.run t #[] 10 g₀ with
        | .ok _ _ => true
        | .error _ _ => false := by decide +kernel
  have hlinked : (Program.ofLines CompiledProgram.linked (.ofSymbols t.symbols)).toOption.any
      fun p => (CompiledProgram.compile p t.symbols.addresses).toOption.any fun c =>
        c.units[0]?.any fun r => decide (r.size = 4) := by decide +kernel
  constructor
  · obtain ⟨r, hr, hp⟩ := any_toOption hcountsDown
    obtain ⟨hsize, hok⟩ := (Bool.and_eq_true _ _).mp hp
    have hsize : r.size = 3 := of_decide_eq_true hsize
    obtain ⟨-, hends⟩ := (OfFunction.onDemand hr).confined t #[] g₀
    cases hrun : r.run t #[] 10 g₀ with
    | error halt g' => simp [hrun] at hok
    | ok a g' =>
      rcases hends 10 with ⟨g, hfuel⟩ | ⟨position, g, hvisits, hend⟩
      · cases hrun.symm.trans hfuel
      · rw [hrun] at hend
        cases hend with
        | returned step returns last run =>
          obtain rfl : position = 2 := by omega
          exact ⟨r, g, g', .onDemand hr, hsize, hrun, hvisits⟩
  · obtain ⟨p, h, hp⟩ := any_toOption hlinked
    obtain ⟨c, hc, hp⟩ := any_toOption hp
    obtain ⟨r, hr, hsize⟩ := (Option.any_eq_true _ _).1 hp
    have hsize : r.size = 4 := of_decide_eq_true hsize
    have hfunction : r.OfFunction c.units.size := .unit h hc (Array.mem_of_getElem? hr)
    refine ⟨p, c, r, h, hc, Array.mem_of_getElem? hr, hfunction, ?_⟩
    intro position g hvisits
    obtain ⟨st, hst, -⟩ := (hfunction.confined t c.units g₀).1 position g hvisits
    exact hsize ▸ (Array.getElem?_eq_some_iff.1 hst).1

end Routine

end Risc32
