import Risc32.Proofs.Compiled.Calls
import Risc32.Proofs.Compiled.Agreement

/-!
# Where the main routine goes on

The interpreter goes on at the next address. The main routine is compiled from what lies in no
function, so the steps of two instructions can stand side by side with a function in between. This
file says where the main routine goes on when the interpreter goes on at the next address, and where
it goes on behind a call.

That is the next instruction exactly if no function begins there. A function that begins there is
left out, with every function right behind it, although the interpreter runs into it. Only straight
flow gets there: a branch into a function has no label and is refused.
-/

set_option autoImplicit false

namespace Risc32

variable {σ : Type}

/-! ## The interpreter -/

/-- The machine is in front of an instruction, which calls nothing, and one step brings it to the
instruction behind it. -/
structure Machine.PassesBy (m : Machine σ) (index : Nat) (w : Word) (i : Instruction)
    (m' : Machine σ) : Prop where
  before : m.cpu.pc = codeAddress Program.textStart index
  word : m.cpu.memory.readWord ⟨"fetch", m.cpu.pc⟩ m.cpu.pc = .ok w
  quiet : i.target? (m.fetched w).cpu = none
  step : ∃ fuel, Machine.step fuel m = .ok () m'
  behind : m'.cpu.pc = codeAddress Program.textStart (index + 1)

/-- A branch that leads to the instruction behind it has no distance to go. -/
theorem eq_succ_of_codeAddress {index target : Nat} {d : Word} {base : Word}
    (aligned : d.toInt % 4 = 0) (distance : (target : Int) = index + d.toInt / 4 + 1)
    (h : codeAddress base target = codeAddress base (index + 1)) : target = index + 1 := by
  have hd : d = 0 := by
    have hsum := (codeAddress_add_distance aligned distance base).trans h
    simpa using hsum
  subst hd
  simp only [BitVec.ofNat_eq_ofNat, BitVec.toInt_zero] at distance
  omega

/-! ## The main routine -/

/-- A function begins at the instruction with the index. -/
def Program.BeginsAt (p : Program) (index : Nat) : Prop :=
  ∃ x ∈ p.functions.extents, x.entry = 4 * index

instance (p : Program) (index : Nat) : Decidable (p.BeginsAt index) :=
  inferInstanceAs (Decidable (∃ x ∈ p.functions.extents, x.entry = 4 * index))

/-- Behind an instruction that lies in no function there is a function exactly if one begins
there. -/
theorem Program.any_contains_succ_iff {p : Program}
    (hfunctions : ∀ x ∈ p.functions.extents, p.HasFunction x) {index : Nat}
    (hout : ¬p.ranges.any (·.contains index)) :
    p.ranges.any (·.contains (index + 1)) ↔ p.BeginsAt (index + 1) := by
  rw [IndexRange.any_contains_iff] at hout ⊢
  constructor
  · rintro ⟨range, hrange, hfirst, hlast⟩
    have hbefore : ¬range.first ≤ index := fun hle => hout ⟨range, hrange, hle, by omega⟩
    obtain ⟨x, hx, hentry, -⟩ := range_of_mem hfunctions hrange
    exact ⟨x, hx, by omega⟩
  · rintro ⟨x, hx, hentry⟩
    have hrange : (⟨x.entry / 4, min (x.entry / 4 + x.size) p.words.length⟩ : IndexRange) ∈
        p.ranges := List.mem_map_of_mem hx
    obtain ⟨-, -, -, -, hnonempty, -⟩ := range_of_mem hfunctions hrange
    have hfirst : x.entry / 4 = index + 1 := by omega
    exact ⟨_, hrange, Nat.le_of_eq hfirst, hfirst ▸ hnonempty⟩

namespace CompiledProgram

variable {c : CompiledProgram} {p : Program} {systemCalls : List Word} {index position : Nat}

/-- The step of the main routine at the position is that of the instruction with the index. Behind
the last instruction the main routine is over. -/
inductive MainAt (c : CompiledProgram) (p : Program) (systemCalls : List Word)
    (index position : Nat) : Prop where
  | step {w : Word} {i : Instruction} {st : Step} (outside : ¬p.ranges.any (·.contains index))
      (word : p.words[index]? = some w) (decode : Instruction.decode w = some i)
      (compiled : c.main.steps[position]? = some st)
      (renders : Risc32.Renders (surroundings p.ranges systemCalls) index
        (fun label target => (outsideFrom p.ranges 0 p.words).Position (some p.words.length) target
          (c.main.target label)) i st)
  | stop (index_eq : index = p.words.length) (position_eq : position = c.main.steps.size)

/-- Behind the instruction with the index, at the position, comes the one with the index `next`. -/
structure Adjacent (c : CompiledProgram) (p : Program) (systemCalls : List Word)
    (index position next : Nat) : Prop where
  here : c.MainAt p systemCalls index position
  there : c.MainAt p systemCalls next (position + 1)
  after : index < next
  within : next ≤ p.words.length
  skipped : ∀ k, index < k → k < next → p.ranges.any (·.contains k)
  next_iff : next = index + 1 ↔ ¬p.BeginsAt (index + 1)

theorem Renders.mainAt (h : c.Renders p systemCalls)
    (hposition : (outsideFrom p.ranges 0 p.words).Position (some p.words.length) index position) :
    c.MainAt p systemCalls index position := by
  rcases hposition with ⟨w, hw⟩ | ⟨hstop, hend⟩
  · obtain ⟨-, hword, hout⟩ := outsideFrom_eq_some hw
    obtain ⟨i, st, hdecode, hst, hrenders⟩ := h.main.step hw
    exact .step hout hword hdecode hst hrenders
  · exact .stop (Option.some.inj hstop).symm (hend.trans h.main.size.symm)

theorem MainAt.le_length (h : c.MainAt p systemCalls index position) : index ≤ p.words.length := by
  cases h with
  | step outside word decode compiled renders =>
    exact Nat.le_of_lt (List.getElem?_eq_some_iff.1 word).1
  | stop index_eq position_eq => exact Nat.le_of_eq index_eq

/-- The main routine has no step for an instruction of a function. -/
theorem MainAt.not_contains (h : c.MainAt p systemCalls index position)
    (hfunctions : ∀ x ∈ p.functions.extents, p.HasFunction x) :
    ¬p.ranges.any (·.contains index) := by
  cases h with
  | step outside word decode compiled renders => exact outside
  | stop index_eq position_eq =>
    intro hin
    obtain ⟨range, hrange, -, hlast⟩ := IndexRange.any_contains_iff.1 hin
    obtain ⟨-, -, -, -, -, hstop, -⟩ := Program.range_of_mem hfunctions hrange
    omega

theorem Renders.adjacent (h : c.Renders p systemCalls)
    (hfunctions : ∀ x ∈ p.functions.extents, p.HasFunction x) {w : Word}
    (hcode : (outsideFrom p.ranges 0 p.words)[position]? = some (w, index)) :
    ∃ next, c.Adjacent p systemCalls index position next := by
  have hout := (outsideFrom_eq_some hcode).2.2
  obtain ⟨next, hlt, hskipped, hposition⟩ := outside_following hcode
  rw [Nat.zero_add] at hposition
  have hnext := h.mainAt hposition
  refine ⟨next, ⟨h.mainAt (.inl ⟨w, hcode⟩), hnext, hlt, hnext.le_length, hskipped, ?_⟩⟩
  rw [← Program.any_contains_succ_iff hfunctions hout]
  constructor
  · rintro rfl
    exact hnext.not_contains hfunctions
  · intro hfree
    obtain heq | hbetween : next = index + 1 ∨ index + 1 < next := by omega
    · exact heq
    · exact absurd (hskipped _ (Nat.lt_succ_self index) hbetween) hfree

/-- What follows is the first that lies in no function. -/
theorem Adjacent.next_eq {next k : Nat} (h : c.Adjacent p systemCalls index position next)
    (hfunctions : ∀ x ∈ p.functions.extents, p.HasFunction x) (hafter : index < k)
    (hskipped : ∀ j, index < j → j < k → p.ranges.any (·.contains j))
    (hout : ¬p.ranges.any (·.contains k)) : next = k := by
  rcases Nat.lt_trichotomy next k with hlt | heq | hgt
  · exact absurd (hskipped next h.after hlt) (h.there.not_contains hfunctions)
  · exact heq
  · exact absurd (h.skipped k hafter hgt) hout

/-! ## The flow -/

/-- The step of an instruction that the interpreter passes by leads to the next position. -/
theorem Renders.runFrom_of_passesBy (h : c.Renders p systemCalls)
    (hfunctions : ∀ x ∈ p.functions.extents, p.HasFunction x) {w : Word} {i : Instruction}
    (hcode : (outsideFrom p.ranges 0 p.words)[position]? = some (w, index))
    (hdecode : Instruction.decode w = some i) (hstays : i.isReturn = false) {m m' : Machine σ}
    (hpasses : m.PassesBy index w i m') {g : Guest σ} (hdata : m.cpu.SameData g.cpu)
    (hhost : g.host = m.host) (calls : SystemCalls σ) :
    ∃ g', m'.cpu.SameData g'.cpu ∧ g'.host = m'.host ∧ ∀ fuel,
      c.main.runFrom calls c.units (fuel + 1) position g =
        c.main.runFrom calls c.units fuel (position + 1) g' := by
  obtain ⟨i', st, hi, hst, hrenders⟩ := h.main.step hcode
  obtain rfl := Option.some.inj (hdecode.symm.trans hi)
  obtain ⟨outcome, hagrees, hstep⟩ := Machine.step_agrees hrenders hpasses.word hdecode
    hpasses.quiet (fun hreturn => by simp [hstays] at hreturn)
    (show Word.Aligned Program.textStart by decide) hpasses.before hdata hhost calls
  obtain ⟨fuel₀, hfuel₀⟩ := hpasses.step
  have hbehind := hpasses.behind
  rw [hstep fuel₀] at hfuel₀
  generalize hrun : st.run calls g = result at hagrees
  cases hagrees with
  | @next cpu cpu' data stays pc =>
    cases hfuel₀
    exact ⟨⟨cpu', m.host⟩, data, rfl, fun fuel => Routine.runFrom_of_next fuel hst hrun⟩
  | @jump cpu cpu' label target data goes pc =>
    cases hfuel₀
    -- A branch to the instruction behind it. It has a label, so no function begins there, and the
    -- position of the label is the next one.
    obtain ⟨d, target', aligned, distance, goes'⟩ :=
      hrenders.distance_of_jump (Step.leadsTo_of_run hrun)
    obtain rfl : target = target' := goes.index_eq goes'
    obtain rfl : target = index + 1 :=
      eq_succ_of_codeAddress aligned distance (pc.symm.trans hbehind)
    have hfree := (h.mainAt goes).not_contains hfunctions
    have hnext := outside_next hcode hfree
    rw [Nat.zero_add] at hnext
    have hposition : c.main.target label = position + 1 := outside_position_inj goes hnext
    refine ⟨⟨cpu', m.host⟩, data, rfl, fun fuel => ?_⟩
    rw [Routine.runFrom_of_jump fuel hst hrun, hposition]
  | leave data exit pc => cases exit
  | fault data pc => cases hfuel₀

/-- What the main routine runs for a call that returns to `link`: the unit of the function at the
target, or if there is none a system call. -/
inductive CalleeRun (c : CompiledProgram) (p : Program) (systemCalls : List Word)
    (calls : SystemCalls σ) (link target : Word) : (Nat → Exec (Guest σ) Unit) → Prop where
  | unit {r : Routine} (function : p.IsEntry target) (compiled : r ∈ c.units)
      (entry : r.entry = target) :
      CalleeRun c p systemCalls calls link target fun fuel => do
        modify fun g => { g with cpu := g.cpu.link link }
        r.runFrom calls c.units fuel 0
  | system (absent : ¬p.IsEntry target) (known : target ∈ systemCalls) :
      CalleeRun c p systemCalls calls link target fun _ => modify (calls.perform link target)

/-- When the callee comes back, the main routine goes on with the next position. -/
theorem Renders.runFrom_of_call (h : c.Renders p systemCalls)
    (hfunctions : ∀ x ∈ p.functions.extents, p.HasFunction x) {w : Word} {op : Opcode}
    {f : JumpForm} (hcode : (outsideFrom p.ranges 0 p.words)[position]? = some (w, index))
    (hdecode : Instruction.decode w = some (.jump op f)) (calls : SystemCalls σ) {link : Word}
    (hlink : link = codeAddress Program.textStart (index + 1)) :
    ∃ run, c.CalleeRun p systemCalls calls link (f.target link) run ∧ ∀ fuel,
      c.main.runFrom calls c.units (fuel + 1) position =
        (do run fuel; c.main.runFrom calls c.units fuel (position + 1)) := by
  subst hlink
  obtain ⟨st, hst, hcall⟩ := Part.main.callStep h hcode hdecode
  cases hcall with
  | @unit u range r function compiled first =>
    have hentry := Program.isEntry_of_mem hfunctions (List.mem_of_getElem? function) first
    obtain ⟨r', hr', hrentry, -⟩ := h.unit function
    obtain rfl := Option.some.inj (compiled.symm.trans hr')
    refine ⟨_, .unit hentry (Array.mem_of_getElem? compiled)
      (hrentry.trans (Program.codeAddress_eq first)), fun fuel => funext fun g => ?_⟩
    rw [Routine.runFrom_of_call fuel hst (Step.run_callUnit calls _ u g) compiled]
    simp only [Exec.bind_apply, Exec.modify_apply]
    cases r.runFrom calls c.units fuel 0 _ <;> rfl
  | system absent known =>
    exact ⟨_, .system absent known, fun fuel => funext fun g =>
      Routine.runFrom_of_next fuel hst (Step.run_callSystem calls _ _ g)⟩

/-- **The flow of the main routine.** An instruction of an assembled program that lies in no
function and is no return has a position in the main routine of the compiled program. At the
following position is the next instruction that lies in no function, or the end of the program. It
is the one behind exactly if no function begins there. If the interpreter passes the instruction
by, the main routine goes on with the following position, with the same data, and so it does behind
a call, when the callee comes back. -/
theorem flow_ofLines {lines : List String} {seed : LabelTable} {p : Program} {c : CompiledProgram}
    (h : Program.ofLines lines seed = .ok p) (hc : compile p systemCalls = .ok c) {w : Word}
    {i : Instruction} (hw : p.words[index]? = some w) (hdecode : Instruction.decode w = some i)
    (hout : ¬p.ranges.any (·.contains index)) (hstays : i.isReturn = false) :
    ∃ position next, c.Adjacent p systemCalls index position next ∧
      (∀ {m m' : Machine σ} {g : Guest σ}, m.PassesBy index w i m' → m.cpu.SameData g.cpu →
        g.host = m.host → ∀ calls : SystemCalls σ,
        ∃ g', m'.cpu.SameData g'.cpu ∧ g'.host = m'.host ∧ ∀ fuel,
          c.main.runFrom calls c.units (fuel + 1) position g =
            c.main.runFrom calls c.units fuel (position + 1) g') ∧
      ∀ (op : Opcode) (f : JumpForm) (link : Word), i = .jump op f →
        link = codeAddress Program.textStart (index + 1) → ∀ calls : SystemCalls σ,
        ∃ run, c.CalleeRun p systemCalls calls link (f.target link) run ∧ ∀ fuel,
          c.main.runFrom calls c.units (fuel + 1) position =
            (do run fuel; c.main.runFrom calls c.units fuel (position + 1)) := by
  have hrenders := compile_eq_ok hc
  have hfunctions : ∀ x ∈ p.functions.extents, p.HasFunction x :=
    fun x hx => Program.hasFunction_of_mem h hx
  obtain ⟨position, hcode⟩ := exists_outside hw hout
  obtain ⟨next, hadjacent⟩ := hrenders.adjacent hfunctions hcode
  refine ⟨position, next, hadjacent, ?_, ?_⟩
  · intro m m' g hpasses hdata hhost calls
    exact hrenders.runFrom_of_passesBy hfunctions hcode hdecode hstays hpasses hdata hhost calls
  · rintro op f link rfl hlink calls
    exact hrenders.runFrom_of_call hfunctions hcode hdecode calls hlink

/-- A program that runs into its function before it calls it. -/
def runsInto : List String := [
  "main: movi r31, 12",
  "f:    addi r2, r2, 1",
  "      ret",
  "      call f"]

/-- The interpreter goes from the first instruction of `runsInto` to the function, and the main
routine to the call behind it, so the function is run once less. Behind the call it is at its
end. -/
theorem flow_ofLines_runsInto :
    let m : Machine (Array Byte) := .new { memorySize := 64 } #[]
    let i := Instruction.ofImmediate .addi 0 31 12
    let i' := Instruction.ofJump .call 1
    ∃ p c m' position g', Program.ofLines runsInto (.ofSymbols m.calls.symbols) = .ok p ∧
      compile p m.calls.symbols.addresses = .ok c ∧
      (p.words[0]? = some i.encode ∧ Instruction.decode i.encode = some i ∧
        ¬p.ranges.any (·.contains 0) ∧ i.isReturn = false ∧
        (m.prepared p).PassesBy 0 i.encode i m' ∧ p.BeginsAt 1 ∧
        c.Adjacent p m.calls.symbols.addresses 0 position 3 ∧ m'.cpu.SameData g'.cpu ∧
        ∀ fuel, c.main.runFrom m.calls c.units (fuel + 1) position (m.prepared p).toGuest =
          c.main.runFrom m.calls c.units fuel (position + 1) g') ∧
      (p.words[3]? = some i'.encode ∧ Instruction.decode i'.encode = some i' ∧
        ¬p.ranges.any (·.contains 3) ∧ i'.isReturn = false ∧ ¬p.BeginsAt 4 ∧
        ∃ position run, c.Adjacent p m.calls.symbols.addresses 3 position 4 ∧
          c.CalleeRun p m.calls.symbols.addresses m.calls 16 4 run ∧ ∀ fuel,
            c.main.runFrom m.calls c.units (fuel + 1) position =
              (do run fuel; c.main.runFrom m.calls c.units fuel (position + 1))) ∧
      ∃ m₁ m₂, Machine.runProgram 20 p m = .ok () m₁ ∧ Machine.runCompiled 20 p m = .ok () m₂ ∧
        m₁.cpu.registers.read 2 = 2 ∧ m₂.cpu.registers.read 2 = 1 := by
  intro m i i'
  have haccepted : (Program.ofLines runsInto (.ofSymbols m.calls.symbols)).toOption.any fun p =>
      (compile p m.calls.symbols.addresses).toOption.any fun _ =>
      match Machine.step 0 (m.prepared p), Machine.runProgram 20 p m,
        Machine.runCompiled 20 p m with
      | .ok _ m', .ok _ m₁, .ok _ m₂ =>
        decide ((p.words[0]? = some i.encode ∧ p.words[3]? = some i'.encode ∧
            p.ranges = [⟨1, 3⟩] ∧ p.BeginsAt 1 ∧ ¬p.BeginsAt 4) ∧
          ((m.prepared p).cpu.pc = 0 ∧ m'.cpu.pc = 4 ∧
            ((m.prepared p).cpu.memory.readWord ⟨"fetch", 0⟩ 0).toOption.any fun w =>
              decide (w = i.encode)) ∧
          m₁.cpu.registers.read 2 = 2 ∧ m₂.cpu.registers.read 2 = 1)
      | _, _, _ => false := by
    decide +kernel
  obtain ⟨p, h, hcompiles⟩ := any_toOption haccepted
  obtain ⟨c, hc, hp⟩ := any_toOption hcompiles
  split at hp
  · next _ m' _ m₁ _ m₂ hstep hinterpreted hcompiled =>
    obtain ⟨⟨hw, hw', hranges, hbegins, hfree⟩, ⟨hpc, hpc', hread⟩, htwo, hone⟩ :=
      of_decide_eq_true hp
    have hdecode : Instruction.decode i.encode = some i := by decide
    have hdecode' : Instruction.decode i'.encode = some i' := by decide
    have hout : ¬p.ranges.any (·.contains 0) := by simp [hranges, IndexRange.contains]
    have hout' : ¬p.ranges.any (·.contains 3) := by simp [hranges, IndexRange.contains]
    have hpasses : (m.prepared p).PassesBy 0 i.encode i m' := by
      obtain ⟨w, hw, heq⟩ := any_toOption hread
      obtain rfl : w = i.encode := of_decide_eq_true heq
      exact ⟨hpc, by rwa [hpc], rfl, ⟨0, hstep⟩, hpc'⟩
    obtain ⟨position, next, hadjacent, hpasses', -⟩ := flow_ofLines h hc hw hdecode hout rfl
    obtain ⟨position', next', hadjacent', -, hcalls⟩ := flow_ofLines h hc hw' hdecode' hout' rfl
    obtain rfl : next = 3 := by
      refine hadjacent.next_eq (fun x hx => Program.hasFunction_of_mem h hx) (by decide) ?_ hout'
      intro j hafter hbefore
      simp [hranges, IndexRange.contains]
      omega
    obtain rfl : next' = 4 := hadjacent'.next_iff.2 hfree
    obtain ⟨g', hdata, -, hrun⟩ := hpasses' hpasses (.refl _) rfl m.calls
    obtain ⟨run, hcallee, hreturns⟩ := hcalls .call ⟨Opcode.call.code, 1⟩ 16 rfl rfl m.calls
    exact ⟨p, c, m', position, g', h, hc,
      ⟨hw, hdecode, hout, rfl, hpasses, hbegins, hadjacent, hdata, hrun⟩,
      ⟨hw', hdecode', hout', rfl, hfree, position', run, hadjacent', hcallee, hreturns⟩,
      m₁, m₂, hinterpreted, hcompiled, htwo, hone⟩
  · cases hp

end CompiledProgram

end Risc32
