import Risc32.Proofs.Compiled.Whole

/-!
# Where calls go

The interpreter looks up where a call goes when it comes to it, and looks for a system call first.
Compiled code has had it looked up before, for a function first. The two find the same everywhere
but where a function begins at the address of a system call, and there they never do. The assembler
does not rule such a function out, for its labels may stand anywhere.
-/

set_option autoImplicit false

namespace Risc32

variable {σ : Type}

/-- Where a call goes. -/
inductive Callee where
  /-- To the action of the system call at the address. -/
  | system (address : Word)
  /-- To the function at the address. -/
  | function (entry : Word)
deriving DecidableEq, Repr

/-! ## The interpreter -/

namespace SystemCalls

/-- The addresses that an assembler knows are those that run an action. -/
theorem contains_iff (t : SystemCalls σ) (address : Word) :
    t.contains address ↔ address ∈ t.symbols.addresses := by
  simp [contains, find?, SymbolTable.addresses, t.in_step]

/-- Where the machine goes when it calls an address. -/
def callee (t : SystemCalls σ) (target : Word) : Callee :=
  if t.contains target then .system target else .function target

end SystemCalls

/-- The machine after a call went there. -/
def Machine.enter (m : Machine σ) : Callee → Machine σ
  | .system address => { m with toGuest := m.calls.perform m.cpu.pc address m.toGuest }
  | .function entry => { m with cpu := { m.cpu.link m.cpu.pc with pc := entry } }

theorem Machine.call_callee (fuel : Nat) (name : String) {m : Machine σ} {target : Word}
    (hoff : m.config.compileOnDemand = false) (haligned : Word.Aligned target) :
    call fuel name target m = .ok () (m.enter (m.calls.callee target)) := by
  cases hcontains : m.calls.contains target with
  | true => simp [call_of_contains _ _ hcontains, SystemCalls.callee, hcontains, enter]
  | false =>
    rw [call_of_off _ _ hcontains hoff, if_pos haligned, SystemCalls.callee, hcontains]
    rfl

/-! ## Compiled code -/

/-- Where a step goes, if it calls. -/
def Step.callee? (units : Array Routine) : Step → Option Callee
  | .callUnit _ unit => units[unit]?.map fun r => .function r.entry
  | .callSystem _ address => some (.system address)
  | _ => none

theorem Step.run_callUnit (calls : SystemCalls σ) (link : Word) (unit : Nat) (g : Guest σ) :
    (Step.callUnit link unit).run calls g = .ok (.call unit) { g with cpu := g.cpu.link link } :=
  rfl

theorem Step.run_callSystem (calls : SystemCalls σ) (link address : Word) (g : Guest σ) :
    (Step.callSystem link address).run calls g = .ok .next (calls.perform link address g) :=
  rfl

namespace Routine

variable {calls : SystemCalls σ} {units : Array Routine} {r : Routine} {position : Nat} {st : Step}

theorem runFrom_of_system {address : Word} (h : r.steps[position]? = some st)
    (hcallee : st.callee? units = some (.system address)) :
    ∃ link, ∀ fuel g, r.runFrom calls units (fuel + 1) position g =
      r.runFrom calls units fuel (position + 1) (calls.perform link address g) := by
  cases st with
  | callSystem link address' =>
    obtain rfl : address' = address := by simpa [Step.callee?] using hcallee
    exact ⟨link, fun fuel g => runFrom_of_next fuel h (Step.run_callSystem calls link address' g)⟩
  | callUnit link unit => simp [Step.callee?] at hcallee
  | _ => cases hcallee

theorem runFrom_of_function {entry : Word} (h : r.steps[position]? = some st)
    (hcallee : st.callee? units = some (.function entry)) :
    ∃ link, ∃ r' ∈ units, r'.entry = entry ∧
      ∀ fuel g, r.runFrom calls units (fuel + 1) position g =
        match r'.runFrom calls units fuel 0 { g with cpu := g.cpu.link link } with
        | .ok _ g' => r.runFrom calls units fuel (position + 1) g'
        | .error halt g' => .error halt g' := by
  cases st with
  | callUnit link unit =>
    obtain ⟨r', hr', hentry⟩ := Option.map_eq_some_iff.1 hcallee
    refine ⟨link, r', Array.mem_of_getElem? hr', by simpa using hentry, ?_⟩
    intro fuel g
    exact runFrom_of_call fuel h (Step.run_callUnit calls link unit g) hr'
  | callSystem link address => simp [Step.callee?] at hcallee
  | _ => cases hcallee

end Routine

/-! ## Both -/

/-- What is counted in instructions cannot be misaligned. -/
theorem JumpForm.aligned_target (f : JumpForm) (pc : Word) : Word.Aligned (f.target pc) := by
  have hlow : ∀ i : Nat, i < 2 → (f.target pc).toNat.testBit i = false := by
    intro i hi
    rw [target, BitVec.testBit_toNat]
    obtain rfl | rfl : i = 0 ∨ i = 1 := by omega
    · simp
    · simp
  have h0 := hlow 0 (by decide)
  have h1 := hlow 1 (by decide)
  rw [Nat.testBit_eq_decide_div_mod_eq] at h0 h1
  simp only [decide_eq_false_iff_not] at h0 h1
  rw [Word.Aligned]
  omega

/-- A function of the program begins at the address. -/
def Program.IsEntry (p : Program) (address : Word) : Prop :=
  ∃ x ∈ p.functions.extents, x.entry = address.toNat

instance (p : Program) (address : Word) : Decidable (p.IsEntry address) :=
  inferInstanceAs (Decidable (∃ x ∈ p.functions.extents, x.entry = address.toNat))

theorem Program.isEntry_of_mem {p : Program}
    (hfunctions : ∀ x ∈ p.functions.extents, p.HasFunction x) {range : IndexRange}
    (hrange : range ∈ p.ranges) {target : Word} (first : 4 * range.first = target.toNat) :
    p.IsEntry target := by
  obtain ⟨x, hx, hentry, -⟩ := range_of_mem hfunctions hrange
  exact ⟨x, hx, hentry.trans first⟩

namespace CompiledProgram

/-- The step of a call to the target. -/
inductive CallStep (c : CompiledProgram) (p : Program) (systemCalls : List Word)
    (link target : Word) : Step → Prop where
  | unit {u : Nat} {range : IndexRange} {r : Routine} (function : p.ranges[u]? = some range)
      (compiled : c.units[u]? = some r) (first : 4 * range.first = target.toNat) :
      CallStep c p systemCalls link target (.callUnit link u)
  | system (absent : ¬p.IsEntry target) (known : target ∈ systemCalls) :
      CallStep c p systemCalls link target (.callSystem link target)

variable {c : CompiledProgram} {p : Program} {systemCalls : List Word} {r : Routine}
  {code : Listing} {stop : Option Nat}

theorem Part.callStep (hpart : c.Part p r code stop) (h : c.Renders p systemCalls)
    {position index : Nat} {w : Word} {op : Opcode} {f : JumpForm}
    (hword : code[position]? = some (w, index))
    (hdecode : Instruction.decode w = some (.jump op f)) :
    ∃ st, r.steps[position]? = some st ∧
      c.CallStep p systemCalls (codeAddress Program.textStart (index + 1))
        (f.target (codeAddress Program.textStart (index + 1))) st := by
  obtain ⟨i, st, hi, hst, hrenders⟩ := (hpart.realizes h).step hword
  obtain rfl := Option.some.inj (hdecode.symm.trans hi)
  refine ⟨st, hst, ?_⟩
  have haligned : (f.target (codeAddress Program.textStart (index + 1))).toNat % 4 = 0 :=
    f.aligned_target _
  cases hrenders with
  | callUnit linkage found =>
    obtain ⟨rfl, rfl⟩ := Linkage.units.inj linkage
    obtain ⟨range, hrange, hfirst⟩ := unit?_eq_some found
    obtain ⟨r', hr', -⟩ := h.unit hrange
    refine .unit hrange hr' ?_
    simp only [surroundings] at hfirst
    omega
  | callSystem linkage absent found =>
    obtain ⟨rfl, rfl⟩ := Linkage.units.inj linkage
    refine .system ?_ found
    rintro ⟨x, hx, hentry⟩
    refine unit?_eq_none absent _ (List.mem_map_of_mem hx) ?_
    show x.entry / 4 = _
    rw [hentry]
    rfl

/-- A compiled call goes to the function that begins at the target, and else to a system call. -/
theorem CallStep.callee? {link target : Word} {st : Step}
    (hst : c.CallStep p systemCalls link target st) (h : c.Renders p systemCalls)
    (hfunctions : ∀ x ∈ p.functions.extents, p.HasFunction x) :
    st.callee? c.units = some (if p.IsEntry target then .function target else .system target) := by
  cases hst with
  | @unit u range r function compiled first =>
    have hentry := Program.isEntry_of_mem hfunctions (List.mem_of_getElem? function) first
    obtain ⟨r', hr', hrentry, -⟩ := h.unit function
    obtain rfl := Option.some.inj (compiled.symm.trans hr')
    rw [if_pos hentry, Step.callee?, compiled, Option.map_some, hrentry,
      Program.codeAddress_eq first]
  | system absent known => rw [if_neg absent, Step.callee?]

/-- It goes where the interpreter goes, unless there is both a function and a system call. -/
theorem CallStep.callee?_eq_callee_iff {t : SystemCalls σ} {link target : Word} {st : Step}
    (hst : c.CallStep p t.symbols.addresses link target st)
    (h : c.Renders p t.symbols.addresses)
    (hfunctions : ∀ x ∈ p.functions.extents, p.HasFunction x) :
    st.callee? c.units = some (t.callee target) ↔ ¬(t.contains target ∧ p.IsEntry target) := by
  have hcallee := hst.callee? h hfunctions
  by_cases hentry : p.IsEntry target
  · rw [if_pos hentry] at hcallee
    by_cases hcontains : t.contains target <;>
      simp [hcallee, SystemCalls.callee, hentry, hcontains]
  · rw [if_neg hentry] at hcallee
    -- There is no function to call, so there must have been a system call.
    have hcontains : t.contains target := by
      cases hst with
      | unit function compiled first =>
        exact absurd (Program.isEntry_of_mem hfunctions (List.mem_of_getElem? function) first)
          hentry
      | system absent known => exact (t.contains_iff target).2 known
    simp [hcallee, SystemCalls.callee, hentry, hcontains]

/-- **Compiled calls and interpreted calls.** Of a program that was assembled with the names of
some system calls and compiled with their addresses, every call goes where the interpreter would
go, except that a function goes before a system call at its entry. The interpreter has it the other
way round. -/
theorem compile_callee {lines : List String} (t : SystemCalls σ) {p : Program}
    {c : CompiledProgram} (h : Program.ofLines lines (.ofSymbols t.symbols) = .ok p)
    (hc : compile p t.symbols.addresses = .ok c) {index : Nat} {w : Word} {op : Opcode}
    {f : JumpForm} (hw : p.words[index]? = some w)
    (hdecode : Instruction.decode w = some (.jump op f)) {target : Word}
    (htarget : target = f.target (codeAddress Program.textStart (index + 1))) :
    (∃ r code stop, ∃ position : Nat, c.Part p r code stop ∧ code[position]? = some (w, index)) ∧
      ∀ r code stop (position : Nat), c.Part p r code stop → code[position]? = some (w, index) →
        ∃ st, r.steps[position]? = some st ∧
          st.callee? c.units =
            some (if p.IsEntry target then .function target else .system target) ∧
          (st.callee? c.units = some (t.callee target) ↔
            ¬(t.contains target ∧ p.IsEntry target)) := by
  subst htarget
  have hrenders := compile_eq_ok hc
  have hfunctions : ∀ x ∈ p.functions.extents, p.HasFunction x :=
    fun x hx => Program.hasFunction_of_mem h hx
  refine ⟨exists_part hrenders hw, ?_⟩
  intro r code stop position hpart hword
  obtain ⟨st, hst, hcall⟩ := hpart.callStep hrenders hword hdecode
  exact ⟨st, hst, hcall.callee? hrenders hfunctions,
    hcall.callee?_eq_callee_iff hrenders hfunctions⟩

/-- A program whose function begins at address 8. -/
def callsEight : List String := [
  "main: call f",
  "      br   done",
  "f:    movi r1, 7",
  "      ret",
  "done: nop"]

/-- A system call at address 8. -/
def systemEight : SystemCalls Unit where
  symbols := ⟨[("eight", 8)], by simp, by simp⟩
  calls := [⟨"eight", 8, fun cpu host => (cpu.setRegister 3 5, host)⟩]
  in_step := rfl

/-- The one call of `callsEight` goes to the function when it is compiled and to the system call
when it is interpreted. -/
theorem compile_callee_callsEight :
    ∃ p c, Program.ofLines callsEight (.ofSymbols systemEight.symbols) = .ok p ∧
      compile p systemEight.symbols.addresses = .ok c ∧
      (let w := (Instruction.ofJump .call 2).encode
      p.words[0]? = some w ∧ Instruction.decode w = some (.ofJump .call 2) ∧
      (8 : Word) = JumpForm.target ⟨Opcode.call.code, 2⟩ (codeAddress Program.textStart (0 + 1)) ∧
      ∃ r code stop st, ∃ position : Nat, c.Part p r code stop ∧
        code[position]? = some (w, 0) ∧ r.steps[position]? = some st ∧
        st.callee? c.units = some (.function 8) ∧ systemEight.callee 8 = .system 8) := by
  have haccepted : (Program.ofLines callsEight (.ofSymbols systemEight.symbols)).toOption.any
      fun p => (compile p systemEight.symbols.addresses).toOption.any fun _ =>
        decide (p.words[0]? = some (Instruction.ofJump .call 2).encode ∧ p.IsEntry 8) := by
    decide +kernel
  obtain ⟨p, h, hcompiles⟩ := any_toOption haccepted
  obtain ⟨c, hc, hp⟩ := any_toOption hcompiles
  obtain ⟨hw, hentry⟩ := of_decide_eq_true hp
  have hdecode : Instruction.decode (Instruction.ofJump .call 2).encode =
      some (.ofJump .call 2) := by decide
  have htarget : (8 : Word) =
      JumpForm.target ⟨Opcode.call.code, 2⟩ (codeAddress Program.textStart (0 + 1)) := by decide
  obtain ⟨⟨r, code, stop, position, hpart, hword⟩, hcalls⟩ :=
    compile_callee systemEight h hc hw hdecode htarget
  obtain ⟨st, hst, hcallee, -⟩ := hcalls r code stop position hpart hword
  rw [if_pos hentry] at hcallee
  exact ⟨p, c, h, hc, hw, hdecode, htarget, r, code, stop, st, position, hpart, hword, hst,
    hcallee, by decide⟩

end CompiledProgram

end Risc32
