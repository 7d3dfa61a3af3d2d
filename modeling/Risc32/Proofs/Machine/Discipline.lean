import Risc32.Proofs.Compiled.Calls
import Risc32.Proofs.Machine.OnDemand

/-!
# Disciplined runs

The interpreter returns to wherever the return address register says, and it runs into a function as
readily as over any other instruction. A program that was compiled as a whole returns to its caller
and enters functions by calls alone. `Machine.Disciplined` says of a run that it makes no use of
the difference, and `SystemCall.Detached` of a system call that it does not look at what compiled
code does not keep.

Both are inherited by the machine that records its system calls.
-/

set_option autoImplicit false

namespace Risc32

variable {σ α : Type}

/-! ## System calls -/

/-- The action leaves the program counter alone and depends neither on it nor on the word fetched
last. -/
structure SystemCall.Detached (c : SystemCall σ) : Prop where
  pc : ∀ (cpu : Processor) (host : σ), (c.action cpu host).1.pc = cpu.pc
  data : ∀ {cpu cpu' : Processor} (host : σ), cpu.SameData cpu' →
    (c.action cpu host).1.SameData (c.action cpu' host).1
  host : ∀ {cpu cpu' : Processor} (host : σ), cpu.SameData cpu' →
    (c.action cpu' host).2 = (c.action cpu host).2

namespace SystemCalls

def Detached (t : SystemCalls σ) : Prop :=
  ∀ c ∈ t.calls, c.Detached

/-- A detached system call does the same to guests with the same data. -/
theorem Detached.perform {t : SystemCalls σ} (h : t.Detached) (link address : Word)
    {g g' : Guest σ} (hdata : g.cpu.SameData g'.cpu) (hhost : g'.host = g.host) :
    (t.perform link address g).cpu.pc = g.cpu.pc ∧
      (t.perform link address g).cpu.SameData (t.perform link address g').cpu ∧
      (t.perform link address g').host = (t.perform link address g).host := by
  obtain ⟨cpu, host⟩ := g
  obtain ⟨cpu', host'⟩ := g'
  obtain rfl : host' = host := hhost
  have hlink : (cpu.link link).SameData (cpu'.link link) := hdata.link link
  simp only [SystemCalls.perform, invoke?]
  cases hfind : t.find? address with
  | none => exact ⟨rfl, hlink, rfl⟩
  | some c =>
    have hc : c.Detached := h c (List.mem_of_find?_eq_some hfind)
    exact ⟨hc.pc _ _, hc.data _ hlink, hc.host _ hlink⟩

/-- To take note of a call does not attach it, if the view is one of registers and memory. -/
theorem Detached.recording {t : SystemCalls σ} (h : t.Detached) {view : Processor → α}
    (hview : ∀ {cpu cpu' : Processor}, cpu.SameData cpu' → view cpu' = view cpu) :
    (t.recording view).Detached := by
  intro c hc
  obtain ⟨c₀, hc₀, rfl⟩ := List.mem_map.1 hc
  have h₀ : c₀.Detached := h c₀ hc₀
  refine ⟨fun cpu host => h₀.pc cpu host.1, fun host hdata => h₀.data host.1 hdata, ?_⟩
  intro cpu cpu' host hdata
  show ((c₀.action cpu' host.1).2, host.2 ++ [(c₀.address, view cpu')]) =
    ((c₀.action cpu host.1).2, host.2 ++ [(c₀.address, view cpu)])
  rw [h₀.host host.1 hdata, hview hdata]

theorem detached_defaults [Console σ] : (defaults : SystemCalls σ).Detached := by
  intro c hc
  obtain rfl := List.mem_singleton.1 hc
  refine ⟨fun cpu host => rfl, fun host hdata => hdata, ?_⟩
  intro cpu cpu' host hdata
  show Console.put ((cpu'.registers.read .firstArgument).setWidth 8) host = _
  rw [hdata.registers]
  rfl

end SystemCalls

/-! ## Returns and functions -/

/-- The address lies in a function of the program. -/
def Program.InFunction (p : Program) (address : Word) : Prop :=
  ∃ x ∈ p.functions.extents, x.entry ≤ address.toNat ∧ address.toNat < x.entry + 4 * x.size

instance (p : Program) (address : Word) : Decidable (p.InFunction address) :=
  inferInstanceAs (Decidable (∃ x ∈ p.functions.extents,
    x.entry ≤ address.toNat ∧ address.toNat < x.entry + 4 * x.size))

namespace Machine

/-- Every return of the run goes back behind the innermost call that is active, and the run is
inside of a function only as long as a call is active. -/
structure Disciplined (p : Program) (m₀ : Machine σ) : Prop where
  returns : ∀ {m : Machine σ} {active : List Word} {i : Instruction}, Reaches m₀ m active →
    m.cpu.pc < m.programEnd → m.instruction? = some i → i.isReturn →
    active.head? = some (m.cpu.registers.read .returnAddress)
  functions : ∀ {m : Machine σ}, Reaches m₀ m [] → ¬p.InFunction m.cpu.pc

/-- What discipline asks of a single machine. -/
def disciplinedAt (p : Program) (m : Machine σ) (active : List Word) : Bool :=
  (m.instruction?.all fun i =>
    !i.isReturn || active.head? == some (m.cpu.registers.read .returnAddress)) &&
  (!active.isEmpty || !decide (p.InFunction m.cpu.pc))

/-- A recorded run is as disciplined as the run. -/
theorem Disciplined.of_forget {p : Program} {view : Processor → α} {t : SystemCalls σ}
    {m₀ : Machine (σ × CallRecord α)} (h : Disciplined p (m₀.forget t))
    (hcalls : m₀.calls = t.recording view) : Disciplined p m₀ where
  returns hreaches hlt hi hreturn := h.returns (hreaches.forget hcalls) hlt hi hreturn
  functions hreaches := h.functions (hreaches.forget hcalls)

/-- The run of the program, if it fits, is disciplined. -/
def DisciplinedOf (p : Program) (m : Machine σ) : Prop :=
  ∀ m₀, prepare p m = .ok () m₀ → Disciplined p m₀

theorem disciplinedOf_of_check {p : Program} {m : Machine σ} {fuel : Nat}
    (hoff : m.config.compileOnDemand = false)
    (hcheck : checkReached (disciplinedAt p) fuel (m.prepared p) []) : DisciplinedOf p m := by
  intro m₀ hprepare
  obtain ⟨-, rfl⟩ := prepare_eq_ok hprepare
  have hoff₀ : (m.prepared p).config.compileOnDemand = false := hoff
  constructor
  · intro m' active i hreaches hlt hi hreturn
    have hat := (Bool.and_eq_true_iff.1 (hreaches.of_check hoff₀ hcheck)).1
    rw [hi, Option.all_some, hreturn] at hat
    simpa using hat
  · intro m' hreaches
    have hat := (Bool.and_eq_true_iff.1 (hreaches.of_check hoff₀ hcheck)).2
    simpa using hat

theorem DisciplinedOf.recording {p : Program} {m : Machine σ} (h : DisciplinedOf p m)
    (view : Processor → α) : DisciplinedOf p (m.recording view) := by
  intro m₀ hprepare
  have hforget := prepare_forget view p m
  rw [hprepare] at hforget
  exact (h _ hforget).of_forget (calls_of_prepare hprepare)

end Machine

end Risc32
