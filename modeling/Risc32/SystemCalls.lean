import Risc32.Processor
import Risc32.Names

/-!
# System calls

A system call is an action of the host, bound to a reserved address. A `call` to that address
runs the action instead of handing control to guest code.

An action may change the processor in any way, and it has the state `σ` of the host at its
disposal: what was written to the console, a log, whatever the embedding program keeps. The
machine never looks into that state, it only carries it along.
-/

set_option autoImplicit false

namespace Risc32

/-- The processor together with the state of its host. -/
structure Guest (σ : Type) where
  cpu : Processor
  host : σ

/-- Works on the processor and leaves the host alone. -/
@[inline] def Guest.onProcessor {σ α : Type} (x : Exec Processor α) : Exec (Guest σ) α
  | ⟨cpu, host⟩ =>
    match x cpu with
    | .ok a cpu => .ok a ⟨cpu, host⟩
    | .error halt cpu => .error halt ⟨cpu, host⟩

abbrev SystemCall.Action (σ : Type) := Processor → σ → Processor × σ

/-- An action with the name and the address it is bound to. -/
structure SystemCall (σ : Type) where
  name : String
  address : Word
  action : SystemCall.Action σ

/-- A host that can show a character. -/
class Console (σ : Type) where
  put : Byte → σ → σ

/-- A host that keeps nothing but the characters it was shown. -/
instance : Console (Array Byte) where
  put b shown := shown.push b

/-- The system calls a machine knows: the names and the addresses that they are bound to, and the
call whose action runs at each of these addresses. The second is kept in step with the first. -/
structure SystemCalls (σ : Type) where
  symbols : SymbolTable
  calls : List (SystemCall σ)
  in_step : symbols.entries = calls.map fun c => (c.name, c.address)

namespace SystemCalls

variable {σ : Type}

def empty : SystemCalls σ :=
  ⟨.empty, [], rfl⟩

/-- The calls with `c` at its address, whatever was there before. -/
def insertCall (c : SystemCall σ) (calls : List (SystemCall σ)) : List (SystemCall σ) :=
  c :: calls.filter (·.address != c.address)

/-- At an address that is free, nothing is overwritten. -/
theorem insertCall_eq_cons {t : SystemCalls σ} {c : SystemCall σ}
    (h : c.address ∉ t.symbols.entries.map (·.2)) : insertCall c t.calls = c :: t.calls := by
  rw [t.in_step, List.map_map] at h
  rw [insertCall, List.filter_eq_self.2]
  intro d hd
  exact bne_iff_ne.2 fun heq => h (List.mem_map.2 ⟨d, hd, heq⟩)

/-- Adds a system call, unless its name or its address is taken. -/
def add? (t : SystemCalls σ) (c : SystemCall σ) : Option (SystemCalls σ) :=
  match hinsert : t.symbols.insert? c.name c.address with
  | none => none
  | some symbols => some {
      symbols := symbols
      calls := insertCall c t.calls
      in_step := by
        obtain ⟨hfree, hentries⟩ := SymbolTable.insert?_eq_some hinsert
        rw [insertCall_eq_cons hfree, hentries, t.in_step, List.map_cons] }

/-- Asks to add a system call. One that cannot be added is handed back by its name and its address,
and the table stays as it is. -/
def add (c : SystemCall σ) : EStateM (String × Word) (SystemCalls σ) Unit := do
  match (← get).add? c with
  | some t => set t
  | none => throw (c.name, c.address)

def find? (t : SystemCalls σ) (address : Word) : Option (SystemCall σ) :=
  t.calls.find? (·.address == address)

/-- Whether a call to `address` runs an action. -/
def contains (t : SystemCalls σ) (address : Word) : Bool :=
  (t.find? address).isSome

def address? (t : SystemCalls σ) (name : String) : Option Word :=
  t.symbols.address? name

/-- What the action at `address` makes of the guest. None if there is no action. -/
def invoke? (t : SystemCalls σ) (address : Word) (g : Guest σ) : Option (Guest σ) :=
  match t.find? address, g with
  | some c, ⟨cpu, host⟩ =>
    let (cpu, host) := c.action cpu host
    some ⟨cpu, host⟩
  | none, _ => none

/-- Runs the action at `address` and says whether there is one. -/
def invoke (t : SystemCalls σ) (address : Word) (g : Guest σ) : Bool × Guest σ :=
  match t.invoke? address g with
  | some g => (true, g)
  | none => (false, g)

/-! ## The default system call -/

/-- `putchar` shows the low byte of `r4` on the console. -/
def putchar [Console σ] : SystemCall σ where
  name := "putchar"
  address := 5000#32
  action cpu host :=
    let shown := (cpu.registers.read .firstArgument).setWidth 8
    (cpu, Console.put shown host)

def defaults [Console σ] : SystemCalls σ where
  symbols := ⟨[("putchar", 5000#32)], by simp, by simp⟩
  calls := [putchar]
  in_step := rfl

end SystemCalls

end Risc32
