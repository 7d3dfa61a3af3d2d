import Mathlib.Data.List.Induction
import Mathlib.Data.List.Nodup
import Risc32.Proofs.Names
import Risc32.Proofs.Preservation

/-!
# The registry of system calls

System calls are added one at a time, and a request to add one may be refused. This file says what
is registered after any sequence of requests (`SystemCalls.registry_after`): the calls that were
added when they were asked for (`SystemCalls.Added`), and nothing else.

Names are looked up in one collection and actions in another. Both change with a request that is
granted and stay as they are with one that is refused, so a name and an address keep the action that
came first, and what has a name has an action.

The default system calls are no special case, since a table that begins with them is one in which
`putchar` was added first.
-/

set_option autoImplicit false

namespace Risc32

namespace SystemCalls

variable {σ : Type} {t t' : SystemCalls σ} {c : SystemCall σ} {name : String} {address : Word}

/-! ## What is found -/

theorem nodup_names (t : SystemCalls σ) : (t.calls.map (·.name)).Nodup := by
  have hnodup := t.symbols.names_nodup
  rwa [t.in_step, List.map_map] at hnodup

theorem nodup_addresses (t : SystemCalls σ) : (t.calls.map (·.address)).Nodup := by
  have hnodup := t.symbols.addresses_nodup
  rwa [t.in_step, List.map_map] at hnodup

theorem find?_eq_some_iff : t.find? address = some c ↔ c ∈ t.calls ∧ c.address = address :=
  find?_eq_some_iff_mem t.nodup_addresses

theorem find?_eq_none_iff : t.find? address = none ↔ ∀ c ∈ t.calls, c.address ≠ address := by
  simp [find?]

theorem mem_symbols_iff :
    (name, address) ∈ t.symbols.entries ↔ ∃ c ∈ t.calls, c.name = name ∧ c.address = address := by
  simp [t.in_step]

theorem address?_eq_some_iff :
    t.address? name = some address ↔ ∃ c ∈ t.calls, c.name = name ∧ c.address = address := by
  rw [address?, SymbolTable.address?_eq_some_iff, mem_symbols_iff]

theorem name?_eq_some_iff :
    t.symbols.name? address = some name ↔ ∃ c ∈ t.calls, c.name = name ∧ c.address = address := by
  rw [SymbolTable.name?_eq_some_iff, mem_symbols_iff]

theorem contains_iff_exists : t.contains address = true ↔ ∃ c ∈ t.calls, c.address = address := by
  rw [contains, Option.isSome_iff_exists]
  exact exists_congr fun c => find?_eq_some_iff

theorem invoke_of_mem (h : c ∈ t.calls) (g : Guest σ) :
    t.invoke c.address g = (true, ⟨(c.action g.cpu g.host).1, (c.action g.cpu g.host).2⟩) := by
  simp only [invoke, invoke?, find?_eq_some_iff.2 ⟨h, rfl⟩]

theorem invoke_of_not_mem (h : ∀ c ∈ t.calls, c.address ≠ address) (g : Guest σ) :
    t.invoke address g = (false, g) := by
  simp only [invoke, invoke?, find?_eq_none_iff.2 h]

/-! ## One request -/

/-- The name of the call or its address is registered. -/
def Taken (t : SystemCalls σ) (c : SystemCall σ) : Prop :=
  (∃ address, t.address? c.name = some address) ∨ ∃ name, t.symbols.name? c.address = some name

theorem add?_eq_none_iff : t.add? c = none ↔ t.Taken c := by
  have hinsert : t.add? c = none ↔ t.symbols.insert? c.name c.address = none := by
    rw [add?]
    split <;> simp [*]
  rw [hinsert, SymbolTable.insert?_eq_none_iff]
  rfl

theorem add_apply (c : SystemCall σ) (t : SystemCalls σ) :
    add c t =
      match t.add? c with
      | some t' => .ok () t'
      | none => .error (c.name, c.address) t := by
  have hunfold : add c t =
      (match t.add? c with
        | some t' => set t'
        | none => throw (c.name, c.address) : EStateM (String × Word) (SystemCalls σ) Unit) t := rfl
  rw [hunfold]
  cases t.add? c <;> rfl

theorem add_of_taken (h : t.Taken c) : add c t = .error (c.name, c.address) t := by
  rw [add_apply, add?_eq_none_iff.2 h]

theorem add_of_not_taken (h : ¬t.Taken c) : ∃ t', add c t = .ok () t' ∧ t'.calls = c :: t.calls := by
  cases hadd : t.add? c with
  | none => exact absurd (add?_eq_none_iff.1 hadd) h
  | some t' =>
    refine ⟨t', ?_, calls_add? hadd⟩
    rw [add_apply, hadd]

/-- A request fails exactly if what it asks for is taken, and then it has changed nothing. -/
theorem add_eq_error_iff {pair : String × Word} :
    add c t = .error pair t' ↔ t.Taken c ∧ pair = (c.name, c.address) ∧ t' = t := by
  by_cases h : t.Taken c
  · simp [add_of_taken h, h, eq_comm]
  · obtain ⟨t₁, hadd, -⟩ := add_of_not_taken h
    simp [hadd, h]

/-! ## Histories -/

/-- The table after a request, whether it was refused or not. -/
def request (t : SystemCalls σ) (c : SystemCall σ) : SystemCalls σ :=
  match add c t with
  | .ok () t' => t'
  | .error _ t' => t'

/-- The table after requests, one after the other, of which the first found it empty. -/
def after (history : List (SystemCall σ)) : SystemCalls σ :=
  history.foldl request empty

theorem after_concat (history : List (SystemCall σ)) (c : SystemCall σ) :
    after (history ++ [c]) = (after history).request c := by
  rw [after, List.foldl_append]
  rfl

/-- The call was asked for when neither its name nor its address was registered. -/
def Added (history : List (SystemCall σ)) (c : SystemCall σ) : Prop :=
  ∃ earlier later, history = earlier ++ c :: later ∧ ¬(after earlier).Taken c

theorem not_added_nil (c : SystemCall σ) : ¬Added [] c := by
  rintro ⟨earlier, later, h, -⟩
  simp at h

theorem added_concat_iff {history : List (SystemCall σ)} {c d : SystemCall σ} :
    Added (history ++ [d]) c ↔ (c = d ∧ ¬(after history).Taken d) ∨ Added history c := by
  constructor
  · rintro ⟨earlier, later, h, hfree⟩
    rcases List.eq_nil_or_concat later with rfl | ⟨later, last, rfl⟩
    · obtain ⟨rfl, hlast⟩ := List.append_inj' h rfl
      obtain rfl := List.singleton_inj.1 hlast
      exact .inl ⟨rfl, hfree⟩
    · rw [List.concat_eq_append, ← List.cons_append, ← List.append_assoc] at h
      obtain ⟨hhistory, -⟩ := List.append_inj' h rfl
      exact .inr ⟨earlier, later, hhistory, hfree⟩
  · rintro (⟨rfl, hfree⟩ | ⟨earlier, later, rfl, hfree⟩)
    · exact ⟨history, [], rfl, hfree⟩
    · exact ⟨earlier, later ++ [d], by simp, hfree⟩

/-- Registered are the calls that were added. -/
theorem mem_after_iff {history : List (SystemCall σ)} {c : SystemCall σ} :
    c ∈ (after history).calls ↔ Added history c := by
  induction history using List.reverseRecOn with
  | nil => exact iff_of_false List.not_mem_nil (not_added_nil c)
  | append_singleton history d ih =>
    rw [after_concat, added_concat_iff, request]
    by_cases htaken : (after history).Taken d
    · simp [add_of_taken htaken, htaken, ih]
    · obtain ⟨t', hadd, hcalls⟩ := add_of_not_taken htaken
      simp [hadd, hcalls, htaken, ih]

/-- Calls that are registered differ in their names and in their addresses. -/
theorem eq_of_mem {c d : SystemCall σ} (hc : c ∈ t.calls) (hd : d ∈ t.calls)
    (h : c.name = d.name ∨ c.address = d.address) : c = d := by
  rcases h with hname | haddress
  · exact List.inj_on_of_nodup_map t.nodup_names hc hd hname
  · exact List.inj_on_of_nodup_map t.nodup_addresses hc hd haddress

/-- **The registry of system calls.** After any requests to add calls, a name is bound to an address
exactly if a call with that name and that address was added, in whichever direction the table is
read; a `call` to an address runs an action exactly if some name is bound to it; and that action is
the one of the call that was added there, of which there is only one. Where none was added, nothing
runs and the guest is as it was.

The next request is refused exactly if its name or its address is registered. Then the two are
handed back, and the table is the same as before with everything in it. Otherwise the call is
added and all others stay.

A table that begins with the default system calls is one where `putchar` was added first. -/
theorem registry_after (history : List (SystemCall σ)) :
    let t := after history
    (∀ address, t.contains address = true ↔ ∃ name, t.address? name = some address) ∧
      (∀ name address,
        (t.address? name = some address ↔ t.symbols.name? address = some name) ∧
        (t.address? name = some address ↔
          ∃ c, Added history c ∧ c.name = name ∧ c.address = address)) ∧
      (∀ c, Added history c → ∀ g : Guest σ, t.invoke c.address g =
        (true, ⟨(c.action g.cpu g.host).1, (c.action g.cpu g.host).2⟩)) ∧
      (∀ c d, Added history c → Added history d → c.name = d.name ∨ c.address = d.address →
        c = d) ∧
      (∀ address, (∀ c, Added history c → c.address ≠ address) →
        ∀ g : Guest σ, t.invoke address g = (false, g)) ∧
      (∀ c pair t', add c t = .error pair t' ↔
        ((∃ address, t.address? c.name = some address) ∨
          ∃ name, t.symbols.name? c.address = some name) ∧
        pair = (c.name, c.address) ∧ t' = t) ∧
      (∀ c t', add c t = .ok () t' → ∀ d, d ∈ t'.calls ↔ d = c ∨ d ∈ t.calls) ∧
      ∀ [Console σ], history.foldl request defaults = after (putchar :: history) := by
  intro t
  simp only [← mem_after_iff]
  refine ⟨?_, ?_, ?_, ?_, ?_, ?_, ?_, rfl⟩
  · intro address
    simp only [contains_iff_exists, address?_eq_some_iff]
    constructor
    · rintro ⟨c, hc, haddress⟩
      exact ⟨c.name, c, hc, rfl, haddress⟩
    · rintro ⟨name, c, hc, -, haddress⟩
      exact ⟨c, hc, haddress⟩
  · intro name address
    exact ⟨address?_eq_some_iff.trans name?_eq_some_iff.symm, address?_eq_some_iff⟩
  · exact fun c hc => invoke_of_mem hc
  · exact fun c d hc hd => eq_of_mem hc hd
  · exact fun address hnone => invoke_of_not_mem hnone
  · exact fun c pair t' => add_eq_error_iff
  · intro c t' hadd d
    have hfree : ¬t.Taken c := by
      intro htaken
      cases (add_of_taken htaken).symm.trans hadd
    obtain ⟨t₁, hadd₁, hcalls⟩ := add_of_not_taken hfree
    obtain ⟨-, rfl⟩ := EStateM.Result.ok.inj (hadd₁.symm.trans hadd)
    rw [hcalls, List.mem_cons]

/-- Prints a character whatever the processor holds. -/
def printing (name : String) (address : Word) (b : Byte) : SystemCall (Array Byte) where
  name := name
  address := address
  action cpu shown := (cpu, Console.put b shown)

/-- Requests for the address of `putchar`, for its name, and for what is free after both were
refused. -/
def disputed : List (SystemCall (Array Byte)) :=
  [putchar, printing "other" 5000 1, printing "putchar" 6000 2, printing "noop" 6000 3]

/-- Of `disputed`, the first and the last request are granted. At 6000 the action is that of the
last request, at 6004 there is none, and the address of `putchar` stays taken. -/
theorem registry_after_disputed (g : Guest (Array Byte)) :
    let t := after disputed
    Added disputed putchar ∧ Added disputed (printing "noop" 6000 3) ∧
      (t.address? "noop" = some 6000 ∧ t.symbols.name? 6000 = some "noop") ∧
      t.contains 6000 = true ∧
      t.invoke 6000 g = (true, ⟨g.cpu, g.host.push 3⟩) ∧
      t.invoke 6004 g = (false, g) ∧
      add (printing "other" 5000 1) t = .error ("other", 5000) t := by
  intro t
  have hcalls : t.calls = [printing "noop" 6000 3, putchar] := rfl
  have hputchar : Added disputed putchar := mem_after_iff.1 (by simp [t, hcalls])
  have hnoop : Added disputed (printing "noop" 6000 3) := mem_after_iff.1 (by simp [t, hcalls])
  obtain ⟨hcontains, hnames, hruns, -, hnone, hrefused, -⟩ := registry_after disputed
  have hbound := (hnames "noop" 6000).2.2 ⟨_, hnoop, rfl, rfl⟩
  refine ⟨hputchar, hnoop, ⟨hbound, (hnames "noop" 6000).1.1 hbound⟩,
    (hcontains 6000).2 ⟨_, hbound⟩, hruns _ hnoop g, hnone 6004 ?_ g, ?_⟩
  · intro c hc
    rw [← mem_after_iff, hcalls] at hc
    rcases List.mem_pair.1 hc with rfl | rfl
    · decide
    · decide
  · refine (hrefused _ _ _).2 ⟨.inr ⟨"putchar", ?_⟩, rfl, rfl⟩
    exact (hnames "putchar" 5000).1.1 ((hnames "putchar" 5000).2.2 ⟨_, hputchar, rfl, rfl⟩)

end SystemCalls

end Risc32
