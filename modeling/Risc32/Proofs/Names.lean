import Risc32.Names

/-!
# Reading tables of names

A table binds a name once, so looking a name up finds the only pair that has it, and what is found
is what is in the table. A table of symbols can be read from the addresses as well.
-/

set_option autoImplicit false

namespace Risc32

/-- Among pairs whose keys differ, the one that is found is the one that is there. -/
theorem lookup_eq_some_iff_mem {κ α : Type} [BEq κ] [LawfulBEq κ] {entries : List (κ × α)}
    (hnodup : (entries.map (·.1)).Nodup) {key : κ} {value : α} :
    entries.lookup key = some value ↔ (key, value) ∈ entries := by
  induction entries with
  | nil => simp
  | cons e rest ih =>
    obtain ⟨first, _⟩ := e
    obtain ⟨hfirst, hrest⟩ := List.nodup_cons.1 hnodup
    rw [List.lookup_cons, List.mem_cons]
    by_cases heq : key = first
    · subst heq
      have habsent : (key, value) ∉ rest := fun hmem => hfirst (List.mem_map.2 ⟨_, hmem, rfl⟩)
      simp [habsent, eq_comm]
    · have hne : (key == first) = false := beq_eq_false_iff_ne.2 heq
      rw [hne]
      simpa [heq] using ih hrest

/-- Among elements that differ in what is asked for, the one that is found is the one that is
there. -/
theorem find?_eq_some_iff_mem {α κ : Type} [BEq κ] [LawfulBEq κ] {f : α → κ} {l : List α}
    (hnodup : (l.map f).Nodup) {key : κ} {a : α} :
    l.find? (f · == key) = some a ↔ a ∈ l ∧ f a = key := by
  constructor
  · intro h
    exact ⟨List.mem_of_find?_eq_some h, by simpa using List.find?_some h⟩
  · rintro ⟨hmem, rfl⟩
    induction l with
    | nil => simp at hmem
    | cons first rest ih =>
      obtain ⟨hfirst, hrest⟩ := List.nodup_cons.1 hnodup
      rcases List.mem_cons.1 hmem with rfl | hmem
      · simp
      · have hne : f first ≠ f a := fun heq => hfirst (heq ▸ List.mem_map_of_mem hmem)
        rw [List.find?_cons_of_neg (by simpa using hne)]
        exact ih hrest hmem

/-! ## Symbols -/

namespace SymbolTable

variable {t : SymbolTable} {name : String} {address : Word}

theorem address?_eq_some_iff : t.address? name = some address ↔ (name, address) ∈ t.entries :=
  lookup_eq_some_iff_mem t.names_nodup

theorem name?_eq_some_iff : t.name? address = some name ↔ (name, address) ∈ t.entries := by
  simp only [name?, Option.map_eq_some_iff, find?_eq_some_iff_mem t.addresses_nodup]
  constructor
  · rintro ⟨e, ⟨hmem, rfl⟩, rfl⟩
    exact hmem
  · intro hmem
    exact ⟨(name, address), ⟨hmem, rfl⟩, rfl⟩

/-- A table refuses what is bound in it already, in one direction or the other. -/
theorem insert?_eq_none_iff :
    t.insert? name address = none ↔
      (∃ address, t.address? name = some address) ∨ ∃ name, t.name? address = some name := by
  have hname : (∃ address, t.address? name = some address) ↔ name ∈ t.entries.map (·.1) := by
    simp [address?_eq_some_iff]
  have haddress : (∃ name, t.name? address = some name) ↔ address ∈ t.entries.map (·.2) := by
    simp [name?_eq_some_iff]
  rw [hname, haddress, insert?]
  split
  · next h => exact iff_of_true rfl (.inl (List.contains_iff_mem.1 h))
  · next hn =>
    split
    · next h => exact iff_of_true rfl (.inr (List.contains_iff_mem.1 h))
    · next ha =>
      refine iff_of_false (Option.some_ne_none _) ?_
      rintro (h | h)
      · exact hn (List.contains_iff_mem.2 h)
      · exact ha (List.contains_iff_mem.2 h)

end SymbolTable

/-! ## Labels -/

namespace LabelTable

theorem insert?_eq_some {t t' : LabelTable} {name : String} {address : Nat}
    (h : t.insert? name address = some t') : t'.entries = (name, address) :: t.entries := by
  unfold insert? at h
  split at h
  · cases h
  · obtain rfl := Option.some.inj h
    rfl

theorem insert?_eq_none_iff_mem {t : LabelTable} {name : String} {address : Nat} :
    t.insert? name address = none ↔ name ∈ t.entries.map (·.1) := by
  rw [insert?]
  split
  · next h => exact iff_of_true rfl (List.contains_iff_mem.1 h)
  · next h =>
    exact iff_of_false (Option.some_ne_none _) fun hmem => h (List.contains_iff_mem.2 hmem)

/-- A table knows the addresses of its names and no others. -/
theorem address?_eq_some_iff {t : LabelTable} {name : String} {address : Nat} :
    t.address? name = some address ↔ (name, address) ∈ t.entries :=
  lookup_eq_some_iff_mem t.names_nodup

end LabelTable

end Risc32
