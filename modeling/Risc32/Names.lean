import Risc32.Word

/-!
# Tables of names

System calls are kept in a `SymbolTable`, where neither a name nor an address is bound twice, so
the table can be read in both directions. The assembler keeps its labels in a `LabelTable`: a
name is bound once, but any number of names may share an address, and a label may well stand at
an address that a system call uses too.

Nothing is ever rebound. An insertion that would rebind something is refused and leaves no trace.
-/

set_option autoImplicit false

namespace Risc32

/-- Pairs of a name and an address by name. -/
def sortedByName {α : Type} (entries : List (String × α)) : List (String × α) :=
  entries.mergeSort fun x y => decide (¬ y.1 < x.1)

/-! ## Symbols -/

/-- Names and addresses in one-to-one correspondence. -/
structure SymbolTable where
  entries : List (String × Word)
  names_nodup : (entries.map (·.1)).Nodup
  addresses_nodup : (entries.map (·.2)).Nodup

namespace SymbolTable

def empty : SymbolTable :=
  ⟨[], List.nodup_nil, List.nodup_nil⟩

/-- Binds `name` to `address`, unless one of them is bound already. -/
def insert? (t : SymbolTable) (name : String) (address : Word) : Option SymbolTable :=
  if hn : (t.entries.map (·.1)).contains name then none
  else if ha : (t.entries.map (·.2)).contains address then none
  else some {
    entries := (name, address) :: t.entries
    names_nodup := List.nodup_cons.2 ⟨by simpa using hn, t.names_nodup⟩
    addresses_nodup := List.nodup_cons.2 ⟨by simpa using ha, t.addresses_nodup⟩ }

theorem insert?_eq_some {t t' : SymbolTable} {name : String} {address : Word}
    (h : t.insert? name address = some t') :
    address ∉ t.entries.map (·.2) ∧ t'.entries = (name, address) :: t.entries := by
  unfold insert? at h
  split at h
  · cases h
  · split at h
    · cases h
    · next ha =>
      obtain rfl := Option.some.inj h
      exact ⟨fun hmem => ha (List.contains_iff_mem.2 hmem), rfl⟩

def address? (t : SymbolTable) (name : String) : Option Word :=
  t.entries.lookup name

def name? (t : SymbolTable) (address : Word) : Option String :=
  (t.entries.find? (·.2 == address)).map (·.1)

def contains (t : SymbolTable) (name : String) : Bool :=
  (t.address? name).isSome

def size (t : SymbolTable) : Nat :=
  t.entries.length

def addresses (t : SymbolTable) : List Word :=
  t.entries.map (·.2)

def toSortedList (t : SymbolTable) : List (String × Word) :=
  sortedByName t.entries

end SymbolTable

/-! ## Labels -/

/-- Names, each with an address. Addresses are plain numbers here: only the fields of an
instruction are words. -/
structure LabelTable where
  entries : List (String × Nat)
  names_nodup : (entries.map (·.1)).Nodup

namespace LabelTable

def empty : LabelTable :=
  ⟨[], List.nodup_nil⟩

/-- The symbols as labels, to begin a program with. -/
def ofSymbols (t : SymbolTable) : LabelTable where
  entries := t.entries.map fun (name, address) => (name, address.toNat)
  names_nodup := by
    simpa [List.map_map, Function.comp_def] using t.names_nodup

/-- Binds `name` to `address`, unless the name is bound already. -/
def insert? (t : LabelTable) (name : String) (address : Nat) : Option LabelTable :=
  if h : (t.entries.map (·.1)).contains name then none
  else some {
    entries := (name, address) :: t.entries
    names_nodup := List.nodup_cons.2 ⟨by simpa using h, t.names_nodup⟩ }

def address? (t : LabelTable) (name : String) : Option Nat :=
  t.entries.lookup name

def contains (t : LabelTable) (name : String) : Bool :=
  (t.address? name).isSome

def size (t : LabelTable) : Nat :=
  t.entries.length

def toSortedList (t : LabelTable) : List (String × Nat) :=
  sortedByName t.entries

end LabelTable

end Risc32
