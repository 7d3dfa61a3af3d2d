/-!
# Functions of a program

A function is a label that some call names, together with the instructions up to its return. The
table lists them in the order in which they stand in the program.
-/

set_option autoImplicit false

namespace Risc32

/-- Where a function stands: the byte address of its first instruction, and how many instructions
it has. -/
structure Extent where
  entry : Nat
  size : Nat
deriving DecidableEq, Repr

/-- Puts an extent in its place, over one with the same entry if there is one. -/
def Extent.insertInto (x : Extent) : List Extent → List Extent
  | [] => [x]
  | y :: rest =>
    if x.entry < y.entry then x :: y :: rest
    else if x.entry = y.entry then x :: rest
    else y :: x.insertInto rest

theorem Extent.mem_insertInto {x z : Extent} {l : List Extent} (h : z ∈ x.insertInto l) :
    z = x ∨ z ∈ l := by
  induction l with
  | nil => simpa [insertInto] using h
  | cons y rest ih =>
    rw [insertInto] at h
    split at h
    · simpa using h
    · split at h
      · rcases List.mem_cons.1 h with h | h
        · exact .inl h
        · exact .inr (List.mem_cons_of_mem _ h)
      · rcases List.mem_cons.1 h with h | h
        · exact .inr (h ▸ List.mem_cons_self)
        · exact (ih h).imp_right (List.mem_cons_of_mem _)

theorem Extent.pairwise_insertInto (x : Extent) {l : List Extent}
    (h : l.Pairwise (·.entry < ·.entry)) : (x.insertInto l).Pairwise (·.entry < ·.entry) := by
  induction l with
  | nil => simp [insertInto]
  | cons y rest ih =>
    have hy := (List.pairwise_cons.1 h).1
    have hrest := (List.pairwise_cons.1 h).2
    rw [insertInto]
    split
    · next hlt =>
      refine List.pairwise_cons.2 ⟨fun z hz => ?_, h⟩
      rcases List.mem_cons.1 hz with hz | hz
      · exact hz ▸ hlt
      · exact Nat.lt_trans hlt (hy z hz)
    · split
      · next heq => exact List.pairwise_cons.2 ⟨fun z hz => heq ▸ hy z hz, hrest⟩
      · next hge hne =>
        refine List.pairwise_cons.2 ⟨fun z hz => ?_, ih hrest⟩
        rcases mem_insertInto hz with hz | hz
        · subst hz; omega
        · exact hy z hz

/-- The functions of a program, by entry. -/
structure Functions where
  extents : List Extent
  sorted : extents.Pairwise (·.entry < ·.entry)

namespace Functions

def empty : Functions :=
  ⟨[], List.Pairwise.nil⟩

/-- The table with a function added. It replaces one with the same entry. -/
def insert (t : Functions) (x : Extent) : Functions :=
  ⟨x.insertInto t.extents, x.pairwise_insertInto t.sorted⟩

end Functions

end Risc32
