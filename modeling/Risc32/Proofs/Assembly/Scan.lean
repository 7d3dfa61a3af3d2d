import Risc32.Assembly.Assemble

/-!
# Finding functions

Functions are found in one pass over the statements. A function is open from an entry to the next
return, and an entry inside of an open function opens no other. `Scan` is what holds between two
statements of this pass, for the functions that have been closed and for the one that is open. One
statement keeps it (`Scan.close`, `Scan.extend`, `Scan.pass`), and so does the whole pass
(`Scan.functionsFrom`).

At the end every function goes from an entry to its first return, functions do not overlap, and an
entry that lies in none of them has no return behind it.
-/

set_option autoImplicit false

namespace Risc32

namespace Extent

/-- The address behind the last instruction. -/
def stop (x : Extent) : Nat :=
  x.entry + 4 * x.size

/-- An extent behind all others goes to the end of the table. -/
theorem insertInto_of_lt {x : Extent} {l : List Extent} (h : ∀ y ∈ l, y.entry < x.entry) :
    x.insertInto l = l ++ [x] := by
  induction l with
  | nil => rfl
  | cons y rest ih =>
    have hy : y.entry < x.entry := h y List.mem_cons_self
    rw [insertInto, if_neg (by omega), if_neg (by omega), List.cons_append]
    rw [ih fun z hz => h z (List.mem_cons_of_mem y hz)]

end Extent

namespace Assembly

/-- The statement with the index is a return. -/
def ReturnsAt (statements : List Statement) (index : Nat) : Prop :=
  ∃ s, statements[index]? = some s ∧ s.mnemonic = "ret"

/-- The extent goes from an entry to the first return behind it. -/
structure IsFunction (entries : List Nat) (statements : List Statement) (x : Extent) : Prop where
  entry : x.entry ∈ entries
  aligned : x.entry % 4 = 0
  nonempty : 0 < x.size
  returns : ReturnsAt statements (x.entry / 4 + x.size - 1)
  earlier : ∀ k, x.entry / 4 ≤ k → k < x.entry / 4 + x.size - 1 → ¬ReturnsAt statements k

/-- The extent goes from an entry up to the statement with the index, and may go on. -/
structure IsOpen (entries : List Nat) (statements : List Statement) (index : Nat)
    (found : Functions) (x : Extent) : Prop where
  entry : x.entry ∈ entries
  aligned : x.entry % 4 = 0
  reaches : x.stop = 4 * index
  running : ∀ k, x.entry / 4 ≤ k → k < index → ¬ReturnsAt statements k
  behind : ∀ y ∈ found.extents, y.stop ≤ x.entry

namespace IsOpen

variable {entries : List Nat} {statements : List Statement} {index : Nat} {found : Functions}
  {x : Extent}

/-- With a return, what is open is a function. -/
theorem isFunction (h : IsOpen entries statements index found x)
    (hret : ReturnsAt statements index) :
    IsFunction entries statements { x with size := x.size + 1 } := by
  have hreaches := h.reaches
  have haligned := h.aligned
  unfold Extent.stop at hreaches
  have hlast : x.entry / 4 + (x.size + 1) - 1 = index := by omega
  refine ⟨h.entry, haligned, Nat.succ_pos _, ?_, ?_⟩ <;> rw [hlast]
  · exact hret
  · exact h.running

/-- What is open comes last in the table. -/
theorem extents_insert (h : IsOpen entries statements index found x)
    (hnonempty : ∀ y ∈ found.extents, 0 < y.size) :
    (found.insert { x with size := x.size + 1 }).extents =
      found.extents ++ [{ x with size := x.size + 1 }] := by
  apply Extent.insertInto_of_lt
  intro y hy
  have hbehind := h.behind y hy
  have hsize := hnonempty y hy
  unfold Extent.stop at hbehind
  dsimp only
  omega

end IsOpen

/-- What is known of the functions found before the statement with the index. -/
structure Scan (entries : List Nat) (statements : List Statement) (index : Nat)
    (opened : Option Extent) (found : Functions) : Prop where
  sound : ∀ x ∈ found.extents, IsFunction entries statements x
  apart : found.extents.Pairwise (·.stop ≤ ·.entry)
  past : ∀ x ∈ found.extents, x.stop ≤ 4 * index
  isOpen : ∀ x, opened = some x → IsOpen entries statements index found x
  complete : ∀ k < index, 4 * k ∈ entries →
    (∃ x ∈ found.extents, x.entry ≤ 4 * k ∧ 4 * k < x.stop) ∨ ∃ x, opened = some x ∧ x.entry ≤ 4 * k

/-- The function that is open at the statement with the index. -/
def openAt (entries : List Nat) (index : Nat) : Option Extent → Option Extent
  | some x => some x
  | none => if entries.contains (4 * index) then some ⟨4 * index, 0⟩ else none

theorem functionsFrom_cons (entries : List Nat) (index : Nat) (opened : Option Extent)
    (found : Functions) (s : Statement) (rest : List Statement) :
    functionsFrom entries index opened found (s :: rest) =
      match openAt entries index opened with
      | none => functionsFrom entries (index + 1) none found rest
      | some x =>
        let x := { x with size := x.size + 1 }
        if s.mnemonic = "ret" then functionsFrom entries (index + 1) none (found.insert x) rest
        else functionsFrom entries (index + 1) (some x) found rest := by
  cases opened <;> rfl

namespace Scan

variable {entries : List Nat} {statements : List Statement} {index : Nat} {opened : Option Extent}
  {found : Functions} {s : Statement}

theorem start : Scan entries statements 0 none .empty where
  sound := by simp [Functions.empty]
  apart := List.Pairwise.nil
  past := by simp [Functions.empty]
  isOpen := by simp
  complete := by simp

/-- The function that is open at a statement was open before or begins there. -/
theorem isOpen_openAt (h : Scan entries statements index opened found) {x : Extent}
    (hx : openAt entries index opened = some x) : IsOpen entries statements index found x := by
  cases opened with
  | some y =>
    obtain rfl := Option.some.inj hx
    exact h.isOpen y rfl
  | none =>
    rw [openAt] at hx
    split at hx
    · next hentry =>
      obtain rfl := Option.some.inj hx
      refine ⟨List.contains_iff_mem.1 hentry, Nat.mul_mod_right 4 index, rfl, ?_, h.past⟩
      intro k hfrom hto
      simp only [Nat.mul_div_cancel_left index (by decide : 0 < 4)] at hfrom
      omega
    · cases hx

/-- Every entry up to a statement lies in a function that was found or in the one that is open. -/
theorem complete_succ (h : Scan entries statements index opened found) {k : Nat}
    (hk : k < index + 1) (hentry : 4 * k ∈ entries) :
    (∃ x ∈ found.extents, x.entry ≤ 4 * k ∧ 4 * k < x.stop) ∨
      ∃ x, openAt entries index opened = some x ∧ x.entry ≤ 4 * k := by
  rcases Nat.lt_or_eq_of_le (Nat.le_of_lt_succ hk) with hlt | rfl
  · rcases h.complete k hlt hentry with hfound | ⟨x, rfl, hx⟩
    · exact .inl hfound
    · exact .inr ⟨x, rfl, hx⟩
  · cases opened with
    | some x =>
      have hreaches := (h.isOpen x rfl).reaches
      unfold Extent.stop at hreaches
      exact .inr ⟨x, rfl, by omega⟩
    | none =>
      refine .inr ⟨⟨4 * k, 0⟩, ?_, Nat.le_refl _⟩
      rw [openAt, if_pos (List.contains_iff_mem.2 hentry)]

/-- A statement outside of all functions changes nothing. -/
theorem pass (h : Scan entries statements index opened found)
    (hnone : openAt entries index opened = none) :
    Scan entries statements (index + 1) none found := by
  refine ⟨h.sound, h.apart, ?_, by simp, ?_⟩
  · intro x hx
    have := h.past x hx
    omega
  · intro k hk hentry
    rcases h.complete_succ hk hentry with hfound | ⟨x, hx, -⟩
    · exact .inl hfound
    · rw [hnone] at hx
      cases hx

/-- A statement that is no return makes the open function longer. -/
theorem extend (h : Scan entries statements index opened found) {x : Extent}
    (hx : openAt entries index opened = some x) (hs : statements[index]? = some s)
    (hret : s.mnemonic ≠ "ret") :
    Scan entries statements (index + 1) (some { x with size := x.size + 1 }) found := by
  have hopen := h.isOpen_openAt hx
  have hreaches := hopen.reaches
  unfold Extent.stop at hreaches
  refine ⟨h.sound, h.apart, ?_, ?_, ?_⟩
  · intro y hy
    have := h.past y hy
    omega
  · intro y hy
    obtain rfl := Option.some.inj hy
    refine ⟨hopen.entry, hopen.aligned, by simp only [Extent.stop]; omega, ?_, hopen.behind⟩
    intro k hfrom hto
    rcases Nat.lt_or_eq_of_le (Nat.le_of_lt_succ hto) with hlt | rfl
    · exact hopen.running k hfrom hlt
    · rintro ⟨s', hs', hret'⟩
      obtain rfl := Option.some.inj (hs.symm.trans hs')
      exact hret hret'
  · intro k hk hentry
    rcases h.complete_succ hk hentry with hfound | ⟨y, hy, hle⟩
    · exact .inl hfound
    · obtain rfl := Option.some.inj (hx.symm.trans hy)
      exact .inr ⟨_, rfl, hle⟩

/-- A return ends the open function. -/
theorem close (h : Scan entries statements index opened found) {x : Extent}
    (hx : openAt entries index opened = some x) (hs : statements[index]? = some s)
    (hret : s.mnemonic = "ret") :
    Scan entries statements (index + 1) none (found.insert { x with size := x.size + 1 }) := by
  have hopen := h.isOpen_openAt hx
  have hreaches := hopen.reaches
  unfold Extent.stop at hreaches
  -- It lies behind all that were found, so it comes last and overlaps none of them.
  refine ⟨?_, ?_, ?_, by simp, ?_⟩ <;>
    rw [hopen.extents_insert fun y hy => (h.sound y hy).nonempty]
  · intro y hy
    rcases List.mem_append.1 hy with hy | hy
    · exact h.sound y hy
    · obtain rfl := List.mem_singleton.1 hy
      exact hopen.isFunction ⟨s, hs, hret⟩
  · refine List.pairwise_append.2 ⟨h.apart, List.pairwise_singleton _ _, ?_⟩
    intro y hy z hz
    obtain rfl := List.mem_singleton.1 hz
    exact hopen.behind y hy
  · intro y hy
    rcases List.mem_append.1 hy with hy | hy
    · have := h.past y hy
      omega
    · obtain rfl := List.mem_singleton.1 hy
      simp only [Extent.stop]
      omega
  · intro k hk hentry
    left
    rcases h.complete_succ hk hentry with ⟨y, hy, hin⟩ | ⟨y, hy, hle⟩
    · exact ⟨y, List.mem_append_left _ hy, hin⟩
    · obtain rfl := Option.some.inj (hx.symm.trans hy)
      refine ⟨_, List.mem_append_right _ (List.mem_singleton.2 rfl), hle, ?_⟩
      simp only [Extent.stop]
      omega

/-- The pass goes on to the end of the statements. -/
theorem functionsFrom {rest : List Statement} (h : Scan entries statements index opened found)
    (hrest : statements.drop index = rest) :
    ∃ stop opened', statements.length ≤ stop ∧
      Scan entries statements stop opened'
        (functionsFrom entries index opened found rest) := by
  induction rest generalizing index opened found with
  | nil => exact ⟨index, opened, List.drop_eq_nil_iff.1 hrest, h⟩
  | cons s rest ih =>
    have hs : statements[index]? = some s := by
      rw [← List.head?_drop, hrest]
      rfl
    have hrest' : statements.drop (index + 1) = rest := by
      rw [← List.tail_drop, hrest]
      rfl
    rw [functionsFrom_cons]
    cases hx : openAt entries index opened with
    | none => exact ih (h.pass hx) hrest'
    | some x =>
      by_cases hret : s.mnemonic = "ret"
      · simpa only [if_pos hret] using ih (h.close hx hs hret) hrest'
      · simpa only [if_neg hret] using ih (h.extend hx hs hret) hrest'

end Scan

/-- What the functions of a list of statements are. -/
structure FunctionsOf (entries : List Nat) (statements : List Statement) (t : Functions) :
    Prop where
  sound : ∀ x ∈ t.extents, IsFunction entries statements x
  apart : t.extents.Pairwise (·.stop ≤ ·.entry)
  complete : ∀ index, 4 * index ∈ entries →
    (∃ x ∈ t.extents, x.entry ≤ 4 * index ∧ 4 * index < x.stop) ∨
      ∀ k, index ≤ k → ¬ReturnsAt statements k

theorem functionsOf_functionsFrom (entries : List Nat) (statements : List Statement) :
    FunctionsOf entries statements (functionsFrom entries 0 none .empty statements) := by
  have hstart : Scan entries statements 0 none .empty := Scan.start
  obtain ⟨stop, opened, hstop, hscan⟩ := hstart.functionsFrom rfl
  -- Past the end there is nothing to return.
  have hend : ∀ k, stop ≤ k → ¬ReturnsAt statements k := by
    rintro k hk ⟨s, hs, -⟩
    have := (List.getElem?_eq_some_iff.1 hs).1
    omega
  refine ⟨hscan.sound, hscan.apart, ?_⟩
  intro index hentry
  by_cases hindex : index < stop
  · rcases hscan.complete index hindex hentry with hfound | ⟨x, hx, hle⟩
    · exact .inl hfound
    · right
      intro k hk
      by_cases hlt : k < stop
      · exact (hscan.isOpen x hx).running k (by omega) hlt
      · exact hend k (by omega)
  · exact .inr fun k hk => hend k (by omega)

end Assembly

end Risc32
