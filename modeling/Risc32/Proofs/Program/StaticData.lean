import Risc32.Program.Basic
import Risc32.Proofs.Memory.Contents

/-!
# The bytes of static data

An area is written into zeros, one variable after the other. Where variables overlapped, the later
one would stand; this file is about areas in which they do not (`StaticData.Ordered`). There every
variable keeps its bytes, what lies between variables stays zero, and the area ends where its last
variable does.
-/

set_option autoImplicit false

namespace Risc32

theorem VariableKind.size_pos (kind : VariableKind) : 0 < kind.size := by
  cases kind <;> decide

@[simp] theorem Variable.length_bytes (v : Variable) : v.bytes.length = v.kind.size := by
  cases h : v.kind <;> simp [Variable.bytes, VariableKind.size, h]

namespace StaticData

/-- Every variable begins behind the start of the area and behind the variables before it. -/
structure Ordered (d : StaticData) : Prop where
  inside : ∀ v ∈ d.vars, d.start ≤ v.address
  apart : d.vars.Pairwise fun v v' => v.stop ≤ v'.address

/-! ## Size -/

theorem size_foldl_putBytes (start : Nat) (vars : List Variable) (m : Memory) :
    (vars.foldl (fun m v => m.putBytes (v.address - start) v.bytes) m).size = m.size := by
  induction vars generalizing m with
  | nil => rfl
  | cons v rest ih => rw [List.foldl_cons, ih, Memory.size_putBytes]

theorem length_bytes (d : StaticData) : d.bytes.length = d.size := by
  rw [bytes, Array.length_toList]
  exact (size_foldl_putBytes d.start d.vars _).trans (Memory.size_zero _)

theorem foldl_max_le_iff {l : List Nat} {a n : Nat} :
    l.foldl max a ≤ n ↔ a ≤ n ∧ ∀ x ∈ l, x ≤ n := by
  induction l generalizing a with
  | nil => simp
  | cons x rest ih => rw [List.foldl_cons, ih, Nat.max_le, List.forall_mem_cons, and_assoc]

/-- The area ends at the first address that it begins before and that all variables end before. -/
theorem start_add_size_le_iff {d : StaticData} {n : Nat} :
    d.start + d.size ≤ n ↔ d.start ≤ n ∧ ∀ v ∈ d.vars, v.stop ≤ n := by
  have hstart : d.start ≤ (d.vars.map (·.stop)).foldl max d.start :=
    (foldl_max_le_iff.1 (Nat.le_refl _)).1
  rw [size, Nat.add_sub_cancel' hstart, foldl_max_le_iff, List.forall_mem_map]

/-- A variable ends before the area does. -/
theorem stop_le {d : StaticData} {v : Variable} (hv : v ∈ d.vars) :
    v.stop ≤ d.start + d.size :=
  (start_add_size_le_iff.1 (Nat.le_refl _)).2 v hv

/-- The area ends with its last variable, and is empty if there is none. -/
theorem Ordered.start_add_size {d : StaticData} (h : d.Ordered) :
    d.start + d.size = (d.vars.getLast?.map (·.stop)).getD d.start := by
  rcases List.eq_nil_or_concat d.vars with hnil | ⟨before, last, hlast⟩
  · simp [size, hnil]
  · rw [List.concat_eq_append] at hlast
    have hmem : last ∈ d.vars := by simp [hlast]
    rw [hlast, List.getLast?_concat, Option.map_some, Option.getD_some]
    apply Nat.le_antisymm
    · refine start_add_size_le_iff.2 ⟨?_, ?_⟩
      · exact Nat.le_trans (h.inside last hmem) (Nat.le_add_right _ _)
      · intro v hv
        rw [hlast] at hv
        rcases List.mem_append.1 hv with hbefore | hv
        · have hapart := h.apart
          rw [hlast] at hapart
          have hle := (List.pairwise_append.1 hapart).2.2 v hbefore last (by simp)
          exact Nat.le_trans hle (Nat.le_add_right _ _)
        · obtain rfl := List.mem_singleton.1 hv
          exact Nat.le_refl _
    · exact stop_le hmem

/-! ## Contents -/

/-- What no variable covers is as it was. -/
theorem byteAt_foldl_putBytes_of_outside {start i : Nat} {vars : List Variable} {m : Memory}
    (h : ∀ v ∈ vars, i < v.address - start ∨ v.address - start + v.kind.size ≤ i) :
    (vars.foldl (fun m v => m.putBytes (v.address - start) v.bytes) m).byteAt i = m.byteAt i := by
  induction vars generalizing m with
  | nil => rfl
  | cons v rest ih =>
    have hv := h v List.mem_cons_self
    rw [List.foldl_cons, ih fun v' hv' => h v' (List.mem_cons_of_mem _ hv'),
      Memory.byteAt_putBytes, if_neg]
    rw [Variable.length_bytes]
    omega

/-- A variable that no later one overlaps has its bytes. -/
theorem byteAt_foldl_putBytes_of_mem {start k : Nat} {vars : List Variable} {v : Variable}
    {m : Memory} (inside : ∀ v ∈ vars, start ≤ v.address)
    (apart : vars.Pairwise fun v v' => v.stop ≤ v'.address) (hv : v ∈ vars)
    (hk : k < v.kind.size) (hsize : v.stop - start ≤ m.size) :
    (vars.foldl (fun m v => m.putBytes (v.address - start) v.bytes) m).byteAt
      (v.address - start + k) = v.bytes.getD k 0 := by
  induction vars generalizing m with
  | nil => cases hv
  | cons v₀ rest ih =>
    obtain ⟨hbehind, hrest⟩ := List.pairwise_cons.1 apart
    rw [List.foldl_cons]
    rcases List.mem_cons.1 hv with rfl | hv
    · have hstart := inside v List.mem_cons_self
      unfold Variable.stop at hbehind hsize
      rw [byteAt_foldl_putBytes_of_outside, Memory.byteAt_putBytes, if_pos, Nat.add_sub_cancel_left]
      · rw [Variable.length_bytes]
        omega
      · intro v' hv'
        have := hbehind v' hv'
        omega
    · refine ih (fun v' hv' => inside v' (List.mem_cons_of_mem _ hv')) hrest hv ?_
      rwa [Memory.size_putBytes]

theorem getD_bytes (d : StaticData) (i : Nat) :
    d.bytes.getD i 0 = (d.vars.foldl (fun m v => m.putBytes (v.address - d.start) v.bytes)
      (Memory.zero d.size)).byteAt i := by
  rw [bytes, Memory.byteAt, List.getD_eq_getElem?_getD, Array.getD_eq_getD_getElem?,
    Array.getElem?_toList]

/-- The bytes of a variable stand where the variable does. -/
theorem Ordered.getD_bytes {d : StaticData} (h : d.Ordered) {v : Variable} (hv : v ∈ d.vars)
    {k : Nat} (hk : k < v.kind.size) :
    d.bytes.getD (v.address - d.start + k) 0 = v.bytes.getD k 0 := by
  rw [StaticData.getD_bytes]
  apply byteAt_foldl_putBytes_of_mem h.inside h.apart hv hk
  have := stop_le hv
  rw [Memory.size_zero]
  omega

/-- What no variable covers is zero. -/
theorem Ordered.getD_bytes_of_outside {d : StaticData} (h : d.Ordered) {i : Nat}
    (hi : ∀ v ∈ d.vars, d.start + i < v.address ∨ v.stop ≤ d.start + i) :
    d.bytes.getD i 0 = 0 := by
  rw [StaticData.getD_bytes, byteAt_foldl_putBytes_of_outside]
  · rw [Memory.byteAt, Memory.zero, Array.getD_eq_getD_getElem?, Array.getElem?_replicate]
    split <;> rfl
  · intro v hv
    have hinside := h.inside v hv
    have := hi v hv
    unfold Variable.stop at this
    omega

end StaticData

/-! ## The image -/

namespace Program

theorem length_image (p : Program) : p.image.length = p.textEnd + p.data.size := by
  rw [image, List.length_append, Word.length_flatMap_bytes, StaticData.length_bytes, textEnd]

/-- Data follows the instructions. -/
theorem getD_image (p : Program) (i : Nat) :
    p.image.getD (p.textEnd + i) 0 = p.data.bytes.getD i 0 := by
  have hlength : (p.words.flatMap Word.bytes).length = p.textEnd := Word.length_flatMap_bytes _
  rw [image, List.getD_eq_getElem?_getD, List.getElem?_append_right (by omega), hlength,
    Nat.add_sub_cancel_left, ← List.getD_eq_getElem?_getD]

variable {p : Program}

/-- Memory into which the program was copied has the bytes of a variable where the variable is. -/
theorem byteAt_putBytes_image (hstart : p.data.start = p.textEnd) (hordered : p.data.Ordered)
    {v : Variable} (hv : v ∈ p.data.vars) {k : Nat} (hk : k < v.kind.size) {m : Memory}
    (hfits : p.image.length ≤ m.size) :
    (m.putBytes 0 p.image).byteAt (v.address + k) = v.bytes.getD k 0 := by
  have hinside := hordered.inside v hv
  have hstop := StaticData.stop_le hv
  have hlength := p.length_image
  unfold Variable.stop at hstop
  rw [Memory.byteAt_putBytes, if_pos (by omega), Nat.sub_zero,
    show v.address + k = p.textEnd + (v.address - p.data.start + k) by omega, getD_image,
    hordered.getD_bytes hv hk]

/-- Behind the instructions, what no variable covers is zero. -/
theorem getElem?_image_of_outside (hstart : p.data.start = p.textEnd) (hordered : p.data.Ordered)
    {i : Nat} (htext : p.textEnd ≤ i) (hi : i < p.image.length)
    (houtside : ∀ v ∈ p.data.vars, i < v.address ∨ v.stop ≤ i) : p.image[i]? = some 0 := by
  obtain ⟨j, rfl⟩ := Nat.exists_eq_add_of_le htext
  have hzero := hordered.getD_bytes_of_outside (i := j) (by rwa [hstart])
  rw [← getD_image, List.getD_eq_getElem?_getD, List.getElem?_eq_getElem hi] at hzero
  rw [List.getElem?_eq_getElem hi, ← hzero, Option.getD_some]

end Program

end Risc32
