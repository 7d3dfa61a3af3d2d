import Risc32.Proofs.Compiled.Calls
import Risc32.Proofs.Machine.Bodies

/-!
# Which programs are compiled

A program is compiled as one listing for each function and one for what lies in no function. Where a
branch can go depends on the listing it is in: in a function to the indices of that function, and
outside to those that lie in no function and to the end of the program. Nothing checks this as such.
The indices are bound when they are, and a branch to any other finds no position.

With what the assembler promises (`Program.Orderly`), the listings are a partition of the program,
so all of this is a condition on the instructions of the program and its function table
(`Program.Compilable`). The same partition gives the number of steps of the main routine: what is
left over when the functions are taken away.
-/

set_option autoImplicit false

namespace Risc32

open Assembly

variable {σ : Type}

/-! ## Counting what lies in no function -/

namespace IndexRange

theorem contains_iff {r : IndexRange} {index : Nat} :
    r.contains index ↔ r.first ≤ index ∧ index < r.stop := by
  simp [contains]

theorem length_slice {α : Type} {r : IndexRange} {l : List α} (hstop : r.stop ≤ l.length) :
    (r.slice l).length = r.stop - r.first := by
  rw [slice, List.length_take, List.length_drop]
  omega

theorem slice_getElem? {α : Type} {r : IndexRange} {l : List α} {index : Nat}
    (h : r.contains index) : (r.slice l)[index - r.first]? = l[index]? := by
  obtain ⟨hfirst, hlast⟩ := contains_iff.1 h
  rw [slice, List.getElem?_take_of_lt (by omega), List.getElem?_drop, Nat.add_sub_cancel' hfirst]

theorem countP_contains (r : IndexRange) (n : Nat) :
    (List.range n).countP r.contains = min n r.stop - min n r.first := by
  induction n with
  | zero => simp
  | succ n ih =>
    rw [List.range_succ, List.countP_append, ih, List.countP_singleton]
    by_cases hin : r.contains n
    · have := contains_iff.1 hin
      rw [if_pos hin]
      omega
    · have := mt contains_iff.2 hin
      rw [if_neg hin]
      omega

/-- What is not in the one is in the other or in neither, if the two have nothing in common. -/
theorem countP_not {α : Type} {p q : α → Bool} (h : ∀ a, p a → q a = false) (l : List α) :
    l.countP (fun a => !q a) = l.countP p + l.countP fun a => !(p a || q a) := by
  induction l with
  | nil => rfl
  | cons a l ih =>
    simp only [List.countP_cons, ih]
    cases hp : p a with
    | false =>
      simp only [Bool.false_or, Bool.false_eq_true, if_false]
      omega
    | true =>
      simp only [h a hp, Bool.true_or, Bool.not_true, Bool.not_false, Bool.false_eq_true, if_true,
        if_false]
      omega

/-- Ranges that do not overlap, and what lies in none of them, make up the whole. -/
theorem countP_outside {ranges : List IndexRange} {n : Nat}
    (hnonempty : ∀ r ∈ ranges, r.first < r.stop) (hstop : ∀ r ∈ ranges, r.stop ≤ n)
    (hapart : ranges.Pairwise (·.stop ≤ ·.first)) :
    (List.range n).countP (fun k => !ranges.any (·.contains k)) +
      (ranges.map fun r => r.stop - r.first).sum = n := by
  induction ranges with
  | nil => simp
  | cons r rest ih =>
    obtain ⟨hbefore, hapart⟩ := List.pairwise_cons.1 hapart
    have hr := hnonempty r List.mem_cons_self
    have hrstop := hstop r List.mem_cons_self
    have hcount : (List.range n).countP r.contains = r.stop - r.first := by
      rw [countP_contains]
      omega
    -- The range is a part of what lies in none of the others.
    have hfree : ∀ k, r.contains k → rest.any (·.contains k) = false := by
      intro k hk
      rw [← Bool.not_eq_true, any_contains_iff]
      rintro ⟨r', hr', hfirst, -⟩
      have := hbefore r' hr'
      have := contains_iff.1 hk
      omega
    have hsplit := countP_not hfree (List.range n)
    have hrest := ih (fun r' hr' => hnonempty r' (List.mem_cons_of_mem r hr'))
      (fun r' hr' => hstop r' (List.mem_cons_of_mem r hr')) hapart
    simp only [List.any_cons, List.map_cons, List.sum_cons]
    omega

end IndexRange

/-! ## What the assembler promises -/

namespace Program

/-- Every word of the program means something. Functions end at their first return, inside of the
program, and do not overlap. -/
structure Orderly (p : Program) : Prop where
  decodes : ∀ {k : Nat} {w : Word}, p.words[k]? = some w → ∃ i, Instruction.decode w = some i
  hasFunction : ∀ x ∈ p.functions.extents, p.HasFunction x
  returns : ∀ x ∈ p.functions.extents, ∀ {k : Nat} {w : Word},
    (x.range.slice p.words)[k]? = some w →
      ((Instruction.decode w).any (·.isReturn) ↔ k + 1 = x.size)
  apart : p.functions.extents.Pairwise (·.stop ≤ ·.entry)

theorem orderly_ofLines {lines : List String} {seed : LabelTable} {p : Program}
    (h : ofLines lines seed = .ok p) : p.Orderly := by
  have hassembles := assembles_ofLines h
  obtain ⟨entries, -, hfunctions⟩ := hassembles.functionsOf
  have hwritten := hassembles.written
  refine ⟨?_, fun x hx => hasFunction_of_mem h hx, ?_, hfunctions.apart⟩
  · intro k w hw
    have hlt : k < (Source.statements lines).length := by
      rw [← hwritten.length]
      exact (List.getElem?_eq_some_iff.1 hw).1
    obtain ⟨i, w', -, hw', hdecode⟩ := hwritten.decode (List.getElem?_eq_getElem hlt)
    obtain rfl := Option.some.inj (hw.symm.trans hw')
    exact ⟨i, hdecode⟩
  · intro x hx k w hw
    obtain ⟨body, last, hslice, hsize, hlast, hbody⟩ :=
      slice_range hwritten (hfunctions.sound x hx)
    rw [hslice] at hw
    rw [← hsize, Nat.add_right_cancel_iff]
    have hk := (List.getElem?_eq_some_iff.1 hw).1
    rw [List.length_append, List.length_singleton] at hk
    obtain hlt | rfl : k < body.length ∨ k = body.length := by omega
    · rw [List.getElem?_append_left hlt] at hw
      simp [hbody w (List.mem_of_getElem? hw), Nat.ne_of_lt hlt]
    · obtain rfl : last = w := by simpa using hw
      simp [hlast]

variable {p : Program} {x : Extent}

theorem Orderly.range_of_mem (h : p.Orderly) (hx : x ∈ p.functions.extents) :
    x.entry = 4 * x.range.first ∧ x.range.stop = x.range.first + x.size ∧ 0 < x.size ∧
      x.range.stop ≤ p.words.length := by
  obtain ⟨first, w, i, hentry, hsize, hw, -⟩ := h.hasFunction x hx
  have hlast := (List.getElem?_eq_some_iff.1 hw).1
  have hdiv : x.entry / 4 = first := by omega
  rw [Extent.range, hdiv]
  exact ⟨hentry, rfl, hsize, by dsimp only; omega⟩

/-- No function is cut short by the end of the program. -/
theorem Orderly.ranges_eq (h : p.Orderly) : p.ranges = p.functions.extents.map Extent.range := by
  refine List.map_congr_left fun x hx => ?_
  have hstop := (h.range_of_mem hx).2.2.2
  rw [Extent.range] at hstop ⊢
  rw [Nat.min_eq_left hstop]

theorem Orderly.length_slice (h : p.Orderly) (hx : x ∈ p.functions.extents) :
    (x.range.slice p.words).length = x.size := by
  obtain ⟨-, hstop, -, hle⟩ := h.range_of_mem hx
  rw [IndexRange.length_slice hle, hstop, Nat.add_sub_cancel_left]

/-! ## The condition -/

/-- The instruction with the index. -/
def instruction? (p : Program) (index : Nat) : Option Instruction :=
  p.words[index]?.bind Instruction.decode

/-- The index lies in none of the functions. -/
def Outside (p : Program) (index : Nat) : Prop :=
  ∀ x ∈ p.functions.extents, ¬x.range.contains index

/-- The program can be compiled. It does not call through registers, and what it calls by address
are its functions and the system calls. Branches to whole instructions stay inside of the function
they are in. Outside of functions they stay outside, and may go to the end of the program, where it
may also begin. -/
structure Compilable (p : Program) (systemCalls : List Word) : Prop where
  callRegister : ∀ {k : Nat} {i : Instruction}, p.instruction? k = some i →
    i.isCallRegister = false
  call : ∀ {k : Nat} {op : Opcode} {f : JumpForm}, p.instruction? k = some (.jump op f) →
    p.IsEntry (f.target (codeAddress textStart (k + 1))) ∨
      f.target (codeAddress textStart (k + 1)) ∈ systemCalls
  inside : ∀ {k : Nat} {i : Instruction} {target : Int}, p.instruction? k = some i →
    i.branchTarget? k = some target → ∀ x ∈ p.functions.extents, x.range.contains k →
      (x.range.first : Int) ≤ target ∧ target < x.range.stop
  outside : ∀ {k : Nat} {i : Instruction} {target : Int}, p.instruction? k = some i →
    i.branchTarget? k = some target → p.Outside k →
      ∃ n : Nat, target = n ∧ n ≤ p.words.length ∧ p.Outside n
  entry : p.entryPoint / 4 ≤ p.words.length ∧ p.Outside (p.entryPoint / 4)

theorem instruction?_eq_some_iff {k : Nat} {i : Instruction} :
    p.instruction? k = some i ↔ ∃ w, p.words[k]? = some w ∧ Instruction.decode w = some i := by
  rw [instruction?, Option.bind_eq_some_iff]

/-! ## The listings -/

theorem Orderly.any_contains_iff (h : p.Orderly) {index : Nat} :
    ¬p.ranges.any (·.contains index) ↔ p.Outside index := by
  rw [h.ranges_eq, Outside]
  simp

theorem Orderly.mem_slice_iff (h : p.Orderly) (hx : x ∈ p.functions.extents) {k : Nat} {w : Word} :
    (w, k) ∈ (x.range.slice p.words).zipIdx x.range.first ↔
      x.range.contains k ∧ p.words[k]? = some w := by
  obtain ⟨-, hstop, -, -⟩ := h.range_of_mem hx
  rw [Listing.mem_zipIdx_iff]
  constructor
  · rintro ⟨hfirst, hw⟩
    have hlt := (IndexRange.slice_eq_some hw).2
    have hin : x.range.contains k := IndexRange.contains_iff.2 (by omega)
    exact ⟨hin, (IndexRange.slice_getElem? hin).symm.trans hw⟩
  · rintro ⟨hin, hw⟩
    exact ⟨(IndexRange.contains_iff.1 hin).1, (IndexRange.slice_getElem? hin).trans hw⟩

theorem Orderly.binds_slice_iff (h : p.Orderly) (hx : x ∈ p.functions.extents) {index : Nat} :
    Listing.Binds ((x.range.slice p.words).zipIdx x.range.first) none index ↔
      x.range.contains index := by
  obtain ⟨-, hstop, -, -⟩ := h.range_of_mem hx
  rw [Listing.binds_zipIdx_iff, h.length_slice hx, IndexRange.contains_iff, hstop]

theorem Orderly.mem_outside_iff (h : p.Orderly) {k : Nat} {w : Word} :
    (w, k) ∈ CompiledProgram.outsideFrom p.ranges 0 p.words ↔
      p.Outside k ∧ p.words[k]? = some w := by
  rw [← h.any_contains_iff]
  constructor
  · intro hmem
    obtain ⟨position, hposition⟩ := List.getElem?_of_mem hmem
    obtain ⟨-, hw, hout⟩ := CompiledProgram.outsideFrom_eq_some hposition
    exact ⟨hout, hw⟩
  · rintro ⟨hout, hw⟩
    obtain ⟨position, hposition⟩ := CompiledProgram.exists_outside hw hout
    exact List.mem_of_getElem? hposition

/-- The end of the program lies in no function. -/
theorem Orderly.outside_length (h : p.Orderly) : p.Outside p.words.length := by
  intro x hx hin
  have hlt := (IndexRange.contains_iff.1 hin).2
  have hstop := (h.range_of_mem hx).2.2.2
  omega

theorem Orderly.binds_outside_iff (h : p.Orderly) {index : Nat} :
    Listing.Binds (CompiledProgram.outsideFrom p.ranges 0 p.words) (some p.words.length) index ↔
      index ≤ p.words.length ∧ p.Outside index := by
  rw [Listing.binds_iff]
  constructor
  · rintro (hmem | hstop)
    · obtain ⟨⟨w, index⟩, hx, rfl⟩ := List.mem_map.1 hmem
      obtain ⟨hout, hw⟩ := h.mem_outside_iff.1 hx
      exact ⟨Nat.le_of_lt (List.getElem?_eq_some_iff.1 hw).1, hout⟩
    · obtain rfl := Option.some.inj hstop
      exact ⟨Nat.le_refl _, h.outside_length⟩
  · rintro ⟨hle, hout⟩
    obtain hlt | rfl : index < p.words.length ∨ index = p.words.length := by omega
    · exact .inl (List.mem_map.2
        ⟨(_, index), h.mem_outside_iff.2 ⟨hout, List.getElem?_eq_getElem hlt⟩, rfl⟩)
    · exact .inr rfl

/-- The words of the main routine are those that the functions do not have. -/
theorem Orderly.length_outside (h : p.Orderly) :
    (CompiledProgram.outsideFrom p.ranges 0 p.words).length +
      (p.functions.extents.map (·.size)).sum = p.words.length := by
  have hcount : (CompiledProgram.outsideFrom p.ranges 0 p.words).length =
      (List.range p.words.length).countP fun k => !p.ranges.any (·.contains k) := by
    rw [CompiledProgram.outsideFrom, ← List.countP_eq_length_filter, List.range_eq_range',
      ← List.zipIdx_map_snd 0 p.words, List.countP_map]
    rfl
  have hsizes : p.ranges.map (fun r => r.stop - r.first) = p.functions.extents.map (·.size) := by
    rw [h.ranges_eq, List.map_map]
    refine List.map_congr_left fun x hx => ?_
    rw [Function.comp_apply, (h.range_of_mem hx).2.1, Nat.add_sub_cancel_left]
  rw [hcount, ← hsizes]
  refine IndexRange.countP_outside ?_ ?_ ?_
  · rw [h.ranges_eq]
    intro r hr
    obtain ⟨x, hx, rfl⟩ := List.mem_map.1 hr
    obtain ⟨-, hstop, hsize, -⟩ := h.range_of_mem hx
    omega
  · rw [h.ranges_eq]
    intro r hr
    obtain ⟨x, hx, rfl⟩ := List.mem_map.1 hr
    exact (h.range_of_mem hx).2.2.2
  · rw [h.ranges_eq, List.pairwise_map]
    refine h.apart.imp_of_mem ?_
    intro x y hx hy hle
    obtain ⟨hxentry, hxstop, -, -⟩ := h.range_of_mem hx
    obtain ⟨hyentry, -, -, -⟩ := h.range_of_mem hy
    rw [Extent.stop] at hle
    omega

end Program

/-! ## The compiler -/

namespace CompiledProgram

variable {p : Program} {systemCalls : List Word} {c : CompiledProgram}

/-- A call is linked if it goes to a function or to a system call. -/
theorem links_iff {ranges : List IndexRange} {target : Word} :
    (surroundings ranges systemCalls).Links target ↔
      (∃ r ∈ ranges, r.first = target.toNat / 4) ∨ target ∈ systemCalls := by
  constructor
  · rintro ⟨functions, known, hlinkage, hlinks⟩
    obtain ⟨rfl, rfl⟩ := Linkage.units.inj hlinkage
    refine hlinks.imp_left fun hsome => ?_
    obtain ⟨u, hu⟩ := Option.isSome_iff_exists.1 hsome
    obtain ⟨r, hr, hfirst⟩ := unit?_eq_some hu
    exact ⟨r, List.mem_of_getElem? hr, hfirst⟩
  · intro h
    refine ⟨_, _, rfl, h.imp_left ?_⟩
    rintro ⟨r, hr, hfirst⟩
    cases hunit : (surroundings ranges systemCalls).unit? (unitEntries ranges) target with
    | some u => rfl
    | none => exact absurd hfirst (unit?_eq_none hunit r hr)

end CompiledProgram

namespace Program

variable {p : Program} {systemCalls : List Word} {x : Extent}

theorem Orderly.links_iff (h : p.Orderly) {target : Word} (haligned : Word.Aligned target) :
    (CompiledProgram.surroundings p.ranges systemCalls).Links target ↔
      p.IsEntry target ∨ target ∈ systemCalls := by
  have haligned : target.toNat % 4 = 0 := haligned
  rw [CompiledProgram.links_iff, h.ranges_eq]
  refine or_congr_left ?_
  constructor
  · rintro ⟨r, hr, hfirst⟩
    obtain ⟨x, hx, rfl⟩ := List.mem_map.1 hr
    have hentry := (h.range_of_mem hx).1
    exact ⟨x, hx, by omega⟩
  · rintro ⟨x, hx, hentry⟩
    have hentry' := (h.range_of_mem hx).1
    exact ⟨x.range, List.mem_map_of_mem hx, by omega⟩

/-- The listing of a part of the program is compiled if the instructions there are accepted. -/
theorem Orderly.exists_compile_iff (h : p.Orderly) {code : Listing} {s : Surroundings}
    {stop : Option Nat} {part bound : Nat → Prop}
    (hmem : ∀ {w : Word} {k : Nat}, (w, k) ∈ code ↔ part k ∧ p.words[k]? = some w)
    (hbinds : ∀ {n : Nat}, code.Binds stop n ↔ bound n) (entry : Word) :
    (∃ r, code.compile s stop entry = .ok r) ↔
      ∀ {k i}, part k → p.instruction? k = some i → s.Accepts bound k i := by
  rw [Listing.exists_compile_iff]
  constructor
  · intro hall k i hk hi
    obtain ⟨w, hw, hdecode⟩ := instruction?_eq_some_iff.1 hi
    obtain ⟨i', hdecode', haccepts⟩ := hall w k (hmem.2 ⟨hk, hw⟩)
    obtain rfl := Option.some.inj (hdecode.symm.trans hdecode')
    exact haccepts.mono fun n => hbinds.1
  · intro hall w k hx
    obtain ⟨hk, hw⟩ := hmem.1 hx
    obtain ⟨i, hdecode⟩ := h.decodes hw
    exact ⟨i, hdecode, (hall hk (instruction?_eq_some_iff.2 ⟨w, hw, hdecode⟩)).mono
      fun n => hbinds.2⟩

/-- The instructions of each part are accepted, and the program begins in the main routine. -/
structure Accepted (p : Program) (systemCalls : List Word) : Prop where
  inside : ∀ x ∈ p.functions.extents, ∀ {k i}, x.range.contains k → p.instruction? k = some i →
    (CompiledProgram.surroundings p.ranges systemCalls).Accepts (x.range.contains ·) k i
  outside : ∀ {k i}, p.Outside k → p.instruction? k = some i →
    (CompiledProgram.surroundings p.ranges systemCalls).Accepts
      (fun n => n ≤ p.words.length ∧ p.Outside n) k i
  entry : p.entryPoint / 4 ≤ p.words.length ∧ p.Outside (p.entryPoint / 4)

theorem Orderly.exists_compile_iff_accepted (h : p.Orderly) :
    (∃ c, CompiledProgram.compile p systemCalls = .ok c) ↔ p.Accepted systemCalls := by
  have hinside := fun x (hx : x ∈ p.functions.extents) =>
    h.exists_compile_iff (s := CompiledProgram.surroundings p.ranges systemCalls)
      (h.mem_slice_iff hx) (h.binds_slice_iff hx) (codeAddress textStart x.range.first)
  have houtside := h.exists_compile_iff (s := CompiledProgram.surroundings p.ranges systemCalls)
    h.mem_outside_iff h.binds_outside_iff (BitVec.ofNat 32 p.entryPoint)
  constructor
  · rintro ⟨c, hc⟩
    obtain ⟨units, b, hunits, hb, hstart, hmain, -⟩ := CompiledProgram.compile_eq_ok_iff.1 hc
    refine ⟨fun x hx => (hinside x hx).1 ?_, houtside.1 ⟨c.main, bind_eq_ok.2 ⟨b, hb, hmain⟩⟩, ?_⟩
    · have hrange : x.range ∈ p.ranges := by
        rw [h.ranges_eq]
        exact List.mem_map_of_mem hx
      obtain ⟨r, hr⟩ := exists_mapM_iff.1 ⟨units, hunits⟩ x.range hrange
      rw [CompiledProgram.compileUnit_eq] at hr
      exact ⟨r, hr⟩
    · rw [← h.binds_outside_iff, ← (Builder.builds_of_build hb).binds, hstart]
      rfl
  · intro haccepted
    obtain ⟨units, hunits⟩ : ∃ units, p.ranges.mapM (CompiledProgram.compileUnit
        (CompiledProgram.surroundings p.ranges systemCalls).linkage p.words) = .ok units := by
      refine exists_mapM_iff.2 fun r hr => ?_
      rw [h.ranges_eq] at hr
      obtain ⟨x, hx, rfl⟩ := List.mem_map.1 hr
      rw [CompiledProgram.compileUnit_eq]
      exact (hinside x hx).2 (haccepted.inside x hx)
    obtain ⟨main, hmain⟩ := houtside.2 haccepted.outside
    obtain ⟨b, hb, hmain⟩ := bind_eq_ok.1 hmain
    obtain ⟨start, hstart⟩ := Option.isSome_iff_exists.1
      (((Builder.builds_of_build hb).binds _).2 (h.binds_outside_iff.2 haccepted.entry))
    exact ⟨⟨main, units.toArray, start⟩,
      CompiledProgram.compile_eq_ok_iff.2 ⟨units, b, hunits, hb, hstart, hmain, rfl⟩⟩

/-- What is accepted is what the condition says, part by part. -/
theorem Orderly.accepted_iff (h : p.Orderly) :
    p.Accepted systemCalls ↔ p.Compilable systemCalls := by
  constructor
  · intro haccepted
    -- An instruction is in a function or it is not, and is accepted there.
    have hany : ∀ {k i}, p.instruction? k = some i → ∃ bound,
        (CompiledProgram.surroundings p.ranges systemCalls).Accepts bound k i := by
      intro k i hi
      by_cases hout : p.Outside k
      · exact ⟨_, haccepted.outside hout hi⟩
      · simp only [Outside, not_forall, Decidable.not_not] at hout
        obtain ⟨x, hx, hk⟩ := hout
        exact ⟨_, haccepted.inside x hx hk hi⟩
    refine ⟨?_, ?_, ?_, ?_, haccepted.entry⟩
    · intro k i hi
      obtain ⟨bound, haccepts⟩ := hany hi
      exact haccepts.callRegister
    · intro k op f hi
      obtain ⟨bound, haccepts⟩ := hany hi
      exact (h.links_iff (f.aligned_target _)).1 (haccepts.call op f rfl)
    · intro k i target hi htarget x hx hk
      obtain ⟨n, rfl, hn⟩ := (haccepted.inside x hx hk hi).branch target htarget
      have := IndexRange.contains_iff.1 hn
      omega
    · intro k i target hi htarget hout
      exact (haccepted.outside hout hi).branch target htarget
  · intro hcompilable
    have hlinks : ∀ {k op f}, p.instruction? k = some (.jump op f) →
        (CompiledProgram.surroundings p.ranges systemCalls).Links
          (f.target (codeAddress textStart (k + 1))) :=
      fun hi => (h.links_iff (JumpForm.aligned_target _ _)).2 (hcompilable.call hi)
    refine ⟨?_, ?_, hcompilable.entry⟩
    · intro x hx k i hk hi
      refine ⟨hcompilable.callRegister hi, ?_, ?_⟩
      · rintro op f rfl
        exact hlinks hi
      · intro target htarget
        obtain ⟨hfirst, hlast⟩ := hcompilable.inside hi htarget x hx hk
        exact ⟨target.toNat, by omega, IndexRange.contains_iff.2 (by omega)⟩
    · intro k i hout hi
      refine ⟨hcompilable.callRegister hi, ?_, ?_⟩
      · rintro op f rfl
        exact hlinks hi
      · intro target htarget
        exact hcompilable.outside hi htarget hout

end Program

namespace CompiledProgram

variable {p : Program} {systemCalls : List Word} {c : CompiledProgram}

/-- There is a unit for each function, in the order of the table, and a step for each instruction.
-/
structure Shape (c : CompiledProgram) (p : Program) : Prop where
  units : c.units.size = p.functions.extents.length
  unit : ∀ {u : Nat} {x : Extent}, p.functions.extents[u]? = some x → ∃ r, c.units[u]? = some r ∧
    r.entry = BitVec.ofNat 32 x.entry ∧ r.size = x.size
  main : c.main.size + (p.functions.extents.map (·.size)).sum = p.words.length

theorem size_units_of_compile (h : p.Orderly) (hc : compile p systemCalls = .ok c) :
    c.units.size = p.functions.extents.length := by
  obtain ⟨units, b, hunits, -, -, -, heq⟩ := compile_eq_ok_iff.1 hc
  rw [heq, List.size_toArray, (mapM_eq_ok hunits).1, h.ranges_eq, List.length_map]

/-- The unit of a function resolves the words of the function. -/
theorem unit_of_compile (h : p.Orderly) (hc : compile p systemCalls = .ok c) {u : Nat} {x : Extent}
    (hx : p.functions.extents[u]? = some x) :
    ∃ r, c.units[u]? = some r ∧ r.entry = codeAddress Program.textStart x.range.first ∧
      r.Resolves (surroundings p.ranges systemCalls)
        ((x.range.slice p.words).zipIdx x.range.first) none := by
  obtain ⟨units, b, hunits, -, -, -, heq⟩ := compile_eq_ok_iff.1 hc
  obtain ⟨r, hr, hget⟩ := (mapM_eq_ok hunits).2 u x.range
    (by rw [h.ranges_eq, List.getElem?_map, hx]; rfl)
  rw [compileUnit_eq] at hr
  exact ⟨r, by rw [heq, List.getElem?_toArray, hget], Listing.compile_eq_ok hr⟩

theorem shape_of_compile (h : p.Orderly) (hc : compile p systemCalls = .ok c) : c.Shape p := by
  refine ⟨size_units_of_compile h hc, ?_, ?_⟩
  · intro u x hx
    have hmem := List.mem_of_getElem? hx
    obtain ⟨r, hr, hentry, hresolves⟩ := unit_of_compile h hc hx
    refine ⟨r, hr, ?_, ?_⟩
    · rw [hentry, Program.codeAddress_textStart, (h.range_of_mem hmem).1]
    · rw [hresolves.size, List.length_zipIdx, h.length_slice hmem]
  · obtain ⟨units, b, -, hb, -, hmain, -⟩ := compile_eq_ok_iff.1 hc
    rw [((Builder.builds_of_build hb).resolves hmain).2.size]
    exact h.length_outside

/-- **Which programs are compiled.** An assembled program is compiled exactly if its instructions
and its function table allow it. There is a unit for each function then, and the main routine has a
step for every instruction that is left. -/
theorem compile_ofLines {lines : List String} {seed : LabelTable} {p : Program}
    (h : Program.ofLines lines seed = .ok p) (t : SystemCalls σ) :
    ((∃ c, compile p t.symbols.addresses = .ok c) ↔ p.Compilable t.symbols.addresses) ∧
      ∀ c, compile p t.symbols.addresses = .ok c → c.Shape p := by
  have horderly := Program.orderly_ofLines h
  exact ⟨horderly.exists_compile_iff_accepted.trans horderly.accepted_iff,
    fun c hc => shape_of_compile horderly hc⟩

/-- A loop that calls a function and a system call. -/
def linked : List String := [
  "main: movi r4, 70",
  "loop: call step",
  "      call putchar",
  "      bne  r4, r0, loop",
  "      br   done",
  "step: addi r4, r4, -1",
  "      bge  r4, r0, last",
  "      add  r4, r0, r0",
  "last: ret",
  "done: nop"]

/-- The same, but the loop goes on at the return of the function. -/
def astray : List String :=
  linked.set 3 "      bne  r4, r0, last"

/-- In `linked` the one function takes four instructions, and six are left. In `astray` a branch
leads into the function. -/
theorem compile_ofLines_linked :
    let t : SystemCalls (Array Byte) := .defaults
    (∃ p c, Program.ofLines linked (.ofSymbols t.symbols) = .ok p ∧
      compile p t.symbols.addresses = .ok c ∧ p.Compilable t.symbols.addresses ∧
      p.functions.extents = [⟨20, 4⟩] ∧ p.words.length = 10 ∧ c.units.size = 1 ∧
      (∃ r, c.units[0]? = some r ∧ r.entry = 20 ∧ r.size = 4) ∧ c.main.size = 6) ∧
    ∃ p, Program.ofLines astray (.ofSymbols t.symbols) = .ok p ∧
      ¬p.Compilable t.symbols.addresses := by
  intro t
  have haccepted : (Program.ofLines linked (.ofSymbols t.symbols)).toOption.any fun p =>
      (compile p t.symbols.addresses).toOption.any fun _ =>
        decide (p.functions.extents = [⟨20, 4⟩] ∧ p.words.length = 10) := by decide +kernel
  have hastray : (Program.ofLines astray (.ofSymbols t.symbols)).toOption.any fun p =>
      (compile p t.symbols.addresses).toOption.isNone := by decide +kernel
  constructor
  · obtain ⟨p, h, hp⟩ := any_toOption haccepted
    obtain ⟨c, hc, hp⟩ := any_toOption hp
    obtain ⟨hextents, hlength⟩ := of_decide_eq_true hp
    obtain ⟨hiff, hshape⟩ := compile_ofLines h t
    have hunits := (hshape c hc).units
    have hmain := (hshape c hc).main
    obtain ⟨r, hr, hentry, hsize⟩ := (hshape c hc).unit (u := 0) (x := ⟨20, 4⟩)
      (by rw [hextents]; rfl)
    rw [hextents] at hunits hmain
    rw [hlength] at hmain
    exact ⟨p, c, h, hc, hiff.1 ⟨c, hc⟩, hextents, hlength, hunits, ⟨r, hr, hentry, hsize⟩,
      Nat.add_right_cancel hmain⟩
  · obtain ⟨p, h, hp⟩ := any_toOption hastray
    refine ⟨p, h, fun hcompilable => ?_⟩
    obtain ⟨c, hc⟩ := (compile_ofLines h t).1.2 hcompilable
    rw [hc] at hp
    simp [Except.toOption] at hp

end CompiledProgram

end Risc32
