import Risc32.Compiled.Whole
import Risc32.Proofs.Compiled.Acceptance
import Risc32.Proofs.Assembly.Programs

/-!
# Programs compiled as a whole

The main routine of a compiled program is compiled from what lies in no function, with the index
past the last instruction bound to its end, and each function has a routine of its own
(`CompiledProgram.compile_eq_ok`). Calls are linked by the entries of functions first.

A word of the program and the one that follows it need not stand side by side in the listing of
the main routine. They do if the second lies in no function either, and in the listing of a
function, which a return ends, they always do (`Part.next`).
-/

set_option autoImplicit false

namespace Risc32

/-! ## The parts of a listing -/

namespace CompiledProgram

/-- The words that lie in none of the functions, the first of which has the index `first`. -/
def outsideFrom (ranges : List IndexRange) (first : Nat) (ws : List Word) : Listing :=
  (ws.zipIdx first).filter fun x => !ranges.any (·.contains x.2)

/-- Leaving words out is compiling what is left. -/
theorem addOutside_eq (ranges : List IndexRange) (b : Builder) (first : Nat) (ws : List Word) :
    addOutside ranges b first ws = do
      let b' ← b.addAll (outsideFrom ranges first ws)
      return b'.bind (first + ws.length) := by
  induction ws generalizing b first with
  | nil => rfl
  | cons w ws ih =>
    rw [addOutside, outsideFrom, List.zipIdx_cons, List.filter_cons, List.length_cons,
      show first + (ws.length + 1) = first + 1 + ws.length by omega]
    by_cases hin : ranges.any (·.contains first)
    · simp only [hin, if_true, Bool.not_true, Bool.false_eq_true, if_false]
      exact ih b (first + 1)
    · simp only [hin, Bool.false_eq_true, if_false, Bool.not_false, if_true]
      rw [Builder.addAll, List.foldlM_cons]
      cases hword : b.addWord first w with
      | error reason => rfl
      | ok b' => exact ih b' (first + 1)

theorem outsideFrom_eq_some {ranges : List IndexRange} {first position index : Nat}
    {ws : List Word} {w : Word} (h : (outsideFrom ranges first ws)[position]? = some (w, index)) :
    first ≤ index ∧ ws[index - first]? = some w ∧ ¬ranges.any (·.contains index) := by
  have hmem := List.mem_of_getElem? h
  rw [outsideFrom, List.mem_filter] at hmem
  obtain ⟨hmem, hout⟩ := hmem
  obtain ⟨k, hk⟩ := List.getElem?_of_mem hmem
  obtain ⟨hw, rfl⟩ := Listing.zipIdx_eq_some hk
  exact ⟨Nat.le_add_right _ _, by rwa [Nat.add_sub_cancel_left], by simpa using hout⟩

/-- What lies in none of the functions has a position. -/
theorem exists_outside {ranges : List IndexRange} {ws : List Word} {w : Word} {index : Nat}
    (hw : ws[index]? = some w) (hout : ¬ranges.any (·.contains index)) :
    ∃ position : Nat, (outsideFrom ranges 0 ws)[position]? = some (w, index) := by
  apply List.getElem?_of_mem
  rw [outsideFrom, List.mem_filter]
  refine ⟨List.mem_of_getElem? (i := index) ?_, by simpa using hout⟩
  rw [List.getElem?_zipIdx, hw]
  simp

/-- A word that is left has one position. -/
theorem outsideFrom_inj {ranges : List IndexRange} {first position position' index : Nat}
    {ws : List Word} {w w' : Word} (h : (outsideFrom ranges first ws)[position]? = some (w, index))
    (h' : (outsideFrom ranges first ws)[position']? = some (w', index)) :
    position = position' := by
  have hnodup : ((outsideFrom ranges first ws).map Prod.snd).Nodup := by
    refine List.Nodup.sublist (List.filter_sublist.map Prod.snd) ?_
    rw [List.zipIdx_map_snd]
    exact List.nodup_range'
  refine (List.getElem?_inj ?_ hnodup).1 ?_
  · rw [List.length_map]
    exact (List.getElem?_eq_some_iff.1 h).1
  · rw [List.getElem?_map, List.getElem?_map, h, h']
    rfl

/-- So has the end. -/
theorem outside_position_inj {ranges : List IndexRange} {position position' index : Nat}
    {ws : List Word}
    (h : (outsideFrom ranges 0 ws).Position (some ws.length) index position)
    (h' : (outsideFrom ranges 0 ws).Position (some ws.length) index position') :
    position = position' := by
  have hinside : ∀ {position : Nat} {w : Word},
      (outsideFrom ranges 0 ws)[position]? = some (w, index) → some ws.length ≠ some index := by
    intro position w hw hstop
    have hlt := (List.getElem?_eq_some_iff.1 (outsideFrom_eq_some hw).2.1).1
    have := Option.some.inj hstop
    omega
  rcases h with ⟨w, hw⟩ | ⟨hstop, hend⟩ <;> rcases h' with ⟨w', hw'⟩ | ⟨hstop', hend'⟩
  · exact outsideFrom_inj hw hw'
  · exact absurd hstop' (hinside hw)
  · exact absurd hstop (hinside hw')
  · exact hend.trans hend'.symm

theorem outsideFrom_cons (ranges : List IndexRange) (first : Nat) (w : Word) (ws : List Word) :
    outsideFrom ranges first (w :: ws) =
      if ranges.any (·.contains first) then outsideFrom ranges (first + 1) ws
      else (w, first) :: outsideFrom ranges (first + 1) ws := by
  rw [outsideFrom, List.zipIdx_cons, List.filter_cons]
  by_cases hin : ranges.any (·.contains first) <;> simp [hin, outsideFrom]

/-- The listing begins with the first word that is left, or it is empty and ends with the words. -/
theorem outsideFrom_first (ranges : List IndexRange) (first : Nat) (ws : List Word) :
    ∃ next, first ≤ next ∧ (∀ k, first ≤ k → k < next → ranges.any (·.contains k)) ∧
      (outsideFrom ranges first ws).Position (some (first + ws.length)) next 0 := by
  induction ws generalizing first with
  | nil => exact ⟨first, Nat.le_refl _, fun k hle hlt => by omega, .inr ⟨rfl, rfl⟩⟩
  | cons w ws ih =>
    rw [outsideFrom_cons]
    by_cases hin : ranges.any (·.contains first)
    · obtain ⟨next, hle, hbetween, hposition⟩ := ih (first + 1)
      rw [if_pos hin, List.length_cons, ← Nat.add_assoc, Nat.add_right_comm]
      refine ⟨next, by omega, ?_, hposition⟩
      intro k hk hlt
      obtain rfl | hk : first = k ∨ first + 1 ≤ k := by omega
      · exact hin
      · exact hbetween k hk hlt
    · rw [if_neg hin]
      exact ⟨first, Nat.le_refl _, fun k hle hlt => by omega, .inl ⟨w, rfl⟩⟩

/-- After a word that is left comes the next one that is left, or the listing ends with the words.
Everything in between is left out. -/
theorem outside_following {ranges : List IndexRange} {first position index : Nat} {ws : List Word}
    {w : Word} (h : (outsideFrom ranges first ws)[position]? = some (w, index)) :
    ∃ next, index < next ∧ (∀ k, index < k → k < next → ranges.any (·.contains k)) ∧
      (outsideFrom ranges first ws).Position (some (first + ws.length)) next (position + 1) := by
  induction ws generalizing first position with
  | nil => simp [outsideFrom] at h
  | cons w₀ ws ih =>
    rw [List.length_cons, ← Nat.add_assoc, Nat.add_right_comm]
    rw [outsideFrom_cons] at h ⊢
    by_cases hin : ranges.any (·.contains first)
    · -- A word that is left out takes no position.
      rw [if_pos hin] at h ⊢
      exact ih h
    · rw [if_neg hin] at h ⊢
      cases position with
      | zero =>
        obtain ⟨rfl, rfl⟩ : w₀ = w ∧ first = index := by simpa using h
        obtain ⟨next, hle, hbetween, hposition⟩ := outsideFrom_first ranges (first + 1) ws
        exact ⟨next, hle, fun k hk => hbetween k hk, hposition.cons _⟩
      | succ position =>
        obtain ⟨next, hlt, hbetween, hposition⟩ := ih (by simpa using h)
        exact ⟨next, hlt, hbetween, hposition.cons _⟩

/-- After a word that is left comes the next word, if that is left, or the listing ends with the
words. -/
theorem outside_next {ranges : List IndexRange} {first position index : Nat} {ws : List Word}
    {w : Word} (h : (outsideFrom ranges first ws)[position]? = some (w, index))
    (hout : ¬ranges.any (·.contains (index + 1))) :
    (outsideFrom ranges first ws).Position (some (first + ws.length)) (index + 1)
      (position + 1) := by
  obtain ⟨next, hlt, hbetween, hposition⟩ := outside_following h
  obtain rfl | hafter : index + 1 = next ∨ index + 1 < next := by omega
  · exact hposition
  · exact absurd (hbetween _ (Nat.lt_succ_self index) hafter) hout

end CompiledProgram

/-! ## Functions as ranges -/

theorem IndexRange.any_contains_iff {ranges : List IndexRange} {index : Nat} :
    ranges.any (·.contains index) ↔ ∃ r ∈ ranges, r.first ≤ index ∧ index < r.stop := by
  simp [contains]

theorem IndexRange.slice_eq_some {α : Type} {r : IndexRange} {l : List α} {k : Nat} {a : α}
    (h : (r.slice l)[k]? = some a) : l[r.first + k]? = some a ∧ k < r.stop - r.first := by
  rw [slice, List.getElem?_take] at h
  split at h
  · next hlt => exact ⟨by rwa [List.getElem?_drop] at h, hlt⟩
  · cases h

theorem IndexRange.position_first {r : IndexRange} {ws : List Word} (hnonempty : r.first < r.stop)
    (hstop : r.stop ≤ ws.length) :
    Listing.Position ((r.slice ws).zipIdx r.first) none r.first 0 := by
  have hlength : 0 < (r.slice ws).length := by
    rw [slice, List.length_take, List.length_drop]
    omega
  exact .inl ⟨_, Listing.zipIdx_of_lt hlength _⟩

/-- The ranges of the functions of a program. -/
abbrev Program.ranges (p : Program) : List IndexRange :=
  p.functions.ranges p.words.length

/-- The range of a function, of which the last word is a return. -/
theorem Program.range_of_mem {p : Program}
    (hfunctions : ∀ x ∈ p.functions.extents, p.HasFunction x) {range : IndexRange}
    (h : range ∈ p.ranges) :
    ∃ x ∈ p.functions.extents, x.entry = 4 * range.first ∧ range.stop = range.first + x.size ∧
      range.first < range.stop ∧ range.stop ≤ p.words.length ∧
      ∃ w i, p.words[range.stop - 1]? = some w ∧ Instruction.decode w = some i ∧ i.isReturn := by
  obtain ⟨x, hx, rfl⟩ := List.mem_map.1 h
  obtain ⟨first, w, i, hentry, hsize, hw, hdecode, hreturn⟩ := hfunctions x hx
  have hlast := (List.getElem?_eq_some_iff.1 hw).1
  have hdiv : x.entry / 4 = first := by omega
  have hmin : min (first + x.size) p.words.length = first + x.size :=
    Nat.min_eq_left (by omega)
  simp only [hdiv, hmin]
  exact ⟨x, hx, hentry, rfl, by omega, by omega, w, i, hw, hdecode, hreturn⟩

/-- Where an instruction of a program stands. -/
theorem Program.codeAddress_textStart (index : Nat) :
    codeAddress textStart index = BitVec.ofNat 32 (4 * index) :=
  BitVec.zero_add _

theorem Program.codeAddress_eq {index : Nat} {address : Word} (h : 4 * index = address.toNat) :
    codeAddress textStart index = address := by
  rw [codeAddress_textStart, h, BitVec.ofNat_toNat, BitVec.setWidth_eq]

/-! ## The routines -/

namespace CompiledProgram

/-- The units that calls can go to: the entry of each function, and its number. -/
def unitEntries (ranges : List IndexRange) : List (Nat × Nat) :=
  ranges.zipIdx.map fun x => (x.1.first, x.2)

/-- What the steps of a program compiled as a whole depend on. -/
def surroundings (ranges : List IndexRange) (systemCalls : List Word) : Surroundings where
  base := Program.textStart
  exit := .toCaller
  linkage := .units (unitEntries ranges) systemCalls

/-- The compiled program renders the program: the main routine what lies in no function, and each
unit its function. -/
structure Renders (c : CompiledProgram) (p : Program) (systemCalls : List Word) : Prop where
  main : c.main.Realizes (surroundings p.ranges systemCalls) (outsideFrom p.ranges 0 p.words)
    (some p.words.length)
  start : (outsideFrom p.ranges 0 p.words).Position (some p.words.length) (p.entryPoint / 4)
    c.start
  unit : ∀ {u : Nat} {range : IndexRange}, p.ranges[u]? = some range → ∃ r, c.units[u]? = some r ∧
    r.entry = codeAddress Program.textStart range.first ∧
    r.Realizes (surroundings p.ranges systemCalls) ((range.slice p.words).zipIdx range.first) none

theorem compileUnit_eq (linkage : Linkage) (words : List Word) (range : IndexRange) :
    compileUnit linkage words range =
      Listing.compile ((range.slice words).zipIdx range.first)
        ⟨Program.textStart, .toCaller, linkage⟩ none
        (codeAddress Program.textStart range.first) := by
  rw [compileUnit, Builder.addWords_eq_addAll, Listing.compile_none]
  rfl

theorem addOutside_eq_build (linkage : Linkage) (ranges : List IndexRange) (words : List Word) :
    addOutside ranges (Builder.new Program.textStart .toCaller linkage) 0 words =
      (outsideFrom ranges 0 words).build ⟨Program.textStart, .toCaller, linkage⟩
        (some words.length) := by
  rw [addOutside_eq, Nat.zero_add]
  rfl

theorem compileUnit_realizes {linkage : Linkage} {words : List Word} {range : IndexRange}
    {r : Routine} (h : compileUnit linkage words range = .ok r) :
    r.entry = codeAddress Program.textStart range.first ∧
    r.Realizes ⟨Program.textStart, .toCaller, linkage⟩ ((range.slice words).zipIdx range.first)
      none := by
  rw [compileUnit_eq] at h
  exact (Listing.compile_eq_ok h).imp_right Routine.Resolves.realizes

/-- A program is compiled in these parts. -/
theorem compile_eq_ok_iff {p : Program} {systemCalls : List Word} {c : CompiledProgram} :
    compile p systemCalls = .ok c ↔ ∃ units b,
      p.ranges.mapM (compileUnit (surroundings p.ranges systemCalls).linkage p.words) = .ok units ∧
      (outsideFrom p.ranges 0 p.words).build (surroundings p.ranges systemCalls)
        (some p.words.length) = .ok b ∧
      b.position? (p.entryPoint / 4) = some c.start ∧
      b.toRoutine (BitVec.ofNat 32 p.entryPoint) = .ok c.main ∧ c.units = units.toArray := by
  rw [surroundings, ← addOutside_eq_build]
  constructor
  · intro h
    obtain ⟨units, hunits, h⟩ := bind_eq_ok.1 h
    obtain ⟨b, hb, h⟩ := bind_eq_ok.1 h
    split at h
    · cases h
    · next start hstart =>
      obtain ⟨main, hmain, h⟩ := bind_eq_ok.1 h
      obtain rfl := Except.ok.inj h
      exact ⟨units, b, hunits, hb, hstart, hmain, rfl⟩
  · rintro ⟨units, b, hunits, hb, hstart, hmain, heq⟩
    refine bind_eq_ok.2 ⟨units, hunits, bind_eq_ok.2 ⟨b, hb, ?_⟩⟩
    simp only [hstart]
    refine bind_eq_ok.2 ⟨c.main, hmain, ?_⟩
    rw [← heq]
    rfl

theorem compile_eq_ok {p : Program} {systemCalls : List Word} {c : CompiledProgram}
    (h : compile p systemCalls = .ok c) : c.Renders p systemCalls := by
  obtain ⟨units, b, hunits, hb, hstart, hmain, heq⟩ := compile_eq_ok_iff.1 h
  have hbuilds := Builder.builds_of_build hb
  refine ⟨(hbuilds.resolves hmain).2.realizes, hbuilds.position hstart, ?_⟩
  intro u range hrange
  obtain ⟨r, hr, hget⟩ := (mapM_eq_ok hunits).2 u range hrange
  exact ⟨r, by rw [heq, List.getElem?_toArray, hget], compileUnit_realizes hr⟩

/-- A routine of the compiled program, with the listing it renders and the index bound to the end
of it. -/
inductive Part (c : CompiledProgram) (p : Program) : Routine → Listing → Option Nat → Prop where
  | main : Part c p c.main (outsideFrom p.ranges 0 p.words) (some p.words.length)
  | unit {u : Nat} {range : IndexRange} {r : Routine} (function : p.ranges[u]? = some range)
      (compiled : c.units[u]? = some r) :
      Part c p r ((range.slice p.words).zipIdx range.first) none

variable {c : CompiledProgram} {p : Program} {systemCalls : List Word} {r : Routine}
  {code : Listing} {stop : Option Nat}

theorem Part.realizes (hpart : c.Part p r code stop) (h : c.Renders p systemCalls) :
    r.Realizes (surroundings p.ranges systemCalls) code stop := by
  cases hpart with
  | main => exact h.main
  | unit function compiled =>
    obtain ⟨r', hr', -, hrealizes⟩ := h.unit function
    obtain rfl := Option.some.inj (compiled.symm.trans hr')
    exact hrealizes

/-- The words of a part are words of the program, at the same indices. -/
theorem Part.word (hpart : c.Part p r code stop) {position index : Nat} {w : Word}
    (h : code[position]? = some (w, index)) : p.words[index]? = some w := by
  cases hpart with
  | main => exact (outsideFrom_eq_some h).2.1
  | unit function compiled =>
    obtain ⟨hw, rfl⟩ := Listing.zipIdx_eq_some h
    exact (IndexRange.slice_eq_some hw).1

/-- Every word of the program is in some part. -/
theorem exists_part (h : c.Renders p systemCalls) {index : Nat} {w : Word}
    (hw : p.words[index]? = some w) :
    ∃ r code stop, ∃ position : Nat, c.Part p r code stop ∧
      code[position]? = some (w, index) := by
  by_cases hin : p.ranges.any (·.contains index)
  · obtain ⟨range, hrange, hcontains⟩ := IndexRange.any_contains_iff.1 hin
    obtain ⟨u, hu⟩ := List.getElem?_of_mem hrange
    obtain ⟨r, hr, -, -⟩ := h.unit hu
    refine ⟨r, _, none, index - range.first, .unit hu hr, ?_⟩
    rw [List.getElem?_zipIdx, IndexRange.slice, List.getElem?_take_of_lt (by omega),
      List.getElem?_drop, Nat.add_sub_cancel' hcontains.1, hw]
    simp
  · obtain ⟨position, hposition⟩ := exists_outside hw hin
    exact ⟨c.main, _, some p.words.length, position, .main, hposition⟩

/-- After a word that does not return comes the next word. In the main routine it could be missing,
since a function begins there. -/
theorem Part.next (hpart : c.Part p r code stop)
    (hfunctions : ∀ x ∈ p.functions.extents, p.HasFunction x) {position index : Nat} {w : Word}
    {i : Instruction} (h : code[position]? = some (w, index))
    (hdecode : Instruction.decode w = some i) (hstays : i.isReturn = false)
    (hmain : stop.isSome → ¬p.ranges.any (·.contains (index + 1))) :
    code.Position stop (index + 1) (position + 1) := by
  cases hpart with
  | main => simpa using outside_next h (hmain rfl)
  | @unit u range r function compiled =>
    obtain ⟨hw, rfl⟩ := Listing.zipIdx_eq_some h
    obtain ⟨hword, hlt⟩ := IndexRange.slice_eq_some hw
    obtain ⟨x, -, -, -, hnonempty, hstop, wl, il, hlast, hdecodel, hreturn⟩ :=
      Program.range_of_mem hfunctions (List.mem_of_getElem? function)
    -- The last word of the function is a return, so this one is not the last.
    have hmore : position + 1 < range.stop - range.first := by
      have hne : position + 1 ≠ range.stop - range.first := by
        intro heq
        rw [show range.stop - 1 = range.first + position by omega, hword] at hlast
        obtain rfl := Option.some.inj hlast
        obtain rfl := Option.some.inj (hdecode.symm.trans hdecodel)
        simp [hstays] at hreturn
      omega
    have hlength : position + 1 < (range.slice p.words).length := by
      rw [IndexRange.slice, List.length_take, List.length_drop]
      omega
    exact .inl ⟨_, by rw [Listing.zipIdx_of_lt hlength, Nat.add_assoc]⟩

/-! ## Calls -/

/-- A call is linked to the last function that begins at its target. -/
theorem unit?_eq_some {ranges : List IndexRange} {target : Word} {u : Nat}
    (h : (surroundings ranges systemCalls).unit? (unitEntries ranges) target = some u) :
    ∃ range, ranges[u]? = some range ∧ range.first = target.toNat / 4 := by
  have hlookup : (unitEntries ranges).reverse.lookup ((target.toNat - 0) / 4) = some u := by
    rw [Surroundings.unit?] at h
    split at h
    · exact h
    · cases h
  obtain ⟨before, after, heq, -⟩ := List.lookup_eq_some_iff.1 hlookup
  have hmem : ((target.toNat - 0) / 4, u) ∈ unitEntries ranges := by
    rw [← List.mem_reverse, heq]
    simp
  obtain ⟨⟨range, u'⟩, hzip, hpair⟩ := List.mem_map.1 hmem
  obtain ⟨hfirst, rfl⟩ := Prod.mk.inj hpair
  exact ⟨range, List.mem_zipIdx_iff_getElem?.1 hzip, hfirst⟩

theorem unit?_eq_none {ranges : List IndexRange} {target : Word}
    (h : (surroundings ranges systemCalls).unit? (unitEntries ranges) target = none) :
    ∀ range ∈ ranges, range.first ≠ target.toNat / 4 := by
  intro range hrange heq
  have hlookup : (unitEntries ranges).reverse.lookup ((target.toNat - 0) / 4) = none := by
    rw [Surroundings.unit?, if_pos (BitVec.le_def.2 (Nat.zero_le _))] at h
    exact h
  obtain ⟨u, hu⟩ := List.getElem?_of_mem hrange
  have hmem : (range.first, u) ∈ (unitEntries ranges).reverse := by
    rw [List.mem_reverse]
    exact List.mem_map.2 ⟨(range, u), List.mem_zipIdx_iff_getElem?.2 hu, rfl⟩
  have hne := List.lookup_eq_none_iff.1 hlookup _ hmem
  simp [heq] at hne

end CompiledProgram

end Risc32
