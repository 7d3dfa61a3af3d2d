import Risc32.Proofs.Compiled.Rendering

/-!
# Routines and the words they come from

A routine is compiled from a listing: words, each with its index. The words of a function stand in
a row, those of a main routine have gaps where the functions were. `Routine.Realizes` says what is
true of both. The step at a position renders the word at that position of the listing, and every
label of a step leads to the position of the index it was asked for.

The builder reaches this in one pass. `Builder.Translates` is what each word preserves, and the
labels are resolved at the end.
-/

set_option autoImplicit false

namespace Risc32

/-- Words with their indices. -/
abbrev Listing := List (Word × Nat)

/-- The position of an index in a listing. One index more may stand for the end of it. -/
def Listing.Position (code : Listing) (stop : Option Nat) (index position : Nat) : Prop :=
  (∃ w, code[position]? = some (w, index)) ∨ (stop = some index ∧ position = code.length)

/-- A word in front moves all the others by one. -/
theorem Listing.Position.cons {code : Listing} {stop : Option Nat} {index position : Nat}
    (h : code.Position stop index position) (x : Word × Nat) :
    Listing.Position (x :: code) stop index (position + 1) := by
  rcases h with ⟨w, hw⟩ | ⟨hstop, hend⟩
  · exact .inl ⟨w, by simpa using hw⟩
  · exact .inr ⟨hstop, by simpa using hend⟩

/-- There is one index at a position. -/
theorem Listing.Position.index_eq {code : Listing} {stop : Option Nat} {index index' position : Nat}
    (h : code.Position stop index position) (h' : code.Position stop index' position) :
    index = index' := by
  have hinside : ∀ {x : Word × Nat}, code[position]? = some x → position ≠ code.length :=
    fun hx => Nat.ne_of_lt (List.getElem?_eq_some_iff.1 hx).1
  rcases h with ⟨w, hw⟩ | ⟨hstop, hend⟩ <;> rcases h' with ⟨w', hw'⟩ | ⟨hstop', hend'⟩
  · exact (Prod.mk.inj (Option.some.inj (hw.symm.trans hw'))).2
  · exact absurd hend' (hinside hw)
  · exact absurd hend (hinside hw')
  · exact Option.some.inj (hstop.symm.trans hstop')

/-- The words of a function stand at their indices, counted from the first. -/
theorem Listing.zipIdx_eq_some {ws : List Word} {first position index : Nat} {w : Word}
    (h : (ws.zipIdx first)[position]? = some (w, index)) :
    ws[position]? = some w ∧ index = first + position := by
  rw [List.getElem?_zipIdx] at h
  obtain ⟨w', hw', heq⟩ := Option.map_eq_some_iff.1 h
  obtain ⟨rfl, rfl⟩ := Prod.mk.inj heq
  exact ⟨hw', rfl⟩

theorem Listing.zipIdx_of_lt {ws : List Word} {position : Nat} (h : position < ws.length)
    (first : Nat) : (ws.zipIdx first)[position]? = some (ws[position], first + position) := by
  rw [List.getElem?_zipIdx, List.getElem?_eq_getElem h]
  rfl

/-- The steps of the routine render the words of the listing. -/
structure Routine.Realizes (r : Routine) (s : Surroundings) (code : Listing) (stop : Option Nat) :
    Prop where
  size : r.steps.size = code.length
  step : ∀ {position index : Nat} {w : Word}, code[position]? = some (w, index) →
    ∃ i st, Instruction.decode w = some i ∧ r.steps[position]? = some st ∧
      Renders s index (fun label target => code.Position stop target (r.target label)) i st

/-! ## The builder on a listing -/

namespace Builder

/-- The builder has compiled the words of the listing and nothing else. -/
structure Translates (b : Builder) (s : Surroundings) (code : Listing) : Prop where
  surroundings : b.surroundings = s
  numbered : b.Numbered
  size : b.steps.size = code.length
  position : ∀ {index position : Nat}, b.position? index = some position →
    ∃ w, code[position]? = some (w, index)
  step : ∀ {position index : Nat} {w : Word}, code[position]? = some (w, index) →
    ∃ i st, Instruction.decode w = some i ∧ b.steps[position]? = some st ∧
      Renders s index b.Labelled i st

theorem translates_new (base : Word) (exit : Exit) (linkage : Linkage) :
    (new base exit linkage).Translates ⟨base, exit, linkage⟩ [] where
  surroundings := rfl
  numbered := numbered_new base exit linkage
  size := rfl
  position h := by simp [position?, new] at h
  step h := by simp at h

/-- A word that is compiled is added at the end. -/
theorem Translates.addWord {b b' : Builder} {s : Surroundings} {code : Listing} {index : Nat}
    {w : Word} (hb : b.Translates s code) (h : b.addWord index w = .ok b') :
    b'.Translates s (code ++ [(w, index)]) := by
  rw [Builder.addWord] at h
  cases hdecode : Instruction.decode w with
  | none => simp [hdecode] at h
  | some i =>
    simp only [hdecode] at h
    obtain ⟨st, happends, hrenders⟩ := add_renders h
    have hsteps : b'.steps = b.steps.push st := happends.steps
    have hlabels : ∀ label target, b.Labelled label target → b'.Labelled label target :=
      happends.labels
    constructor
    · rw [happends.surroundings, ← hb.surroundings]
      rfl
    · exact happends.numbered hb.numbered
    · rw [hsteps, Array.size_push, hb.size, List.length_append, List.length_singleton]
    · -- The word was bound as it was entered, before its step was there.
      intro index' position hposition
      rw [position?, happends.bindings] at hposition
      change List.lookup index' ((index, b.steps.size) :: b.bindings) = some position at hposition
      rw [List.lookup_cons] at hposition
      by_cases heq : index' = index
      · subst heq
        simp only [BEq.rfl, Option.some.injEq] at hposition
        exact ⟨w, by simp [← hposition, hb.size]⟩
      · rw [beq_eq_false_iff_ne.2 heq] at hposition
        obtain ⟨w', hw'⟩ := hb.position hposition
        exact ⟨w', by rw [List.getElem?_append_left (List.getElem?_eq_some_iff.1 hw').1, hw']⟩
    · -- Older words keep their steps, and the new one is at the end.
      intro position index' w' hcode
      by_cases hlt : position < code.length
      · rw [List.getElem?_append_left hlt] at hcode
        obtain ⟨i', st', hi', hst', hr'⟩ := hb.step hcode
        refine ⟨i', st', hi', ?_, hr'.mono hlabels⟩
        rw [hsteps, Array.getElem?_push_lt (by rw [hb.size]; exact hlt), ← hst',
          Array.getElem?_eq_getElem (by rw [hb.size]; exact hlt)]
      · obtain rfl : position = code.length := by
          have := (List.getElem?_eq_some_iff.1 hcode).1
          simp only [List.length_append, List.length_singleton] at this
          omega
        obtain ⟨rfl, rfl⟩ : w = w' ∧ index = index' := by simpa using hcode
        refine ⟨i, st, hdecode, ?_, ?_⟩
        · rw [hsteps, ← hb.size, Array.getElem?_push_size]
        · rw [← hb.surroundings]
          exact hrenders

/-- Compiles a listing, word after word. -/
def addAll (b : Builder) (code : Listing) : Except CompileError Builder :=
  code.foldlM (fun b x => b.addWord x.2 x.1) b

theorem Translates.addAll {b b' : Builder} {s : Surroundings} {code rest : Listing}
    (hb : b.Translates s code) (h : b.addAll rest = .ok b') : b'.Translates s (code ++ rest) := by
  induction rest generalizing b code with
  | nil =>
    obtain rfl : b = b' := Except.ok.inj h
    rwa [List.append_nil]
  | cons x rest ih =>
    obtain ⟨w, index⟩ := x
    rw [Builder.addAll, List.foldlM_cons] at h
    obtain ⟨b₁, hb₁, h⟩ := bind_eq_ok.1 h
    rw [List.append_cons]
    exact ih (hb.addWord hb₁) h

theorem addWords_eq_addAll (b : Builder) (first : Nat) (ws : List Word) :
    b.addWords first ws = b.addAll (ws.zipIdx first) := by
  induction ws generalizing b first with
  | nil => rfl
  | cons w ws ih =>
    rw [List.zipIdx_cons, addAll, List.foldlM_cons, addWords]
    exact bind_congr fun b' => ih b' (first + 1)

/-! ## Resolving the labels -/

theorem resolve_eq_ok_iff {b : Builder} {request : LabelRequest} {position : Nat} :
    b.resolve request = .ok position ↔ b.position? request.target = some position := by
  rw [resolve]
  cases b.position? request.target <;> simp

theorem place_eq_ok_iff {b : Builder} {request : LabelRequest} {targets targets' : Array Nat} :
    b.place targets request = .ok targets' ↔ ∃ position,
      b.position? request.target = some position ∧
        targets.setIfInBounds request.label position = targets' := by
  rw [place, bind_eq_ok]
  exact exists_congr fun position => and_congr resolve_eq_ok_iff ⟨Except.ok.inj, congrArg Except.ok⟩

/-- Each request is put in a place of its own, and stays there. -/
theorem foldlM_place_eq_ok {b : Builder} {requests : List LabelRequest}
    {targets targets' : Array Nat} (hdistinct : requests.Pairwise fun r r' => r.label ≠ r'.label)
    (hin : ∀ r ∈ requests, r.label < targets.size)
    (h : requests.foldlM b.place targets = .ok targets') :
    targets'.size = targets.size ∧
      (∀ r ∈ requests, ∃ position, targets'[r.label]? = some position ∧
        b.position? r.target = some position) ∧
      ∀ label, (∀ r ∈ requests, r.label ≠ label) → targets'[label]? = targets[label]? := by
  induction requests generalizing targets with
  | nil =>
    obtain rfl : targets = targets' := Except.ok.inj h
    exact ⟨rfl, fun r hr => absurd hr List.not_mem_nil, fun _ _ => rfl⟩
  | cons request requests ih =>
    obtain ⟨hother, hdistinct⟩ := List.pairwise_cons.1 hdistinct
    rw [List.foldlM_cons] at h
    obtain ⟨targets₁, hplace, h⟩ := bind_eq_ok.1 h
    obtain ⟨position, hposition, rfl⟩ := place_eq_ok_iff.1 hplace
    have hsize : (targets.setIfInBounds request.label position).size = targets.size :=
      Array.size_setIfInBounds
    obtain ⟨hsize', hplaced, hkept⟩ := ih hdistinct
      (fun r hr => by rw [hsize]; exact hin r (List.mem_cons_of_mem request hr)) h
    refine ⟨hsize'.trans hsize, ?_, ?_⟩
    · intro r hr
      rcases List.mem_cons.1 hr with rfl | hr
      · refine ⟨position, ?_, hposition⟩
        rw [hkept r.label fun r' hr' => (hother r' hr').symm,
          Array.getElem?_setIfInBounds_self_of_lt (hin r List.mem_cons_self)]
      · exact hplaced r hr
    · intro label hlabel
      rw [hkept label fun r hr => hlabel r (List.mem_cons_of_mem request hr),
        Array.getElem?_setIfInBounds_ne (hlabel request List.mem_cons_self)]

/-- A finished routine has the steps of the builder, and its labels go where they were bound. -/
theorem Numbered.toRoutine_eq_ok {b : Builder} {entry : Word} {r : Routine} (hb : b.Numbered)
    (h : b.toRoutine entry = .ok r) :
    r.entry = entry ∧ r.steps = b.steps ∧ r.targets.size = b.labels.size ∧
      ∀ {label target : Nat}, b.Labelled label target →
        ∃ position, r.targets[label]? = some position ∧ b.position? target = some position := by
  obtain ⟨targets, htargets, h⟩ := bind_eq_ok.1 h
  obtain rfl : (⟨entry, b.steps, targets⟩ : Routine) = r := Except.ok.inj h
  have hlabel : ∀ {i : Nat} (hi : i < b.labels.toList.length), b.labels.toList[i].label = i :=
    fun hi => hb _ _ (Array.getElem?_eq_getElem (by simpa using hi))
  have hdistinct : b.labels.toList.Pairwise fun r r' => r.label ≠ r'.label := by
    rw [List.pairwise_iff_getElem]
    intro i j hi hj hlt
    rw [hlabel hi, hlabel hj]
    exact Nat.ne_of_lt hlt
  have hin : ∀ r ∈ b.labels.toList, r.label < (Array.replicate b.labels.size 0).size := by
    intro r hr
    obtain ⟨i, hi, rfl⟩ := List.mem_iff_getElem.1 hr
    rw [hlabel hi, Array.size_replicate]
    exact hi
  obtain ⟨hsize, hplaced, -⟩ := foldlM_place_eq_ok hdistinct hin htargets
  refine ⟨rfl, rfl, hsize.trans Array.size_replicate, ?_⟩
  rintro label target ⟨request, hrequest, rfl, rfl⟩
  exact hplaced request (Array.mem_toList_iff.2 hrequest)

/-- The index that is bound to the end of a listing is the only new one. -/
theorem Translates.position_bind {b : Builder} {s : Surroundings} {code : Listing}
    (hb : b.Translates s code) {stop index position : Nat}
    (h : (b.bind stop).position? index = some position) :
    code.Position (some stop) index position := by
  change List.lookup index ((stop, b.steps.size) :: b.bindings) = some position at h
  rw [List.lookup_cons] at h
  by_cases heq : index = stop
  · subst heq
    simp only [BEq.rfl, Option.some.injEq] at h
    exact .inr ⟨rfl, by rw [← h, hb.size]⟩
  · rw [beq_eq_false_iff_ne.2 heq] at h
    exact .inl (hb.position h)

end Builder

end Risc32
