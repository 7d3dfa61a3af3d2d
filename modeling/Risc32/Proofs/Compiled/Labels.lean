import Mathlib.Data.Finset.Card
import Mathlib.Data.List.Induction
import Risc32.Proofs.Compiled.Acceptance

/-!
# What labels stand for

A builder is used through four calls, which can come in any order: labels are asked for in front of
the index they stand for and behind it, and an index can be bound again. This file says what a
history of calls amounts to (`Builder.labels_after`), in terms of the history alone. The steps are
those that were pushed (`pushed`), a label was given to whoever asked for its index (`Given`), and
an index has the position of its last binding (`LastBound`).

One invariant relates the builder to its history (`Builder.Tracks`). In it the labels are a list of
targets without repetition. The number of a label is its place in this list, so two labels are the
same exactly if their targets are, and the numbers have no gap.
-/

set_option autoImplicit false

namespace Risc32

/-- Something is at a place of a longer list if it is the new element, or was there before. -/
theorem split_concat_iff {α : Type} {history : List α} {last : α}
    {P : List α → α → List α → Prop} :
    (∃ before c later, history ++ [last] = before ++ c :: later ∧ P before c later) ↔
      P history last [] ∨
        ∃ before c later, history = before ++ c :: later ∧ P before c (later ++ [last]) := by
  constructor
  · rintro ⟨before, c, later, h, hP⟩
    rcases List.eq_nil_or_concat later with rfl | ⟨later, c', rfl⟩
    · obtain ⟨rfl, hlast⟩ := List.append_inj' h rfl
      rw [List.singleton_inj.1 hlast]
      exact .inl hP
    · rw [List.concat_eq_append] at h hP
      rw [← List.cons_append, ← List.append_assoc] at h
      obtain ⟨rfl, hlast⟩ := List.append_inj' h rfl
      rw [← List.singleton_inj.1 hlast] at hP
      exact .inr ⟨before, c, later, rfl, hP⟩
  · rintro (hP | ⟨before, c, later, rfl, hP⟩)
    · exact ⟨history, last, [], rfl, hP⟩
    · exact ⟨before, c, later ++ [last], by simp, hP⟩

namespace Builder

/-! ## Histories -/

/-- What can be asked of the builder while code is added. -/
inductive Call where
  | enter (index : Nat)
  | bind (index : Nat)
  | push (step : Step)
  | labelFor (target : Int)

/-- The builder after a call. A label that is refused changes nothing. -/
def Call.perform (b : Builder) : Call → Builder
  | enter index => b.enter index
  | bind index => b.bind index
  | push step => b.push step
  | labelFor target =>
    match b.labelFor target with
    | .ok (_, b') => b'
    | .error _ => b

/-- The call gives the index the position of the next step. -/
def Call.Binds (c : Call) (index : Nat) : Prop :=
  c = .enter index ∨ c = .bind index

/-- The builder after calls, one after the other, of which the first found it new. -/
def after (s : Surroundings) (history : List Call) : Builder :=
  history.foldl Call.perform (new s.base s.exit s.linkage)

/-- The step that the call pushes. -/
def Call.step? : Call → Option Step
  | push step => some step
  | _ => none

/-- The index that the call asks a label for. There are none in front of the code. -/
def Call.target? : Call → Option Nat
  | labelFor (.ofNat target) => some target
  | _ => none

/-- The steps that were pushed. -/
def pushed (history : List Call) : List Step :=
  history.filterMap Call.step?

/-- The indices that labels were asked for. -/
def targets (history : List Call) : List Nat :=
  history.filterMap Call.target?

/-- A call of the history asked for the target and was given the label. -/
def Given (s : Surroundings) (history : List Call) (target : Int) (label : Nat) : Prop :=
  ∃ before c later, history = before ++ c :: later ∧ c = .labelFor target ∧
    ∃ b, (after s before).labelFor target = .ok (label, b)

/-- The index was bound at some time. -/
def Bound (history : List Call) (index : Nat) : Prop :=
  ∃ c ∈ history, c.Binds index

/-- So many steps had been pushed when the index was bound for the last time. -/
def LastBound (history : List Call) (index position : Nat) : Prop :=
  ∃ before c later, history = before ++ c :: later ∧ c.Binds index ∧
    (∀ c' ∈ later, ¬c'.Binds index) ∧ position = (pushed before).length

section

variable {s : Surroundings} {history : List Call} {c : Call} {target : Int}
  {label index position : Nat}

theorem after_concat (s : Surroundings) (history : List Call) (c : Call) :
    after s (history ++ [c]) = c.perform (after s history) := by
  rw [after, List.foldl_append]
  rfl

theorem given_concat_iff :
    Given s (history ++ [c]) target label ↔
      (c = .labelFor target ∧ ∃ b, (after s history).labelFor target = .ok (label, b)) ∨
        Given s history target label :=
  split_concat_iff

theorem lastBound_concat_iff :
    LastBound (history ++ [c]) index position ↔
      (c.Binds index ∧ position = (pushed history).length) ∨
        (¬c.Binds index ∧ LastBound history index position) := by
  rw [LastBound, split_concat_iff]
  refine or_congr (by simp) ?_
  constructor
  · rintro ⟨before, c', later, rfl, hbinds, hlater, rfl⟩
    obtain ⟨hlater, hc⟩ := List.forall_mem_append.1 hlater
    exact ⟨hc c List.mem_cons_self, before, c', later, rfl, hbinds, hlater, rfl⟩
  · rintro ⟨hc, before, c', later, rfl, hbinds, hlater, rfl⟩
    refine ⟨before, c', later, rfl, hbinds, ?_, rfl⟩
    exact List.forall_mem_append.2 ⟨hlater, List.forall_mem_singleton.2 hc⟩

/-- An index that was bound has one last binding. -/
theorem bound_iff_exists_lastBound :
    Bound history index ↔ ∃ position, LastBound history index position := by
  induction history using List.reverseRecOn with
  | nil =>
    refine iff_of_false (by simp [Bound]) ?_
    rintro ⟨position, before, c, later, h, -⟩
    simp at h
  | append_singleton history c ih =>
    have hconcat : Bound (history ++ [c]) index ↔ Bound history index ∨ c.Binds index := by
      simp only [Bound, List.mem_append, List.mem_singleton, or_and_right, exists_or,
        exists_eq_left]
    rw [hconcat, ih]
    simp only [lastBound_concat_iff]
    by_cases hc : c.Binds index
    · exact iff_of_true (.inr hc) ⟨_, .inl ⟨hc, rfl⟩⟩
    · simp [hc]

/-- No position lies behind the last step. -/
theorem LastBound.le (h : LastBound history index position) :
    position ≤ (pushed history).length := by
  obtain ⟨before, c, later, rfl, -, -, rfl⟩ := h
  rw [pushed, pushed, List.filterMap_append, List.length_append]
  exact Nat.le_add_right _ _

end

/-! ## Calls -/

section

variable {b : Builder} {c : Call} {label n : Nat}

/-- The targets that have labels, in the order of these. -/
def labelTargets (b : Builder) : List Nat :=
  b.labels.toList.map (·.target)

theorem Numbered.labelled_iff (hb : b.Numbered) {target : Nat} :
    b.Labelled label target ↔ b.labelTargets[label]? = some target := by
  rw [labelTargets, List.getElem?_map, Array.getElem?_toList, Option.map_eq_some_iff]
  constructor
  · rintro ⟨r, hr, rfl, htarget⟩
    obtain ⟨i, hi⟩ := Array.getElem?_of_mem hr
    rw [hb i r hi]
    exact ⟨r, hi, htarget⟩
  · rintro ⟨r, hr, htarget⟩
    exact ⟨r, Array.mem_of_getElem? hr, hb label r hr, htarget⟩

/-- A request for an index that has a label changes nothing, and any other one is put at the end. -/
theorem perform_labelFor_cases (b : Builder) (n : Nat) :
    (n ∈ b.labelTargets ∧ (Call.labelFor n).perform b = b) ∨
      (n ∉ b.labelTargets ∧ (Call.labelFor n).perform b =
        { b with labels := b.labels.push ⟨n, b.labels.size, b.index⟩ }) := by
  rw [Call.perform]
  rcases labelFor_cases b n with ⟨r, hr, htarget, hold⟩ | ⟨hfresh, hnew⟩
  · rw [hold]
    exact .inl ⟨List.mem_map.2 ⟨r, Array.mem_toList_iff.2 hr, htarget⟩, rfl⟩
  · rw [hnew]
    refine .inr ⟨?_, rfl⟩
    intro hmem
    obtain ⟨r, hr, htarget⟩ := List.mem_map.1 hmem
    exact hfresh r (Array.mem_toList_iff.1 hr) htarget

theorem labelTargets_perform (b : Builder) (c : Call) :
    (c.perform b).labelTargets =
      match c.target? with
      | some n => if n ∈ b.labelTargets then b.labelTargets else b.labelTargets ++ [n]
      | none => b.labelTargets := by
  cases c with
  | enter index => rfl
  | bind index => rfl
  | push step => rfl
  | labelFor target =>
    cases target with
    | negSucc k => rfl
    | ofNat n =>
      simp only [Call.target?, Int.ofNat_eq_natCast]
      rcases perform_labelFor_cases b n with ⟨hmem, hold⟩ | ⟨hfresh, hnew⟩
      · rw [if_pos hmem, hold]
      · rw [if_neg hfresh, hnew]
        simp [labelTargets]

theorem steps_perform (b : Builder) (c : Call) :
    (c.perform b).steps.toList = b.steps.toList ++ c.step?.toList := by
  cases c with
  | enter index => simp [Call.perform, Call.step?, enter, bind]
  | bind index => simp [Call.perform, Call.step?, bind]
  | push step => simp [Call.perform, Call.step?, push]
  | labelFor target =>
    have hsame : ((Call.labelFor target).perform b).steps = b.steps := by
      cases target with
      | negSucc k => rfl
      | ofNat n =>
        rcases perform_labelFor_cases b n with ⟨-, hold⟩ | ⟨-, hnew⟩
        · rw [Int.ofNat_eq_natCast, hold]
        · rw [Int.ofNat_eq_natCast, hnew]
    simp [hsame, Call.step?]

theorem bindings_perform_labelFor (b : Builder) (target : Int) :
    ((Call.labelFor target).perform b).bindings = b.bindings := by
  cases target with
  | negSucc k => rfl
  | ofNat n =>
    rcases perform_labelFor_cases b n with ⟨-, hold⟩ | ⟨-, hnew⟩
    · rw [Int.ofNat_eq_natCast, hold]
    · rw [Int.ofNat_eq_natCast, hnew]

/-- What is bound gets the position of the next step. -/
theorem position?_perform_of_binds (h : c.Binds n) :
    (c.perform b).position? n = some b.steps.size := by
  rcases h with rfl | rfl
  · exact List.lookup_cons_self
  · exact List.lookup_cons_self

theorem position?_perform_of_not_binds (h : ¬c.Binds n) :
    (c.perform b).position? n = b.position? n := by
  rw [Call.Binds, not_or] at h
  cases c with
  | enter index =>
    have hne : n ≠ index := fun heq => h.1 (heq ▸ rfl)
    simp [Call.perform, position?, enter, bind, List.lookup_cons, beq_eq_false_iff_ne.2 hne]
  | bind index =>
    have hne : n ≠ index := fun heq => h.2 (heq ▸ rfl)
    simp [Call.perform, position?, bind, List.lookup_cons, beq_eq_false_iff_ne.2 hne]
  | push step => rfl
  | labelFor target => rw [position?, bindings_perform_labelFor, position?]

theorem Numbered.perform (hb : b.Numbered) (c : Call) : (c.perform b).Numbered := by
  cases c with
  | enter index => exact hb
  | bind index => exact hb
  | push step => exact hb
  | labelFor target =>
    cases target with
    | negSucc k => exact hb
    | ofNat n =>
      rcases perform_labelFor_cases b n with ⟨-, hold⟩ | ⟨-, hnew⟩
      · rw [Int.ofNat_eq_natCast, hold]
        exact hb
      · rw [Int.ofNat_eq_natCast, hnew]
        exact hb.push n b.index

/-- A label of the builder after a call was there before, or the call asked for it. -/
theorem labelled_perform_iff :
    (c.perform b).Labelled label n ↔
      (c = .labelFor n ∧ ∃ b', b.labelFor n = .ok (label, b')) ∨ b.Labelled label n := by
  cases c with
  | enter index => simp [Call.perform, Labelled, enter, bind]
  | bind index => simp [Call.perform, Labelled, bind]
  | push step => simp [Call.perform, Labelled, push]
  | labelFor target =>
    rw [Call.labelFor.injEq]
    cases target with
    | negSucc k => simp [Call.perform, labelFor_negSucc]
    | ofNat m =>
      rw [Int.ofNat_eq_natCast, Int.natCast_inj, Call.perform]
      rcases labelFor_cases b m with ⟨r, hr, htarget, hold⟩ | ⟨-, hnew⟩
      · rw [hold]
        refine (or_iff_right_of_imp ?_).symm
        rintro ⟨rfl, b', hb'⟩
        cases hold.symm.trans hb'
        exact ⟨r, hr, rfl, htarget⟩
      · rw [hnew, labelled_push_iff, or_comm]
        refine or_congr_left ⟨?_, ?_⟩
        · rintro ⟨rfl, rfl⟩
          exact ⟨rfl, _, hnew⟩
        · rintro ⟨rfl, b', hb'⟩
          cases hnew.symm.trans hb'
          exact ⟨rfl, rfl⟩

end

/-! ## The invariant -/

/-- What the builder has of its history. -/
structure Tracks (b : Builder) (history : List Call) : Prop where
  numbered : b.Numbered
  distinct : b.labelTargets.Nodup
  mem_targets : ∀ index, index ∈ b.labelTargets ↔ index ∈ targets history
  steps : b.steps.toList = pushed history
  position : ∀ index position, b.position? index = some position ↔
    LastBound history index position

namespace Tracks

variable {b : Builder} {history : List Call}

theorem of_new (s : Surroundings) : (new s.base s.exit s.linkage).Tracks [] where
  numbered := numbered_new s.base s.exit s.linkage
  distinct := List.nodup_nil
  mem_targets _ := Iff.rfl
  steps := rfl
  position index position := by
    refine iff_of_false (by simp [new, position?]) ?_
    rintro ⟨before, c, later, h, -⟩
    simp at h

theorem perform (h : b.Tracks history) (c : Call) : (c.perform b).Tracks (history ++ [c]) := by
  refine ⟨h.numbered.perform c, ?_, ?_, ?_, ?_⟩
  · rw [labelTargets_perform]
    split
    · split
      · exact h.distinct
      · next hfresh =>
        rw [← List.concat_eq_append]
        exact h.distinct.concat hfresh
    · exact h.distinct
  · intro index
    have htargets : index ∈ targets (history ++ [c]) ↔
        index ∈ targets history ∨ c.target? = some index := by
      rw [targets, targets, List.filterMap_append, List.mem_append]
      simp
    rw [htargets, ← h.mem_targets, labelTargets_perform]
    cases c.target? with
    | none => simp
    | some n =>
      rw [Option.some.injEq]
      by_cases hmem : n ∈ b.labelTargets
      · simp only [if_pos hmem]
        exact (or_iff_left_of_imp fun heq => heq ▸ hmem).symm
      · simp only [if_neg hmem, List.mem_append, List.mem_singleton, eq_comm]
  · rw [steps_perform, h.steps, pushed, pushed, List.filterMap_append]
    cases hstep : c.step? <;> simp [hstep]
  · intro index position
    rw [lastBound_concat_iff]
    by_cases hc : c.Binds index
    · have hsize : b.steps.size = (pushed history).length := by
        rw [← h.steps, Array.length_toList]
      rw [position?_perform_of_binds hc, hsize]
      simp [hc, eq_comm]
    · rw [position?_perform_of_not_binds hc, h.position]
      simp [hc]

theorem of_after (s : Surroundings) (history : List Call) : (after s history).Tracks history := by
  induction history using List.reverseRecOn with
  | nil => exact of_new s
  | append_singleton history c ih =>
    rw [after_concat]
    exact ih.perform c

end Tracks

/-! ## Labels of a history -/

section

variable {s : Surroundings} {history : List Call} {target : Int} {label index : Nat}

/-- The labels that were given are those that the builder has in the end. -/
theorem given_iff :
    Given s history target label ↔ ∃ n : Nat, target = n ∧ (after s history).Labelled label n := by
  induction history using List.reverseRecOn with
  | nil =>
    refine iff_of_false ?_ ?_
    · rintro ⟨before, c, later, h, -⟩
      simp at h
    · rintro ⟨n, -, r, hr, -⟩
      simp [after, new] at hr
  | append_singleton history c ih =>
    rw [given_concat_iff, ih, after_concat]
    simp only [labelled_perform_iff]
    constructor
    · rintro (⟨rfl, b, hb⟩ | ⟨n, rfl, h⟩)
      · obtain ⟨n, rfl, -⟩ := labelFor_eq_ok hb
        exact ⟨n, rfl, .inl ⟨rfl, b, hb⟩⟩
      · exact ⟨n, rfl, .inr h⟩
    · rintro ⟨n, rfl, h | h⟩
      · exact .inl h
      · exact .inr ⟨n, rfl, h⟩

/-- A label is the place of its target among the targets that have labels. -/
theorem given_iff_getElem? :
    Given s history target label ↔
      ∃ n : Nat, target = n ∧ (after s history).labelTargets[label]? = some n := by
  rw [given_iff]
  exact exists_congr fun n => and_congr_right fun _ =>
    (Tracks.of_after s history).numbered.labelled_iff

theorem length_labelTargets_after (s : Surroundings) (history : List Call) :
    (after s history).labelTargets.length = (targets history).toFinset.card := by
  have htracks := Tracks.of_after s history
  rw [← List.toFinset_card_of_nodup htracks.distinct]
  congr 1
  ext index
  rw [List.mem_toFinset, List.mem_toFinset, htracks.mem_targets]

theorem Given.eq_iff {target' : Int} {label' : Nat} (h : Given s history target label)
    (h' : Given s history target' label') : label = label' ↔ target = target' := by
  obtain ⟨i, rfl, hi⟩ := given_iff_getElem?.1 h
  obtain ⟨i', rfl, hi'⟩ := given_iff_getElem?.1 h'
  rw [Int.natCast_inj]
  constructor
  · rintro rfl
    exact Option.some.inj (hi.symm.trans hi')
  · rintro rfl
    have hlt := (List.getElem?_eq_some_iff.1 hi).1
    exact (List.getElem?_inj hlt (Tracks.of_after s history).distinct).1 (hi.trans hi'.symm)

theorem exists_target_given_iff :
    (∃ target, Given s history target label) ↔ label < (targets history).toFinset.card := by
  rw [← length_labelTargets_after s]
  constructor
  · rintro ⟨target, h⟩
    obtain ⟨i, -, hi⟩ := given_iff_getElem?.1 h
    exact (List.getElem?_eq_some_iff.1 hi).1
  · intro hlt
    exact ⟨_, given_iff_getElem?.2 ⟨_, rfl, List.getElem?_eq_getElem hlt⟩⟩

theorem exists_label_given_iff :
    (∃ label, Given s history target label) ↔ ∃ index ∈ targets history, target = index := by
  simp only [given_iff_getElem?, ← (Tracks.of_after s history).mem_targets]
  constructor
  · rintro ⟨label, i, rfl, hi⟩
    exact ⟨i, List.mem_of_getElem? hi, rfl⟩
  · rintro ⟨i, hi, rfl⟩
    obtain ⟨label, hlabel⟩ := List.getElem?_of_mem hi
    exact ⟨label, i, rfl, hlabel⟩

/-- A target in front of the code is refused, and the builder stays as it is. -/
theorem labelFor_of_neg (b : Builder) (h : target < 0) :
    b.labelFor target = .error (.unresolvedBranch b.index target) ∧
      (Call.labelFor target).perform b = b := by
  obtain ⟨k, rfl⟩ := Int.eq_negSucc_of_lt_zero h
  exact ⟨labelFor_negSucc b k, rfl⟩

theorem exists_toRoutine_after_iff (entry : Word) :
    (∃ r, (after s history).toRoutine entry = .ok r) ↔
      ∀ index ∈ targets history, Bound history index := by
  have htracks := Tracks.of_after s history
  rw [exists_toRoutine_iff]
  simp only [← htracks.mem_targets, bound_iff_exists_lastBound, ← htracks.position,
    ← Option.isSome_iff_exists]
  simp [LabelsWithin, labelTargets]

theorem toRoutine_after {entry : Word} {r : Routine}
    (h : (after s history).toRoutine entry = .ok r) :
    r.entry = entry ∧ r.steps.toList = pushed history ∧
      r.targets.size = (targets history).toFinset.card ∧
      ∀ target label, Given s history target label →
        ∃ index position, target = (index : Nat) ∧ r.targets[label]? = some position ∧
          LastBound history index position ∧ position ≤ r.steps.size := by
  have htracks := Tracks.of_after s history
  obtain ⟨hentry, hsteps, hsize, hlabels⟩ := htracks.numbered.toRoutine_eq_ok h
  have hpushed : r.steps.toList = pushed history := by rw [hsteps, htracks.steps]
  refine ⟨hentry, hpushed, ?_, ?_⟩
  · rw [hsize, ← length_labelTargets_after s, labelTargets, List.length_map, Array.length_toList]
  · intro target label hgiven
    obtain ⟨i, rfl, hi⟩ := given_iff.1 hgiven
    obtain ⟨position, htarget, hposition⟩ := hlabels hi
    have hlast := (htracks.position i position).1 hposition
    refine ⟨i, position, rfl, htarget, hlast, ?_⟩
    rw [← Array.length_toList, hpushed]
    exact hlast.le

end

/-- **What labels stand for.** After any calls, two labels that were given are the same exactly if
they were asked for one target, and the labels are numbered from zero up to how many targets there
are. All targets got labels, except those in front of the code, which are refused. The routine can
be finished exactly if each target was bound at some time. Then it has the steps that were pushed,
its table has one entry for each target, and this is the position of the last binding. -/
theorem labels_after (s : Surroundings) (history : List Call) (entry : Word) :
    let b := after s history
    let n := (targets history).toFinset.card
    (∀ target label target' label', Given s history target label →
      Given s history target' label' → (label = label' ↔ target = target')) ∧
      (∀ label, (∃ target, Given s history target label) ↔ label < n) ∧
      (∀ target : Int, (∃ label, Given s history target label) ↔
        ∃ index ∈ targets history, target = index) ∧
      (∀ target : Int, target < 0 →
        b.labelFor target = .error (.unresolvedBranch b.index target) ∧
          (Call.labelFor target).perform b = b) ∧
      ((∃ r, b.toRoutine entry = .ok r) ↔ ∀ index ∈ targets history, Bound history index) ∧
      ∀ r, b.toRoutine entry = .ok r →
        r.entry = entry ∧ r.steps.toList = pushed history ∧ r.targets.size = n ∧
          ∀ target label, Given s history target label →
            ∃ index position, target = (index : Nat) ∧ r.targets[label]? = some position ∧
              LastBound history index position ∧ position ≤ r.steps.size := by
  intro b n
  exact ⟨fun _ _ _ _ h h' => h.eq_iff h', fun _ => exists_target_given_iff,
    fun _ => exists_label_given_iff, fun _ => labelFor_of_neg b, exists_toRoutine_after_iff entry,
    fun _ => toRoutine_after⟩

/-- Index 2 has its label before it is bound, and index 0, which is bound twice, only afterwards.
Nothing comes of the request for a place in front of the code. -/
theorem labels_after_forward_and_back :
    let s : Surroundings := ⟨0, .toCaller, .none⟩
    let history : List Call :=
      [.enter 0, .labelFor 2, .push (.branch .equal 0 0 0), .labelFor (-1), .enter 1, .labelFor 0,
        .labelFor 2, .push (.branch .equal 0 0 1), .enter 2, .push (.transfer .leave), .bind 0]
    Given s history 2 0 ∧ Given s history 0 1 ∧ (∀ label, ¬Given s history (-1) label) ∧
      (∀ index ∈ targets history, Bound history index) ∧
      ∃ r, (after s history).toRoutine 0 = .ok r ∧ r.targets = #[2, 3] ∧
        r.targets.size = (targets history).toFinset.card ∧ ∃ position,
          r.targets[1]? = some position ∧ LastBound history 0 position ∧
          position ≤ r.steps.size := by
  intro s history
  obtain ⟨-, -, hgiven, -, hfinished, hroutine⟩ := labels_after s history 0
  have hforward : Given s history 2 0 := ⟨[.enter 0], _, _, rfl, rfl, _, rfl⟩
  have hback : Given s history 0 1 := ⟨history.take 5, _, _, rfl, rfl, _, rfl⟩
  have hfinish : ((after s history).toRoutine 0).toOption.any fun r =>
      decide (r.targets = #[2, 3]) := by decide +kernel
  obtain ⟨r, hr, htargets⟩ := any_toOption hfinish
  obtain ⟨-, -, hsize, hlabels⟩ := hroutine r hr
  obtain ⟨index, position, hindex, htarget, hlast, hle⟩ := hlabels 0 1 hback
  obtain rfl : index = 0 := by omega
  refine ⟨hforward, hback, ?_, hfinished.1 ⟨r, hr⟩, r, hr, of_decide_eq_true htargets, hsize,
    position, htarget, hlast, hle⟩
  intro label h
  obtain ⟨index, -, hneg⟩ := (hgiven (-1)).1 ⟨label, h⟩
  omega

end Builder

end Risc32
