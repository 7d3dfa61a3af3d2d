import Mathlib.Data.List.Induction
import Risc32.Proofs.Compiled.Requests

/-!
# What the cache remembers

The cache of routines is used through two requests: to consider a function, and to forget
everything. This file says what is in it after any sequence of them (`RoutineCache.verdicts_after`).

Memory may be another one at each request, and so may the end of the program, so a second attempt
at a function could well come out differently. That it is never made is what keeps a function from
having both a routine and a failure. The argument is one invariant of the list of verdicts
(`RoutineCache.Coherent`) and one fact about the history, which is that a function has a verdict
exactly if it was asked for after everything was forgotten the last time
(`RoutineCache.verdict?_after_eq_none_iff`).
-/

set_option autoImplicit false

namespace Risc32

variable {entry stop : Word} {m : Memory}

/-- The routine of a function begins at the function. -/
theorem Routine.entry_ofFunction {r : Routine} (h : Routine.ofFunction m entry stop = .ok r) :
    r.entry = entry := by
  rw [ofFunction_eq] at h
  obtain ⟨body, -, hcompile⟩ := bind_eq_ok.1 h
  exact (Listing.compile_eq_ok hcompile).1

/-- What comes of an attempt. -/
def Verdict.ofFunction (m : Memory) (entry stop : Word) : Verdict :=
  match Routine.ofFunction m entry stop with
  | .ok r => .compiled r
  | .error _ => .failed

theorem Verdict.ofFunction_eq_compiled_iff {r : Routine} :
    Verdict.ofFunction m entry stop = .compiled r ↔ Routine.ofFunction m entry stop = .ok r := by
  rw [Verdict.ofFunction]
  cases Routine.ofFunction m entry stop <;> simp

namespace RoutineCache

variable {c : RoutineCache} {v : Verdict}

/-- There is a routine for the function at `entry`. -/
def IsCompiled (c : RoutineCache) (entry : Word) : Prop :=
  ∃ r, (entry, Verdict.compiled r) ∈ c.verdicts

/-- It is known that the function at `entry` cannot be compiled. -/
def HasFailed (c : RoutineCache) (entry : Word) : Prop :=
  (entry, Verdict.failed) ∈ c.verdicts

/-! ## One request -/

theorem consider_of_some (h : c.verdict? entry = some v) (m : Memory) (stop : Word) :
    c.consider entry m stop = c := by
  rw [consider, h]

theorem consider_of_none (h : c.verdict? entry = none) (m : Memory) (stop : Word) :
    c.consider entry m stop = ⟨(entry, Verdict.ofFunction m entry stop) :: c.verdicts⟩ := by
  rw [consider, h, Verdict.ofFunction]
  cases Routine.ofFunction m entry stop <;> rfl

/-- Each function has one verdict, which is the one that is found, and a routine stands where it
begins. -/
structure Coherent (c : RoutineCache) : Prop where
  found : ∀ {entry v}, (entry, v) ∈ c.verdicts → c.verdict? entry = some v
  begins : ∀ {entry r}, (entry, Verdict.compiled r) ∈ c.verdicts → r.entry = entry

theorem coherent_empty : empty.Coherent :=
  ⟨fun h => by simp [empty] at h, fun h => by simp [empty] at h⟩

theorem mem_of_verdict? (h : c.verdict? entry = some v) : (entry, v) ∈ c.verdicts := by
  obtain ⟨before, later, hverdicts, -⟩ := List.lookup_eq_some_iff.1 h
  rw [hverdicts]
  exact List.mem_append_right before List.mem_cons_self

theorem Coherent.mem_iff (hc : c.Coherent) :
    (entry, v) ∈ c.verdicts ↔ c.verdict? entry = some v :=
  ⟨hc.found, mem_of_verdict?⟩

theorem Coherent.isCompiled_iff (hc : c.Coherent) :
    c.IsCompiled entry ↔ ∃ r, c.verdict? entry = some (.compiled r) :=
  exists_congr fun _ => hc.mem_iff

theorem Coherent.hasFailed_iff (hc : c.Coherent) :
    c.HasFailed entry ↔ c.verdict? entry = some .failed :=
  hc.mem_iff

theorem Coherent.consider (hc : c.Coherent) (entry : Word) (m : Memory) (stop : Word) :
    (c.consider entry m stop).Coherent := by
  cases hasked : c.verdict? entry with
  | some v =>
    rw [consider_of_some hasked]
    exact hc
  | none =>
    rw [consider_of_none hasked]
    constructor
    · intro entry' v' hmem
      rw [verdict?]
      rcases List.mem_cons.1 hmem with heq | hmem
      · obtain ⟨rfl, rfl⟩ := Prod.mk.inj heq
        exact List.lookup_cons_self
      · -- Something that was there before is not what was asked for.
        have hfound := hc.found hmem
        have hne : entry' ≠ entry := by
          rintro rfl
          cases hasked.symm.trans hfound
        rw [List.lookup_cons, beq_eq_false_iff_ne.2 hne]
        exact hfound
    · intro entry' r hmem
      rcases List.mem_cons.1 hmem with heq | hmem
      · obtain ⟨rfl, heq⟩ := Prod.mk.inj heq
        exact Routine.entry_ofFunction (Verdict.ofFunction_eq_compiled_iff.1 heq.symm)
      · exact hc.begins hmem

/-- A verdict stands, and a function without one gets the one that memory gives it now. -/
theorem verdict?_consider_self (c : RoutineCache) (entry : Word) (m : Memory) (stop : Word) :
    (c.consider entry m stop).verdict? entry =
      some ((c.verdict? entry).getD (Verdict.ofFunction m entry stop)) := by
  cases hasked : c.verdict? entry with
  | some v => rw [consider_of_some hasked, hasked, Option.getD_some]
  | none => rw [consider_of_none hasked, verdict?, List.lookup_cons_self, Option.getD_none]

theorem verdict?_consider_of_ne (c : RoutineCache) {entry entry' : Word} (hne : entry' ≠ entry)
    (m : Memory) (stop : Word) :
    (c.consider entry m stop).verdict? entry' = c.verdict? entry' := by
  cases hasked : c.verdict? entry with
  | some v => rw [consider_of_some hasked]
  | none => rw [verdict?_consider hasked, if_neg hne]

/-! ## Histories -/

/-- What can be asked of the cache. -/
inductive Request where
  | consider (entry : Word) (m : Memory) (stop : Word)
  | clear

/-- The cache after a request. -/
def Request.perform (c : RoutineCache) : Request → RoutineCache
  | consider entry m stop => c.consider entry m stop
  | clear => empty

/-- The cache after requests, one after the other, of which the first found it empty. -/
def after (history : List Request) : RoutineCache :=
  history.foldl Request.perform empty

theorem after_concat (history : List Request) (r : Request) :
    after (history ++ [r]) = r.perform (after history) := by
  rw [after, List.foldl_append]
  rfl

/-- The function at `entry` was asked for, and nothing was forgotten since. -/
def Requested (history : List Request) (entry : Word) : Prop :=
  ∃ before m stop later, history = before ++ Request.consider entry m stop :: later ∧
    Request.clear ∉ later

theorem not_requested_nil (entry : Word) : ¬Requested [] entry := by
  rintro ⟨before, m, stop, later, h, -⟩
  simp at h

/-- A request is for the function itself, or was made before and not taken back. -/
theorem requested_concat_iff {history : List Request} {r : Request} {entry : Word} :
    Requested (history ++ [r]) entry ↔
      (∃ m stop, r = .consider entry m stop) ∨ (r ≠ .clear ∧ Requested history entry) := by
  constructor
  · rintro ⟨before, m, stop, later, h, hkeeps⟩
    rcases List.eq_nil_or_concat later with rfl | ⟨later, r', rfl⟩
    · obtain ⟨-, hlast⟩ := List.append_inj' h rfl
      exact .inl ⟨m, stop, List.singleton_inj.1 hlast⟩
    · rw [List.concat_eq_append] at h hkeeps
      rw [← List.cons_append, ← List.append_assoc] at h
      obtain ⟨hhistory, hlast⟩ := List.append_inj' h rfl
      obtain rfl := List.singleton_inj.1 hlast
      rw [List.mem_append, List.mem_singleton, not_or] at hkeeps
      exact .inr ⟨Ne.symm hkeeps.2, before, m, stop, later, hhistory, hkeeps.1⟩
  · rintro (⟨m, stop, rfl⟩ | ⟨hne, before, m, stop, later, rfl, hkeeps⟩)
    · exact ⟨history, m, stop, [], rfl, List.not_mem_nil⟩
    · refine ⟨before, m, stop, later ++ [r], by simp, ?_⟩
      simp [hkeeps, hne.symm]

theorem coherent_after (history : List Request) : (after history).Coherent := by
  induction history using List.reverseRecOn with
  | nil => exact coherent_empty
  | append_singleton history r ih =>
    rw [after_concat]
    cases r with
    | consider entry m stop => exact ih.consider entry m stop
    | clear => exact coherent_empty

/-- Whoever was asked for has a verdict, and nobody else. -/
theorem verdict?_after_eq_none_iff {history : List Request} {entry : Word} :
    (after history).verdict? entry = none ↔ ¬Requested history entry := by
  induction history using List.reverseRecOn with
  | nil => exact iff_of_true rfl (not_requested_nil entry)
  | append_singleton history r ih =>
    rw [after_concat]
    rw [requested_concat_iff]
    cases r with
    | consider entry' m stop =>
      rw [Request.perform]
      by_cases h : entry' = entry
      · subst h
        simp [verdict?_consider_self]
      · simp [verdict?_consider_of_ne _ (Ne.symm h), ih, h]
    | clear => exact iff_of_true rfl (by simp)

/-- Nothing but forgetting takes a verdict away. -/
theorem verdict?_after_append {before later : List Request}
    (h : (after before).verdict? entry = some v) (hkeeps : Request.clear ∉ later) :
    (after (before ++ later)).verdict? entry = some v := by
  induction later using List.reverseRecOn with
  | nil => rwa [List.append_nil]
  | append_singleton later r ih =>
    rw [List.mem_append, not_or] at hkeeps
    have hkept := ih hkeeps.1
    rw [← List.append_assoc, after_concat]
    cases r with
    | consider entry' m stop =>
      rw [Request.perform]
      by_cases hentry : entry = entry'
      · subst hentry
        rw [consider_of_some hkept, hkept]
      · rw [verdict?_consider_of_ne _ hentry, hkept]
    | clear => simp at hkeeps

/-- The first request for a function decides, and it is not asked again. -/
theorem verdict?_after_of_first {before later : List Request} (hnever : ¬Requested before entry)
    (hkeeps : Request.clear ∉ later) :
    (after (before ++ .consider entry m stop :: later)).verdict? entry =
      some (Verdict.ofFunction m entry stop) := by
  have hfirst : (after (before ++ [.consider entry m stop])).verdict? entry =
      some (Verdict.ofFunction m entry stop) := by
    rw [after_concat, Request.perform, verdict?_consider_self,
      verdict?_after_eq_none_iff.2 hnever, Option.getD_none]
  have hkept := verdict?_after_append hfirst hkeeps
  rwa [List.append_assoc, List.singleton_append] at hkept

/-- **What the cache remembers.** After any requests, no function has both a routine and a failure;
one that was not asked for has neither, and one that was has one of the two. A routine begins where
its function does. Which it is, and with which routine, the first request has decided from the
memory and the end of the program that it was given, and it stays so until everything is
forgotten. -/
theorem verdicts_after (history : List Request) (entry : Word) :
    let c := after history
    ¬(c.IsCompiled entry ∧ c.HasFailed entry) ∧
      (∀ r, c.routine? entry = some r → r.entry = entry) ∧
      (c.IsCompiled entry ↔ ∃ r, c.routine? entry = some r) ∧
      (Requested history entry → c.IsCompiled entry ∨ c.HasFailed entry) ∧
      (¬Requested history entry → ¬c.IsCompiled entry ∧ ¬c.HasFailed entry) ∧
      ∀ before m stop later, history = before ++ Request.consider entry m stop :: later →
        ¬Requested before entry → Request.clear ∉ later →
          let first := after (before ++ [Request.consider entry m stop])
          (c.IsCompiled entry ↔ first.IsCompiled entry) ∧
            (c.HasFailed entry ↔ first.HasFailed entry) ∧
            c.routine? entry = first.routine? entry ∧
            first.routine? entry = (Routine.ofFunction m entry stop).toOption := by
  intro c
  have hc : c.Coherent := coherent_after history
  have hrequested : c.verdict? entry = none ↔ ¬Requested history entry :=
    verdict?_after_eq_none_iff
  refine ⟨?_, ?_, ?_, ?_, ?_, ?_⟩
  · rw [hc.isCompiled_iff, hc.hasFailed_iff]
    rintro ⟨⟨r, hr⟩, hfailed⟩
    cases hr.symm.trans hfailed
  · exact fun r hr => hc.begins (mem_of_verdict? (routine?_eq_some_iff.1 hr))
  · exact hc.isCompiled_iff.trans (exists_congr fun r => routine?_eq_some_iff.symm)
  · intro hasked
    obtain ⟨v, hv⟩ := Option.ne_none_iff_exists'.1 (mt hrequested.1 (not_not_intro hasked))
    cases v with
    | compiled r => exact .inl ⟨r, mem_of_verdict? hv⟩
    | failed => exact .inr (mem_of_verdict? hv)
  · intro hnever
    rw [hc.isCompiled_iff, hc.hasFailed_iff, hrequested.2 hnever]
    simp
  · rintro before m stop later rfl hnever hkeeps first
    have hcf : first.Coherent := coherent_after _
    have hfirst : first.verdict? entry = some (Verdict.ofFunction m entry stop) :=
      verdict?_after_of_first hnever List.not_mem_nil
    have hnow : c.verdict? entry = first.verdict? entry :=
      (verdict?_after_of_first hnever hkeeps).trans hfirst.symm
    rw [hc.isCompiled_iff, hc.hasFailed_iff, hcf.isCompiled_iff, hcf.hasFailed_iff, routine?,
      routine?, hnow]
    refine ⟨Iff.rfl, Iff.rfl, rfl, ?_⟩
    rw [hfirst, Verdict.ofFunction]
    cases Routine.ofFunction m entry stop <;> rfl

/-- The function at 32 is compiled from a memory that has it, and stays compiled when it is asked
for again in a memory that has nothing. The function at 36 has failed, and what was known of the
one at 8 is forgotten. -/
theorem verdicts_after_countsDown :
    let before := [Request.consider 8 countsDown 44, .clear]
    let later := [Request.consider 36 countsDown 44, .consider 32 (Memory.zero 64) 44]
    let c := after (before ++ .consider 32 countsDown 44 :: later)
    c.IsCompiled 32 ∧ ¬c.HasFailed 32 ∧
      c.routine? 32 = (Routine.ofFunction countsDown 32 44).toOption ∧
      (∀ r, c.routine? 32 = some r → r.entry = 32) ∧
      Routine.ofFunction (Memory.zero 64) 32 44 = .error (.missingReturn 32) ∧
      c.HasFailed 36 ∧ ¬c.IsCompiled 36 ∧ ¬c.IsCompiled 8 ∧ ¬c.HasFailed 8 := by
  intro before later c
  have hnever : ¬Requested before 32 := by
    rw [← verdict?_after_eq_none_iff]
    rfl
  have hkeeps : Request.clear ∉ later := by simp [later]
  obtain ⟨hnotboth, hentry, hcompiled, -, -, hfirst⟩ :=
    verdicts_after (before ++ .consider 32 countsDown 44 :: later) 32
  obtain ⟨-, -, hroutine, hdecided⟩ := hfirst before countsDown 44 later rfl hnever hkeeps
  have hsome : (c.routine? 32).isSome := by decide +kernel
  have hthere : c.IsCompiled 32 := hcompiled.2 (Option.isSome_iff_exists.1 hsome)
  obtain ⟨hnotboth', -, hcompiled', hone', -⟩ :=
    verdicts_after (before ++ .consider 32 countsDown 44 :: later) 36
  have hnone : c.routine? 36 = none := by decide +kernel
  have hmissing : ¬c.IsCompiled 36 := by
    rw [hcompiled']
    rintro ⟨r, hr⟩
    cases hnone.symm.trans hr
  have hasked : Requested (before ++ .consider 32 countsDown 44 :: later) 36 :=
    ⟨before ++ [.consider 32 countsDown 44], countsDown, 44, _, rfl, by simp⟩
  obtain ⟨-, -, -, -, hforgotten, -⟩ :=
    verdicts_after (before ++ .consider 32 countsDown 44 :: later) 8
  obtain ⟨h8, h8'⟩ := hforgotten (verdict?_after_eq_none_iff.1 (by decide +kernel))
  exact ⟨hthere, fun hfailed => hnotboth ⟨hthere, hfailed⟩, hroutine.trans hdecided, hentry,
    by decide +kernel, (hone' hasked).resolve_left hmissing, hmissing, h8, h8'⟩

end RoutineCache

end Risc32
