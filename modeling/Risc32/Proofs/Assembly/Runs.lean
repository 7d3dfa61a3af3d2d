import Mathlib.Data.List.SplitBy
import Mathlib.Data.List.TakeWhile
import Risc32.Assembly.Token

/-!
# Runs of characters

The runs of a text are the longest stretches of characters with some property, in the order in which
they stand. This file has the theory of them that the reading of lines needs. Whether a run ends at
some place is seen from the two characters around it. `runs_append` is the one fact about gaps that
is needed: a text that is cut in a gap has the runs of both parts.

That these are the longest stretches is a statement about places in the text (`IsRun`). There are
exactly as many of them as there are runs, and a run has the characters that stand in its place
(`exists_runPlaces`).
-/

set_option autoImplicit false

namespace Risc32.Assembly

/-- The longest runs of characters that satisfy `p`. -/
def runs (p : Char → Bool) (cs : List Char) : List (List Char) :=
  (cs.splitBy fun c d => p c == p d).filter (·.all p)

/-! ## Texts in parts -/

section

variable {p : Char → Bool} {b : Bool} {cs word gap rest x y : List Char}

/-- What is left of a text whose front is dropped begins otherwise. -/
theorem apart_of_head?_dropWhile (p : Char → Bool) (cs : List Char) :
    ∀ c ∈ (cs.dropWhile p).head?, p c = false := by
  intro c hc
  have hstop := List.head?_dropWhile_not p cs
  rw [Option.mem_def.1 hc] at hstop
  exact hstop

/-- Characters that are alike are not split. -/
theorem splitBy_of_alike (hne : cs ≠ []) (h : ∀ c ∈ cs, p c = b) :
    cs.splitBy (fun c d => p c == p d) = [cs] := by
  apply List.splitBy_of_isChain hne
  apply List.Pairwise.isChain
  apply List.pairwise_of_forall_mem_list
  intro c hc d hd
  rw [h c hc, h d hd, beq_self_eq_true]

theorem runs_of_alike (hne : cs ≠ []) (h : ∀ c ∈ cs, p c = b) :
    runs p cs = if b then [cs] else [] := by
  rw [runs, splitBy_of_alike hne h]
  cases b with
  | true => simpa using h
  | false =>
    obtain ⟨c, cs, rfl⟩ := List.exists_cons_of_ne_nil hne
    simp [h c List.mem_cons_self]

/-- A text can be cut where one character satisfies `p` and the next does not. -/
theorem runs_append_of_ne (h : ∀ c ∈ x.getLast?, ∀ d ∈ y.head?, p c ≠ p d) :
    runs p (x ++ y) = runs p x ++ runs p y := by
  have hsplit := List.splitBy_append (r := fun c d => p c == p d)
    fun c hc d hd => beq_eq_false_iff_ne.2 (h c hc d hd)
  rw [runs, hsplit, List.filter_append]
  rfl

/-- A word that the text does not go on is the first run. -/
theorem runs_word_append (hne : word ≠ []) (hword : ∀ c ∈ word, p c = true)
    (hrest : ∀ c ∈ rest.head?, p c = false) : runs p (word ++ rest) = word :: runs p rest := by
  rw [runs_append_of_ne, runs_of_alike hne hword]
  · rfl
  · intro c hc d hd
    rw [hword c (List.mem_of_mem_getLast? hc), hrest d hd]
    exact Bool.false_ne_true.symm

theorem runs_of_gap (hgap : ∀ c ∈ gap, p c = false) : runs p gap = [] := by
  cases gap with
  | nil => rfl
  | cons c cs => rw [runs_of_alike (List.cons_ne_nil c cs) hgap, if_neg Bool.false_ne_true]

/-- A text is a gap, which may be empty, and a text that begins with a word. -/
theorem exists_front (p : Char → Bool) (x : List Char) :
    ∃ gap rest, x = gap ++ rest ∧ (∀ c ∈ gap, p c = false) ∧ ∀ c ∈ rest.head?, p c = true := by
  induction x with
  | nil => exact ⟨[], [], rfl, by simp, by simp⟩
  | cons c x ih =>
    cases hc : p c with
    | true => exact ⟨[], c :: x, rfl, by simp, by simpa using hc⟩
    | false =>
      obtain ⟨gap, rest, rfl, hgap, hrest⟩ := ih
      exact ⟨c :: gap, rest, rfl, List.forall_mem_cons.2 ⟨hc, hgap⟩, hrest⟩

/-- The same from the other end. -/
theorem exists_back (p : Char → Bool) (x : List Char) :
    ∃ rest gap, x = rest ++ gap ∧ (∀ c ∈ gap, p c = false) ∧ ∀ c ∈ rest.getLast?, p c = true := by
  obtain ⟨gap, rest, hx, hgap, hrest⟩ := exists_front p x.reverse
  refine ⟨rest.reverse, gap.reverse, ?_, ?_, ?_⟩
  · rw [← List.reverse_append, ← hx, List.reverse_reverse]
  · exact fun c hc => hgap c (List.mem_reverse.1 hc)
  · rwa [List.getLast?_reverse]

/-- A gap at the beginning has no runs, and takes none away. -/
theorem runs_gap_append (hgap : ∀ c ∈ gap, p c = false) (y : List Char) :
    runs p (gap ++ y) = runs p y := by
  -- All characters in front of the first word are one gap.
  obtain ⟨front, word, rfl, hfront, hword⟩ := exists_front p y
  have hcut : ∀ {gap : List Char}, (∀ c ∈ gap, p c = false) →
      runs p (gap ++ word) = runs p word := by
    intro gap hgap
    rw [runs_append_of_ne, runs_of_gap hgap, List.nil_append]
    intro c hc d hd
    rw [hgap c (List.mem_of_mem_getLast? hc), hword d hd]
    exact Bool.false_ne_true
  rw [← List.append_assoc, hcut (List.forall_mem_append.2 ⟨hgap, hfront⟩), hcut hfront]

/-- **Runs of a text with a gap** are those in front of the gap and those behind it. -/
theorem runs_append (hne : gap ≠ []) (hgap : ∀ c ∈ gap, p c = false) (x y : List Char) :
    runs p (x ++ (gap ++ y)) = runs p x ++ runs p y := by
  -- What is in front of the gap may end in one.
  obtain ⟨word, back, rfl, hback, hword⟩ := exists_back p x
  have hcut : ∀ {gap : List Char} (y : List Char), gap ≠ [] → (∀ c ∈ gap, p c = false) →
      runs p (word ++ (gap ++ y)) = runs p word ++ runs p y := by
    intro gap y hne hgap
    rw [runs_append_of_ne, runs_gap_append hgap]
    intro c hc d hd
    rw [List.head?_append_of_ne_nil _ hne] at hd
    rw [hword c hc, hgap d (List.mem_of_mem_head? hd)]
    exact Bool.false_ne_true.symm
  have hx : runs p (word ++ back) = runs p word := by
    by_cases hnil : back = []
    · rw [hnil, List.append_nil]
    · have hempty : runs p [] = [] := rfl
      rw [← List.append_nil back, hcut [] hnil hback, hempty, List.append_nil]
  rw [hx, List.append_assoc, ← List.append_assoc back]
  exact hcut y (List.append_ne_nil_of_right_ne_nil back hne)
    (List.forall_mem_append.2 ⟨hback, hgap⟩)

theorem runs_append_gap (hgap : ∀ c ∈ gap, p c = false) (x : List Char) :
    runs p (x ++ gap) = runs p x := by
  by_cases hne : gap = []
  · rw [hne, List.append_nil]
  · have hempty : runs p [] = [] := rfl
    rw [← List.append_nil gap, runs_append hne hgap, hempty, List.append_nil]

end

/-! ## Words at the front -/

section

variable {p : Char → Bool} {cs word rest : List Char}

/-- What is read at the front of a text is a word that the rest does not go on. -/
theorem word?_eq_some (h : word? p cs = some (word, rest)) :
    cs = word ++ rest ∧ word ≠ [] ∧ (∀ c ∈ word, p c = true) ∧ ∀ c ∈ rest.head?, p c = false := by
  unfold word? at h
  split at h
  · cases h
  · next hne =>
    obtain ⟨rfl, rfl⟩ := Prod.mk.inj (Option.some.inj h)
    exact ⟨List.takeWhile_append_dropWhile.symm, hne, fun c hc => List.mem_takeWhile_imp hc,
      apart_of_head?_dropWhile p cs⟩

theorem word?_eq_none (h : word? p cs = none) : ∀ c ∈ cs.head?, p c = false := by
  unfold word? at h
  split at h
  · next hnil =>
    cases cs with
    | nil => simp
    | cons c cs =>
      rw [List.takeWhile_cons] at hnil
      cases hc : p c with
      | true => simp [hc] at hnil
      | false => simpa using hc
  · cases h

end

/-! ## Places of runs -/

/-- The characters from place `i` up to place `j` are a longest stretch: there is one, all of them
satisfy `p`, and neither the one in front of them nor the one behind them does. -/
structure IsRun (p : Char → Bool) (cs : List Char) (i j : Nat) : Prop where
  nonempty : i < j
  le_length : j ≤ cs.length
  inside : ∀ k, i ≤ k → k < j → ∀ c ∈ cs[k]?, p c = true
  front : ∀ k, k + 1 = i → ∀ c ∈ cs[k]?, p c = false
  back : ∀ c ∈ cs[j]?, p c = false

/-- The places of all longest stretches of a text, from left to right. Between one and the next
there is something else. -/
structure RunPlaces (p : Char → Bool) (cs : List Char) (spans : List (Nat × Nat)) : Prop where
  sorted : spans.Pairwise fun s s' => s.2 < s'.1
  mem_iff : ∀ i j, (i, j) ∈ spans ↔ IsRun p cs i j

/-- A place seen from the beginning of a text that is longer by `n` characters. -/
def moved (n : Nat) (s : Nat × Nat) : Nat × Nat :=
  (n + s.1, n + s.2)

theorem mem_map_moved_iff {n i j : Nat} {spans : List (Nat × Nat)} :
    (i, j) ∈ spans.map (moved n) ↔ ∃ i' j', i = n + i' ∧ j = n + j' ∧ (i', j') ∈ spans := by
  simp only [List.mem_map, Prod.exists, moved, Prod.mk.injEq]
  constructor
  · rintro ⟨i', j', hmem, rfl, rfl⟩
    exact ⟨i', j', rfl, rfl, hmem⟩
  · rintro ⟨i', j', rfl, rfl, hmem⟩
    exact ⟨i', j', hmem, rfl, rfl⟩

theorem pairwise_map_moved {spans : List (Nat × Nat)} (n : Nat)
    (h : spans.Pairwise fun s s' => s.2 < s'.1) :
    (spans.map (moved n)).Pairwise fun s s' => s.2 < s'.1 :=
  List.Pairwise.map _ (fun _ _ hlt => Nat.add_lt_add_left hlt n) h

theorem extract_moved (before cs : List Char) (s : Nat × Nat) :
    (before ++ cs).extract (moved before.length s).1 (moved before.length s).2 =
      cs.extract s.1 s.2 := by
  simp only [moved, List.extract]
  rw [Nat.add_sub_add_left, List.drop_append, Nat.add_sub_cancel_left,
    List.drop_eq_nil_of_le (Nat.le_add_right _ _), List.nil_append]

section

variable {p : Char → Bool} {before gap word rest cs : List Char} {i j : Nat}
  {spans : List (Nat × Nat)}

theorem getElem?_behind (before cs : List Char) (k : Nat) :
    (before ++ cs)[before.length + k]? = cs[k]? := by
  rw [List.getElem?_append_right (Nat.le_add_right _ _), Nat.add_sub_cancel_left]

namespace IsRun

/-- A place has a character, which satisfies `p`. -/
theorem exists_inside (h : IsRun p cs i j) {k : Nat} (hfrom : i ≤ k) (hto : k < j) :
    ∃ c, cs[k]? = some c ∧ p c = true := by
  have hk := List.getElem?_eq_getElem (Nat.lt_of_lt_of_le hto h.le_length)
  exact ⟨_, hk, h.inside k hfrom hto _ hk⟩

/-- What is in front of a text takes no longest stretch away, unless it goes on into the text. -/
theorem append (h : IsRun p cs i j)
    (hcut : 0 < i ∨ ∀ k, k + 1 = before.length → ∀ c ∈ before[k]?, p c = false) :
    IsRun p (before ++ cs) (before.length + i) (before.length + j) := by
  have hnonempty := h.nonempty
  have hlength := h.le_length
  refine ⟨by omega, by rw [List.length_append]; omega, ?_, ?_, ?_⟩
  · intro k hfrom hto c hc
    obtain ⟨k, rfl⟩ := Nat.exists_eq_add_of_le (Nat.le_trans (Nat.le_add_right _ _) hfrom)
    rw [getElem?_behind] at hc
    exact h.inside k (by omega) (by omega) c hc
  · intro k hk c hc
    cases i with
    | zero =>
      rw [List.getElem?_append_left (by omega)] at hc
      exact hcut.resolve_left (Nat.lt_irrefl 0) k hk c hc
    | succ i =>
      obtain rfl : k = before.length + i := by omega
      rw [getElem?_behind] at hc
      exact h.front i rfl c hc
  · rw [getElem?_behind]
    exact h.back

/-- A longest stretch that lies behind the front of a text is one of what follows. -/
theorem of_append (h : IsRun p (before ++ cs) (before.length + i) (before.length + j)) :
    IsRun p cs i j := by
  have hnonempty := h.nonempty
  have hlength := h.le_length
  rw [List.length_append] at hlength
  refine ⟨by omega, by omega, ?_, ?_, ?_⟩
  · intro k hfrom hto c hc
    exact h.inside (before.length + k) (by omega) (by omega) c (by rwa [getElem?_behind])
  · intro k hk c hc
    exact h.front (before.length + k) (by omega) c (by rwa [getElem?_behind])
  · intro c hc
    exact h.back c (by rwa [getElem?_behind])

/-- No longest stretch begins at a character that does not satisfy `p`. -/
theorem pos_of_head? (h : IsRun p cs i j) (hhead : ∀ c ∈ cs.head?, p c = false) : 0 < i := by
  by_contra hzero
  obtain rfl : i = 0 := by omega
  obtain ⟨c, hc, hin⟩ := h.exists_inside (Nat.le_refl 0) h.nonempty
  rw [← List.head?_eq_getElem?] at hc
  cases hin.symm.trans (hhead c hc)

/-- A longest stretch lies behind a gap. -/
theorem le_of_gap (h : IsRun p (gap ++ cs) i j) (hgap : ∀ c ∈ gap, p c = false) :
    gap.length ≤ i := by
  by_contra hlt
  obtain ⟨c, hc, hin⟩ := h.exists_inside (Nat.le_refl i) h.nonempty
  rw [List.getElem?_append_left (Nat.lt_of_not_le hlt)] at hc
  cases hin.symm.trans (hgap c (List.mem_of_getElem? hc))

/-- It is the word in front, or lies behind it. -/
theorem eq_or_le_of_word (h : IsRun p (word ++ cs) i j) (hword : ∀ c ∈ word, p c = true)
    (hhead : ∀ c ∈ cs.head?, p c = false) : i = 0 ∧ j = word.length ∨ word.length ≤ i := by
  have hnonempty := h.nonempty
  have hin : ∀ k < word.length, ∃ c, (word ++ cs)[k]? = some c ∧ p c = true := by
    intro k hk
    rw [List.getElem?_append_left hk]
    exact ⟨_, List.getElem?_eq_getElem hk, hword _ (List.getElem_mem hk)⟩
  by_contra hneither
  obtain rfl : i = 0 := by
    by_contra hmiddle
    obtain ⟨c, hc, hp⟩ := hin (i - 1) (by omega)
    cases (h.front (i - 1) (by omega) c hc).symm.trans hp
  -- It begins with the word, so it can end neither before the word does nor behind that.
  rcases Nat.lt_trichotomy j word.length with hshort | heq | hlong
  · obtain ⟨c, hc, hp⟩ := hin j hshort
    cases (h.back c hc).symm.trans hp
  · exact hneither (.inl ⟨rfl, heq⟩)
  · obtain ⟨c, hc, hp⟩ := h.exists_inside (Nat.zero_le word.length) hlong
    have hfirst := getElem?_behind word cs 0
    rw [Nat.add_zero, hc, ← List.head?_eq_getElem?] at hfirst
    cases hp.symm.trans (hhead c hfirst.symm)

/-- A word that the text does not go on is a longest stretch. -/
theorem of_word (hne : word ≠ []) (hword : ∀ c ∈ word, p c = true)
    (hhead : ∀ c ∈ cs.head?, p c = false) : IsRun p (word ++ cs) 0 word.length := by
  refine ⟨List.length_pos_iff.2 hne, by rw [List.length_append]; omega, ?_, ?_, ?_⟩
  · intro k _ hto c hc
    rw [List.getElem?_append_left hto] at hc
    exact hword c (List.mem_of_getElem? hc)
  · intro k hk
    omega
  · have hfirst := getElem?_behind word cs 0
    rw [Nat.add_zero, ← List.head?_eq_getElem?] at hfirst
    rwa [hfirst]

end IsRun

namespace RunPlaces

theorem of_gap (hgap : ∀ c ∈ gap, p c = false) : RunPlaces p gap [] := by
  refine ⟨List.Pairwise.nil, fun i j => iff_of_false List.not_mem_nil ?_⟩
  intro h
  have hle := h.le_length
  rw [← List.append_nil gap] at h
  have hstart := h.le_of_gap hgap
  have hnonempty := h.nonempty
  omega

theorem gap_append (h : RunPlaces p cs spans) (hgap : ∀ c ∈ gap, p c = false) :
    RunPlaces p (gap ++ cs) (spans.map (moved gap.length)) := by
  refine ⟨pairwise_map_moved _ h.sorted, ?_⟩
  intro i j
  rw [mem_map_moved_iff]
  constructor
  · rintro ⟨i, j, rfl, rfl, hmem⟩
    refine ((h.mem_iff i j).1 hmem).append (.inr ?_)
    exact fun k _ c hc => hgap c (List.mem_of_getElem? hc)
  · intro hrun
    obtain ⟨i, rfl⟩ := Nat.exists_eq_add_of_le (hrun.le_of_gap hgap)
    obtain ⟨j, rfl⟩ := Nat.exists_eq_add_of_le
      (Nat.le_trans (Nat.le_add_right _ _) (Nat.le_of_lt hrun.nonempty))
    exact ⟨i, j, rfl, rfl, (h.mem_iff i j).2 hrun.of_append⟩

theorem word_append (h : RunPlaces p cs spans) (hne : word ≠ []) (hword : ∀ c ∈ word, p c = true)
    (hhead : ∀ c ∈ cs.head?, p c = false) :
    RunPlaces p (word ++ cs) ((0, word.length) :: spans.map (moved word.length)) := by
  refine ⟨List.pairwise_cons.2 ⟨?_, pairwise_map_moved _ h.sorted⟩, ?_⟩
  · rintro ⟨_, _⟩ hlater
    obtain ⟨i, j, rfl, rfl, hmem⟩ := mem_map_moved_iff.1 hlater
    have hpositive := ((h.mem_iff i j).1 hmem).pos_of_head? hhead
    exact Nat.lt_add_of_pos_right hpositive
  · intro i j
    rw [List.mem_cons, mem_map_moved_iff, Prod.mk.injEq]
    constructor
    · rintro (⟨rfl, rfl⟩ | ⟨i, j, rfl, rfl, hmem⟩)
      · exact IsRun.of_word hne hword hhead
      · have hrun := (h.mem_iff i j).1 hmem
        exact hrun.append (.inl (hrun.pos_of_head? hhead))
    · intro hrun
      rcases hrun.eq_or_le_of_word hword hhead with heq | hle
      · exact .inl heq
      · obtain ⟨i, rfl⟩ := Nat.exists_eq_add_of_le hle
        obtain ⟨j, rfl⟩ := Nat.exists_eq_add_of_le (Nat.le_trans hle (Nat.le_of_lt hrun.nonempty))
        exact .inr ⟨i, j, rfl, rfl, (h.mem_iff i j).2 hrun.of_append⟩

end RunPlaces

/-- **The runs are the longest stretches.** Each of them stands in a place of its own, and there is
a run for every place. -/
theorem exists_runPlaces (p : Char → Bool) (cs : List Char) :
    ∃ spans, RunPlaces p cs spans ∧ runs p cs = spans.map fun s => cs.extract s.1 s.2 := by
  induction hn : cs.length using Nat.strong_induction_on generalizing cs with
  | _ n ih =>
    obtain ⟨gap, behind, rfl, hgap, hbehind⟩ := exists_front p cs
    cases hfirst : word? p behind with
    | none =>
      -- Nothing is behind the gap.
      have hnil : behind = [] := by
        cases behind with
        | nil => rfl
        | cons c behind => cases (hbehind c rfl).symm.trans (word?_eq_none hfirst c rfl)
      rw [hnil, List.append_nil]
      exact ⟨[], RunPlaces.of_gap hgap, runs_of_gap hgap⟩
    | some found =>
      obtain ⟨word, rest⟩ := found
      obtain ⟨rfl, hne, hword, hrest⟩ := word?_eq_some hfirst
      have hpositive := List.length_pos_iff.2 hne
      rw [List.length_append, List.length_append] at hn
      obtain ⟨spans, hspans, hruns⟩ := ih rest.length (by omega) rest rfl
      refine ⟨_, (hspans.word_append hne hword hrest).gap_append hgap, ?_⟩
      rw [runs_gap_append hgap, runs_word_append hne hword hrest, hruns, List.map_map]
      simp only [Function.comp_def, extract_moved, List.map_cons, List.map_map]
      simp [List.extract]

end

end Risc32.Assembly
