import Risc32.Proofs.Compiled.OnDemand

/-!
# Which functions are compiled on demand

A function that the machine asks for is compiled, or it has failed for good. Which of the two is
decided in two places. Memory is read up to a return, and what was read is compiled like any other
listing. Put together this is a condition on memory alone (`Memory.Compilable`), which is what a
request decides (`RoutineCache.consider_iff`).

A branch may go to the return and not past it. The index behind the return has no position even if
more words follow in memory, and the index in front of the entry is no index at all.
-/

set_option autoImplicit false

namespace Risc32

namespace Memory

variable {m : Memory} {entry stop : Word} {n : Nat} {body : List Word}

/-- Some words, read one after the other. -/
def wordsFrom (m : Memory) (start n : Nat) : List Word :=
  (List.range n).map fun k => m.wordAt (start + 4 * k)

theorem length_wordsFrom (m : Memory) (start n : Nat) : (m.wordsFrom start n).length = n := by
  rw [wordsFrom, List.length_map, List.length_range]

theorem getElem?_wordsFrom {start k : Nat} (hk : k < n) :
    (m.wordsFrom start n)[k]? = some (m.wordAt (start + 4 * k)) := by
  rw [wordsFrom, List.getElem?_map, List.getElem?_range hk]
  rfl

/-- The function at `entry` has `n` instructions. They lie below `stop` and inside of memory, and
the last one is the first return. -/
structure HasFunction (m : Memory) (entry stop : Word) (n : Nat) : Prop where
  aligned : entry.toNat % 4 = 0
  nonempty : 1 ≤ n
  below : ∀ k < n, entry.toNat + 4 * k < stop.toNat
  inside : ∀ k < n, entry.toNat + 4 * k + 4 ≤ m.size
  returns : ∀ k < n,
    (Instruction.decode (m.wordAt (entry.toNat + 4 * k))).any (·.isReturn) ↔ k + 1 = n

/-- A word that was read stands in memory, at a multiple of four. -/
theorem wordAt_of_readWord {site : Site} {address : Nat} {w : Word}
    (haddress : (BitVec.ofNat 32 address).toNat = address)
    (h : m.readWord site (BitVec.ofNat 32 address) = .ok w) :
    address % 4 = 0 ∧ address + 4 ≤ m.size ∧ m.wordAt address = w := by
  have haligned := aligned_of_readWord h
  rw [readWord_eq, if_pos haligned, haddress] at h
  rw [Word.aligned_ofNat_iff] at haligned
  split at h
  · next hinside => exact ⟨haligned, hinside, Except.ok.inj h⟩
  · cases h

/-- The words of a function are what is read in search of a return. -/
theorem hasFunction_of_functionAt (h : m.functionAt entry stop = .ok body) :
    m.HasFunction entry stop body.length ∧ body = m.wordsFrom entry.toNat body.length := by
  rw [functionAt] at h
  split at h
  · next found hfound =>
    obtain rfl := Except.ok.inj h
    obtain ⟨hne, hwords⟩ := wordsToReturn?_eq_some hfound
    have hpos : 0 < found.length := List.length_pos_iff.2 hne
    have hbelow : ∀ k < found.length, entry.toNat + 4 * k < stop.toNat := by
      intro k hk
      obtain ⟨hcount, -⟩ := hwords (List.getElem?_eq_getElem hk)
      omega
    have hread : ∀ k (hk : k < found.length), (entry.toNat + 4 * k) % 4 = 0 ∧
        entry.toNat + 4 * k + 4 ≤ m.size ∧ m.wordAt (entry.toNat + 4 * k) = found[k] := by
      intro k hk
      obtain ⟨-, hword, -⟩ := hwords (List.getElem?_eq_getElem hk)
      -- Below the end of the program an address does not wrap around.
      refine wordAt_of_readWord ?_ hword
      rw [BitVec.toNat_ofNat, Nat.mod_eq_of_lt (Nat.lt_trans (hbelow k hk) stop.isLt)]
    refine ⟨⟨(hread 0 hpos).1, hpos, hbelow, fun k hk => (hread k hk).2.1, ?_⟩, ?_⟩
    · intro k hk
      rw [(hread k hk).2.2]
      exact (hwords (List.getElem?_eq_getElem hk)).2.2
    · refine List.ext_getElem (length_wordsFrom m _ _).symm fun k hk hk' => ?_
      rw [← Option.some.injEq, ← List.getElem?_eq_getElem hk', getElem?_wordsFrom hk,
        (hread k hk).2.2]
  · cases h

/-- If there is a function, the search for a return finds it. -/
theorem HasFunction.functionAt (h : m.HasFunction entry stop n) :
    m.functionAt entry stop = .ok (m.wordsFrom entry.toNat n) := by
  obtain ⟨n, rfl⟩ := Nat.exists_eq_succ_of_ne_zero (Nat.ne_of_gt h.nonempty)
  have hlast : n < n + 1 := Nat.lt_succ_self n
  have hbelow := h.below n hlast
  have hsplit : m.wordsFrom entry.toNat (n + 1) =
      m.wordsFrom entry.toNat n ++ [m.wordAt (entry.toNat + 4 * n)] := by
    rw [wordsFrom, List.range_succ, List.map_append]
    rfl
  have hstays : ∀ w ∈ m.wordsFrom entry.toNat n,
      (Instruction.decode w).any (·.isReturn) = false := by
    intro w hw
    obtain ⟨k, hk, rfl⟩ := List.mem_map.1 hw
    have hlt : k < n := List.mem_range.1 hk
    rw [← Bool.not_eq_true, h.returns k (Nat.lt_succ_of_lt hlt)]
    omega
  have hholds : m.Holds entry.toNat (m.wordsFrom entry.toNat n ++
      [m.wordAt (entry.toNat + 4 * n)]) := by
    rw [← hsplit]
    intro k w hw
    have hk : k < n + 1 := by
      simpa [length_wordsFrom] using (List.getElem?_eq_some_iff.1 hw).1
    rw [getElem?_wordsFrom hk] at hw
    exact ⟨h.inside k hk, Option.some.inj hw⟩
  have hstop := stop.isLt
  rw [Memory.functionAt, hsplit, wordsToReturn?_of_holds ((h.returns n hlast).2 rfl) hstays
    h.aligned (by rw [length_wordsFrom]; omega) (by rw [length_wordsFrom]; omega) hholds]

/-- There is at most one function at an address. -/
theorem HasFunction.unique {n' : Nat} (h : m.HasFunction entry stop n)
    (h' : m.HasFunction entry stop n') : n = n' := by
  have heq := Except.ok.inj (h.functionAt.symm.trans h'.functionAt)
  simpa [length_wordsFrom] using congrArg List.length heq

/-- The function at `entry` has `n` instructions, and it can be compiled. It calls nothing, and its
branches to whole instructions stay inside of it. -/
structure Compilable (m : Memory) (entry stop : Word) (n : Nat) : Prop
    extends m.HasFunction entry stop n where
  accepted : ∀ k < n, ∃ i, Instruction.decode (m.wordAt (entry.toNat + 4 * k)) = some i ∧
    i.isCall = false ∧ i.isCallRegister = false ∧
    ∀ target, i.branchTarget? k = some target → 0 ≤ target ∧ target < n

end Memory

namespace Routine

variable {m : Memory} {entry stop : Word}

/-- Where no call is linked, an instruction of a function needs this much. -/
theorem accepts_iff {body : List Word} {index : Nat} {i : Instruction} (hi : i.Handled) :
    (Surroundings.mk entry .toInterpreter .none).Accepts (Listing.Binds body.zipIdx none) index i ↔
      i.isCall = false ∧ i.isCallRegister = false ∧
        ∀ target, i.branchTarget? index = some target → 0 ≤ target ∧ target < body.length := by
  have hbinds : ∀ target : Int, (∃ n : Nat, target = n ∧ Listing.Binds body.zipIdx none n) ↔
      0 ≤ target ∧ target < body.length := by
    intro target
    constructor
    · rintro ⟨n, rfl, hn⟩
      have := Listing.binds_zipIdx_iff.1 hn
      omega
    · rintro ⟨hnonneg, hlt⟩
      exact ⟨target.toNat, by omega, Listing.binds_zipIdx_iff.2 (by omega)⟩
  constructor
  · intro h
    refine ⟨?_, h.callRegister, fun target ht => (hbinds target).1 (h.branch target ht)⟩
    cases i with
    | jump op f =>
      obtain ⟨functions, systemCalls, hlinkage, -⟩ := h.call op f rfl
      cases hlinkage
    | _ => rfl
  · rintro ⟨hcall, hcallRegister, hbranch⟩
    refine ⟨hcallRegister, ?_, fun target ht => (hbinds target).2 (hbranch target ht)⟩
    rintro op f rfl
    cases hi with
    | call role =>
      cases op <;> simp [Opcode.role, Instruction.isCall] at role hcall

/-- A function is compiled if it can be, and then it has a step for each instruction. -/
theorem exists_ofFunction_iff {n : Nat} :
    (∃ r, ofFunction m entry stop = .ok r ∧ r.entry = entry ∧ r.size = n) ↔
      m.Compilable entry stop n := by
  constructor
  · rintro ⟨r, h, -, rfl⟩
    rw [ofFunction_eq] at h
    obtain ⟨body, hbody, h⟩ := bind_eq_ok.1 h
    have hresolves := (Listing.compile_eq_ok h).2
    have hsize : r.size = body.length := hresolves.size.trans List.length_zipIdx
    obtain ⟨hfunction, hwords⟩ := Memory.hasFunction_of_functionAt hbody
    rw [hsize]
    refine ⟨hfunction, ?_⟩
    intro k hk
    have hword : body[k]? = some (m.wordAt (entry.toNat + 4 * k)) := by
      rw [hwords]
      exact Memory.getElem?_wordsFrom hk
    obtain ⟨i, hi, haccepts⟩ :=
      hresolves.accepts (Listing.mem_zipIdx_iff.2 ⟨Nat.zero_le k, hword⟩)
    exact ⟨i, hi, (accepts_iff (Instruction.handled_of_decode hi)).1 haccepts⟩
  · intro h
    have hlength := m.length_wordsFrom entry.toNat n
    obtain ⟨r, hr⟩ : ∃ r, Listing.compile (m.wordsFrom entry.toNat n).zipIdx
        ⟨entry, .toInterpreter, .none⟩ none entry = .ok r := by
      refine (Listing.exists_compile_iff entry).2 fun w k hmem => ?_
      have hw := (Listing.mem_zipIdx_iff.1 hmem).2
      have hk : k < n := hlength ▸ (List.getElem?_eq_some_iff.1 hw).1
      rw [Nat.sub_zero, Memory.getElem?_wordsFrom hk] at hw
      obtain rfl := Option.some.inj hw
      obtain ⟨i, hi, hrest⟩ := h.accepted k hk
      refine ⟨i, hi, (accepts_iff (Instruction.handled_of_decode hi)).2 ?_⟩
      rw [hlength]
      exact hrest
    obtain ⟨hentry, hresolves⟩ := Listing.compile_eq_ok hr
    refine ⟨r, ?_, hentry, ?_⟩
    · rw [ofFunction_eq]
      exact bind_eq_ok.2 ⟨_, h.functionAt, hr⟩
    · rw [hresolves.size, List.length_zipIdx, hlength]

end Routine

/-! ## Requests -/

namespace RoutineCache

theorem verdict?_consider {c : RoutineCache} {entry : Word} (h : c.verdict? entry = none)
    (m : Memory) (stop entry' : Word) :
    (c.consider entry m stop).verdict? entry' =
      if entry' = entry then
        match Routine.ofFunction m entry stop with
        | .ok r => some (.compiled r)
        | .error _ => some .failed
      else c.verdict? entry' := by
  have hcons : ∀ v, verdict? ⟨(entry, v) :: c.verdicts⟩ entry' =
      if entry' = entry then some v else c.verdict? entry' := by
    intro v
    rw [verdict?, List.lookup_cons, verdict?]
    by_cases heq : entry' = entry
    · simp [heq]
    · simp [heq, beq_eq_false_iff_ne.2 heq]
  rw [consider]
  simp only [h]
  cases Routine.ofFunction m entry stop with
  | ok r => exact hcons _
  | error reason => exact hcons _

/-- **What a request decides.** A function that has not been asked for before is compiled exactly if
memory has it in a form that can be compiled, and has failed otherwise. The routine begins at the
entry and has a step for each instruction. What is known of other functions stays. -/
theorem consider_iff {c : RoutineCache} {entry : Word} (h : c.verdict? entry = none) (m : Memory)
    (stop : Word) :
    ((∃ r, (c.consider entry m stop).verdict? entry = some (.compiled r)) ↔
      ∃ n, m.Compilable entry stop n) ∧
    ((c.consider entry m stop).verdict? entry = some .failed ↔ ¬∃ n, m.Compilable entry stop n) ∧
    (∀ r, (c.consider entry m stop).verdict? entry = some (.compiled r) →
      r.entry = entry ∧ ∀ n, m.Compilable entry stop n ↔ n = r.size) ∧
    ∀ entry' ≠ entry, (c.consider entry m stop).verdict? entry' = c.verdict? entry' := by
  have hverdict := verdict?_consider h m stop
  have hentry := hverdict entry
  rw [if_pos rfl] at hentry
  have hothers : ∀ entry' ≠ entry,
      (c.consider entry m stop).verdict? entry' = c.verdict? entry' :=
    fun entry' hne => (hverdict entry').trans (if_neg hne)
  cases hfunction : Routine.ofFunction m entry stop with
  | ok r =>
    rw [hfunction] at hentry
    have hentry' : r.entry = entry := by
      rw [Routine.ofFunction_eq] at hfunction
      obtain ⟨body, -, hcompile⟩ := bind_eq_ok.1 hfunction
      exact (Listing.compile_eq_ok hcompile).1
    have hcompilable : m.Compilable entry stop r.size :=
      Routine.exists_ofFunction_iff.1 ⟨r, hfunction, hentry', rfl⟩
    refine ⟨⟨fun _ => ⟨_, hcompilable⟩, fun _ => ⟨r, hentry⟩⟩, ⟨?_, ?_⟩, ?_, hothers⟩
    · rw [hentry]
      rintro ⟨⟩
    · exact fun hnone => absurd ⟨_, hcompilable⟩ hnone
    · intro r' hr'
      obtain rfl : r = r' := by simpa using hentry.symm.trans hr'
      refine ⟨hentry', fun n => ⟨?_, ?_⟩⟩
      · exact fun hn => hn.unique hcompilable.toHasFunction
      · rintro rfl
        exact hcompilable
  | error reason =>
    rw [hfunction] at hentry
    have hnone : ¬∃ n, m.Compilable entry stop n := by
      rintro ⟨n, hn⟩
      obtain ⟨r, hr, -⟩ := Routine.exists_ofFunction_iff.2 hn
      cases hfunction.symm.trans hr
    refine ⟨⟨?_, fun hn => absurd hn hnone⟩, ⟨fun _ => hnone, fun _ => hentry⟩, ?_, hothers⟩
    · rintro ⟨r, hr⟩
      cases hentry.symm.trans hr
    · intro r hr
      cases hentry.symm.trans hr

/-- A function at address 32 that counts down, with a branch back to its entry. -/
def countsDown : Memory :=
  (Memory.zero 64).putBytes 32 <| [
    Instruction.ofImmediate .addi 1 1 (-1),
    Instruction.ofImmediate .bne 1 0 (-8),
    Instruction.ofRegisters .ret 31 0 0].flatMap fun i => Word.bytes i.encode

/-- The function at 32 is compiled. There is none at 36, for there the branch would go in front of
the entry, and a second request finds that without touching what the first one found. -/
theorem consider_iff_countsDown :
    let c := empty.consider 32 countsDown 44
    let c' := c.consider 36 countsDown 44
    countsDown.Compilable 32 44 3 ∧
      (∃ r, c.verdict? 32 = some (.compiled r) ∧ r.entry = 32 ∧ r.size = 3) ∧
      c.verdict? 36 = none ∧ (¬∃ n, countsDown.Compilable 36 44 n) ∧
      c'.verdict? 36 = some .failed ∧ c'.verdict? 32 = c.verdict? 32 := by
  intro c c'
  have hasked : c.verdict? 36 = none := by decide +kernel
  have hcompiled : (c.routine? 32).any fun r => decide (r.size = 3) := by decide +kernel
  have hfailed : c'.verdict? 36 = some .failed := by decide +kernel
  obtain ⟨r, hr, hsize⟩ := (Option.any_eq_true _ _).1 hcompiled
  have hr : c.verdict? 32 = some (.compiled r) := routine?_eq_some_iff.1 hr
  have hsize : r.size = 3 := of_decide_eq_true hsize
  obtain ⟨-, -, hroutine, -⟩ := consider_iff (rfl : empty.verdict? 32 = none) countsDown 44
  obtain ⟨-, hfails, -, hothers⟩ := consider_iff hasked countsDown 44
  obtain ⟨hentry, hcompilable⟩ := hroutine r hr
  exact ⟨(hcompilable 3).2 hsize.symm, ⟨r, hr, hentry, hsize⟩, hasked, hfails.1 hfailed, hfailed,
    hothers 32 (by decide)⟩

end RoutineCache

end Risc32
