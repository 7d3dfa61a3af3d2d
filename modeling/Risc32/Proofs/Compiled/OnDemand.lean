import Risc32.Compiled.OnDemand
import Risc32.Proofs.Compiled.Acceptance
import Risc32.Proofs.Memory.Contents

/-!
# The routine of a function in memory

A function that is compiled on demand is read from memory, so the routine is as good as memory is
the same later on. Two facts make that precise. Only the bytes below the end of the program matter
(`Routine.ofFunction_congr`), and as long as they stand, every step renders the word that the
interpreter would fetch (`Routine.ofFunction_realizes`).
-/

set_option autoImplicit false

namespace Risc32

namespace Memory

/-- Whoever reads a word, it is the same word. -/
theorem readWord_site {m : Memory} {site : Site} {address w : Word}
    (h : m.readWord site address = .ok w) (site' : Site) : m.readWord site' address = .ok w := by
  rw [readWord_eq] at h ⊢
  split at h
  · next ha =>
    rw [if_pos ha]
    split at h
    · next hr => rw [if_pos hr, h]
    · cases h
  · cases h

theorem aligned_of_readWord {m : Memory} {site : Site} {address w : Word}
    (h : m.readWord site address = .ok w) : Word.Aligned address := by
  rw [readWord_eq] at h
  split at h
  · assumption
  · cases h

/-! ## The words of a function -/

/-- The body of the function at `entry`: words below `stop`, of which the last is a return. -/
structure Body (m : Memory) (entry stop : Word) (body : List Word) : Prop where
  nonempty : body ≠ []
  word : ∀ {i : Nat} {w : Word}, body[i]? = some w → codeAddress entry i < stop ∧
    ∀ site, m.readWord site (codeAddress entry i) = .ok w
  continues : ∀ {i : Nat} {w : Word}, body[i]? = some w →
    (Instruction.decode w).any (·.isReturn) = false → i + 1 < body.length

/-- The entry of a function that can be read is a multiple of four. -/
theorem Body.aligned {m : Memory} {entry stop : Word} {body : List Word}
    (h : m.Body entry stop body) : Word.Aligned entry := by
  have hpos : 0 < body.length := List.length_pos_iff.2 h.nonempty
  have hread := (h.word (List.getElem?_eq_getElem hpos)).2 ⟨"", 0⟩
  rw [codeAddress_zero] at hread
  exact aligned_of_readWord hread

/-- The words up to a return, read one after the other from `address` on. The return is the last of
them. -/
theorem wordsToReturn?_eq_some {m : Memory} {count address : Nat} {body : List Word}
    (h : m.wordsToReturn? count address = some body) :
    body ≠ [] ∧ ∀ {i : Nat} {w : Word}, body[i]? = some w →
      i < count ∧
      m.readWord ⟨"compile", BitVec.ofNat 32 (address + 4 * i)⟩
        (BitVec.ofNat 32 (address + 4 * i)) = .ok w ∧
      ((Instruction.decode w).any (·.isReturn) ↔ i + 1 = body.length) := by
  induction count generalizing address body with
  | zero => simp [wordsToReturn?] at h
  | succ count ih =>
    rw [wordsToReturn?] at h
    cases hread : m.readWord ⟨"compile", BitVec.ofNat 32 address⟩ (BitVec.ofNat 32 address) with
    | error reason => simp [hread] at h
    | ok w₀ =>
      simp only [hread] at h
      split at h
      · -- A return ends the function, so the word is the only one.
        next hreturn =>
        obtain rfl := Option.some.inj h
        refine ⟨by simp, ?_⟩
        intro i w hw
        obtain ⟨rfl, rfl⟩ : i = 0 ∧ w₀ = w := by
          cases i with
          | zero => simpa using hw
          | succ i => simp at hw
        exact ⟨Nat.succ_pos count, by simpa using hread, by simp [hreturn]⟩
      · next hstays =>
        obtain ⟨rest, hrest, rfl⟩ := Option.map_eq_some_iff.1 h
        obtain ⟨hne, hwords⟩ := ih hrest
        refine ⟨by simp, ?_⟩
        intro i w hw
        cases i with
        | zero =>
          obtain rfl : w₀ = w := by simpa using hw
          exact ⟨Nat.succ_pos count, by simpa using hread, by simpa [hstays] using hne⟩
        | succ i =>
          obtain ⟨hlt, hword, hlast⟩ := hwords (by simpa using hw)
          rw [show address + 4 + 4 * i = address + 4 * (i + 1) by omega] at hword
          exact ⟨by omega, hword, by simpa using hlast⟩

/-- Words of which the last is the only return are found by looking for a return. -/
theorem wordsToReturn?_of_holds {m : Memory} {last : Word}
    (hlast : (Instruction.decode last).any (·.isReturn)) {body : List Word}
    (hbody : ∀ w ∈ body, (Instruction.decode w).any (·.isReturn) = false) {address count : Nat}
    (haligned : address % 4 = 0) (hend : address + 4 * body.length ≤ 0xFFFFFFFF)
    (hcount : body.length < count) (h : m.Holds address (body ++ [last])) :
    m.wordsToReturn? count address = some (body ++ [last]) := by
  induction body generalizing address count with
  | nil =>
    obtain ⟨count, rfl⟩ := Nat.exists_eq_succ_of_ne_zero (Nat.ne_of_gt hcount)
    have hread := h.head haligned (by rw [BitVec.toNat_ofNat]; omega)
    rw [wordsToReturn?]
    simp [hread, hlast]
  | cons w body ih =>
    rw [List.length_cons] at hend hcount
    obtain ⟨count, rfl⟩ := Nat.exists_eq_succ_of_ne_zero (Nat.ne_of_gt (Nat.zero_lt_of_lt hcount))
    have hfirst : (Instruction.decode w).any (·.isReturn) = false := hbody w List.mem_cons_self
    have hread := h.head haligned (by rw [BitVec.toNat_ofNat]; omega)
    have hrest : m.wordsToReturn? count (address + 4) = some (body ++ [last]) :=
      ih (fun w' hw' => hbody w' (List.mem_cons_of_mem w hw')) (by omega) (by omega) (by omega)
        h.tail
    rw [wordsToReturn?]
    simp [hread, hfirst, hrest]

theorem functionAt_eq_ok {m : Memory} {entry stop : Word} {body : List Word}
    (h : m.functionAt entry stop = .ok body) : m.Body entry stop body := by
  rw [functionAt] at h
  split at h
  · next found hfound =>
    obtain rfl := Except.ok.inj h
    obtain ⟨hne, hwords⟩ := wordsToReturn?_eq_some hfound
    have haddress : ∀ i, BitVec.ofNat 32 (entry.toNat + 4 * i) = codeAddress entry i := by
      intro i
      rw [codeAddress, BitVec.ofNat_add, BitVec.ofNat_toNat, BitVec.setWidth_eq]
    constructor
    · exact hne
    · intro i w hw
      obtain ⟨hlt, hread, -⟩ := hwords hw
      rw [haddress] at hread
      refine ⟨?_, readWord_site hread⟩
      rw [← haddress, BitVec.lt_def, BitVec.toNat_ofNat]
      omega
    · intro i w hw hstays
      have hlt := (List.getElem?_eq_some_iff.1 hw).1
      have hnotlast : i + 1 ≠ found.length := by
        rw [Ne, ← (hwords hw).2.2, hstays]
        exact Bool.false_ne_true
      omega
  · cases h

/-! ## Only the program matters -/

theorem wordsToReturn?_congr {m m' : Memory} {n : Nat} (h : SameBelow n m m') (hn : n ≤ m.size)
    (hmul : n % 4 = 0) (count : Nat) {address : Nat}
    (hcount : count = 0 ∨ address + 4 * count < n + 4) :
    m'.wordsToReturn? count address = m.wordsToReturn? count address := by
  induction count generalizing address with
  | zero => rfl
  | succ count ih =>
    have hlt : (BitVec.ofNat 32 address).toNat < n := by
      rw [BitVec.toNat_ofNat]
      omega
    rw [wordsToReturn?, wordsToReturn?, h.readWord_eq hn hmul _ hlt, ih (by omega)]

end Memory

/-- The routine of a function depends on the bytes below the end of the program only. -/
theorem Routine.ofFunction_congr {m m' : Memory} {stop : Word}
    (h : Memory.SameBelow stop.toNat m m') (hsize : stop.toNat ≤ m.size)
    (hmul : stop.toNat % 4 = 0) (entry : Word) :
    Routine.ofFunction m' entry stop = Routine.ofFunction m entry stop := by
  have hcount : (stop.toNat - entry.toNat + 3) / 4 = 0 ∨
      entry.toNat + 4 * ((stop.toNat - entry.toNat + 3) / 4) < stop.toNat + 4 := by omega
  rw [Routine.ofFunction, Routine.ofFunction, Memory.functionAt, Memory.functionAt,
    Memory.wordsToReturn?_congr h hsize hmul _ hcount]

/-- A function that is compiled on demand is a listing that begins with index zero and that no call
is linked in. -/
theorem Routine.ofFunction_eq (m : Memory) (entry stop : Word) :
    ofFunction m entry stop = m.functionAt entry stop >>= fun body =>
      Listing.compile body.zipIdx ⟨entry, .toInterpreter, .none⟩ none entry := by
  rw [ofFunction]
  refine bind_congr fun body => ?_
  rw [Builder.addWords_eq_addAll, Listing.compile_none]

/-- The routine of a function renders its body. -/
theorem Routine.ofFunction_realizes {m : Memory} {entry stop : Word} {r : Routine}
    (h : Routine.ofFunction m entry stop = .ok r) :
    ∃ body, m.Body entry stop body ∧
      r.Realizes ⟨entry, .toInterpreter, .none⟩ body.zipIdx none := by
  rw [ofFunction_eq] at h
  obtain ⟨body, hbody, h⟩ := bind_eq_ok.1 h
  exact ⟨body, Memory.functionAt_eq_ok hbody, (Listing.compile_eq_ok h).2.realizes⟩

/-! ## The cache -/

namespace RoutineCache

theorem routine?_cons (entry : Word) (v : Verdict) (verdicts : List (Word × Verdict))
    (entry' : Word) :
    routine? ⟨(entry, v) :: verdicts⟩ entry' =
      if entry' = entry then (match v with | .compiled r => some r | .failed => none)
      else routine? ⟨verdicts⟩ entry' := by
  by_cases h : entry' = entry
  · subst h
    rw [if_pos rfl, routine?, verdict?, List.lookup_cons_self]
    cases v <;> rfl
  · rw [if_neg h, routine?, verdict?, List.lookup_cons, beq_eq_false_iff_ne.2 h]
    rfl

theorem routine?_eq_some_iff {c : RoutineCache} {entry : Word} {r : Routine} :
    c.routine? entry = some r ↔ c.verdict? entry = some (.compiled r) := by
  rw [routine?]
  rcases c.verdict? entry with _ | ⟨r' | _⟩ <;> simp

/-- What is in the cache after an attempt was in it before, or is the routine of the function. -/
theorem routine?_consider {c : RoutineCache} {entry entry' stop : Word} {m : Memory} {r : Routine}
    (h : (c.consider entry m stop).routine? entry' = some r) :
    c.routine? entry' = some r ∨ (entry' = entry ∧ Routine.ofFunction m entry stop = .ok r) := by
  rw [consider] at h
  split at h
  · exact .inl h
  · cases hfunction : Routine.ofFunction m entry stop with
    | ok r₀ =>
      rw [hfunction] at h
      simp only [routine?_cons] at h
      split at h
      · next heq =>
        obtain rfl := Option.some.inj h
        exact .inr ⟨heq, rfl⟩
      · exact .inl h
    | error reason =>
      rw [hfunction] at h
      simp only [routine?_cons] at h
      split at h
      · cases h
      · exact .inl h

end RoutineCache

end Risc32
