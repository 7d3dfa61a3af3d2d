import Risc32.Memory
import Risc32.Proofs.Sequence

/-!
# What memory holds

Two views of memory that do not change while a program runs: the words that stand from some
address on (`Memory.Holds`), and all the bytes below some address (`Memory.SameBelow`). The
second is how a run is said to leave the instructions alone, and it keeps the first.

Bytes are compared with their bounds: a memory that was cut off is not the same below the place
where it now ends.
-/

set_option autoImplicit false

namespace Risc32

/-! ## Words -/

namespace Word

theorem aligned_ofNat_iff (address : Nat) :
    Aligned (BitVec.ofNat 32 address) ↔ address % 4 = 0 := by
  rw [Aligned, BitVec.toNat_ofNat]
  omega

theorem length_flatMap_bytes (ws : List Word) :
    (ws.flatMap Word.bytes).length = 4 * ws.length := by
  induction ws with
  | nil => rfl
  | cons w ws ih =>
    rw [List.flatMap_cons, List.length_append, ih, Word.length_bytes, List.length_cons]
    omega

/-- Where the bytes of a word are in the bytes of a list of words. -/
theorem getD_flatMap_bytes (ws : List Word) (rest : List Byte) {i k : Nat} (hi : i < ws.length)
    (hk : k < 4) :
    (ws.flatMap Word.bytes ++ rest).getD (4 * i + k) 0 = (Word.bytes ws[i]).getD k 0 := by
  induction ws generalizing i with
  | nil => exact absurd hi (Nat.not_lt_zero i)
  | cons w ws ih =>
    rw [List.flatMap_cons, List.append_assoc]
    cases i with
    | zero =>
      rw [List.getD_eq_getElem?_getD, List.getElem?_append_left (by simpa using hk)]
      simp
    | succ i =>
      rw [List.getD_eq_getElem?_getD, List.getElem?_append_right (by simp; omega),
        show 4 * (i + 1) + k - (bytes w).length = 4 * i + k by simp; omega,
        ← List.getD_eq_getElem?_getD, ih (by simpa using hi), List.getElem_cons_succ]

end Word

namespace Memory

theorem readByte_eq (m : Memory) (site : Site) (address : Word) :
    m.readByte site address =
      if address.toNat + 1 ≤ m.size then .ok (m.byteAt address.toNat)
      else .error (.outOfBounds site address) := by
  by_cases h : address.toNat + 1 ≤ m.size <;>
    simp [readByte, checkByte, checkRange, h, bind, Except.bind, pure, Except.pure]

/-- A word access is refused if it is misaligned, and only else if it is out of bounds. -/
theorem readWord_eq (m : Memory) (site : Site) (address : Word) :
    m.readWord site address =
      if Word.Aligned address then
        if address.toNat + 4 ≤ m.size then .ok (m.wordAt address.toNat)
        else .error (.outOfBounds site address)
      else .error (.misaligned site address) := by
  by_cases ha : Word.Aligned address
  · by_cases hr : address.toNat + 4 ≤ m.size <;>
      simp [readWord, checkWord, checkAligned, checkRange, ha, hr, bind, Except.bind, pure,
        Except.pure]
  · simp [readWord, checkWord, checkAligned, ha, bind, Except.bind]

/-- The words stand in memory, one after the other, from `start` on. -/
def Holds (m : Memory) (start : Nat) (ws : List Word) : Prop :=
  ∀ i w, ws[i]? = some w → start + 4 * i + 4 ≤ m.size ∧ m.wordAt (start + 4 * i) = w

/-- What is held can be read. -/
theorem Holds.readWord {m : Memory} {start i : Nat} {ws : List Word} {w address : Word}
    (h : m.Holds start ws) (hw : ws[i]? = some w) (haddress : address.toNat = start + 4 * i)
    (haligned : start % 4 = 0) (site : Site) : m.readWord site address = .ok w := by
  obtain ⟨hsize, hword⟩ := h i w hw
  have ha : Word.Aligned address := by
    show address.toNat % 4 = 0
    omega
  rw [readWord_eq, if_pos ha, if_pos (by omega), haddress, hword]

/-- The first of the words that are held is read at their address. -/
theorem Holds.head {m : Memory} {start : Nat} {w : Word} {ws : List Word}
    (h : m.Holds start (w :: ws)) (haligned : start % 4 = 0)
    (haddress : (BitVec.ofNat 32 start).toNat = start) (site : Site) :
    m.readWord site (BitVec.ofNat 32 start) = .ok w :=
  h.readWord (i := 0) rfl haddress haligned site

theorem Holds.tail {m : Memory} {start : Nat} {w : Word} {ws : List Word}
    (h : m.Holds start (w :: ws)) : m.Holds (start + 4) ws := by
  intro i w' hw'
  have hword := h (i + 1) w' (by simpa using hw')
  rwa [Nat.mul_add, Nat.add_comm (4 * i), ← Nat.add_assoc] at hword

/-- Four bytes are the word that they are the bytes of. -/
theorem wordAt_eq_of_bytes {m : Memory} {i : Nat} {w : Word}
    (h : ∀ k < 4, m.byteAt (i + k) = (Word.bytes w).getD k 0) : m.wordAt i = w := by
  have h₀ : m.byteAt i = w.extractLsb' 0 8 := h 0 (by decide)
  have h₁ : m.byteAt (i + 1) = w.extractLsb' 8 8 := h 1 (by decide)
  have h₂ : m.byteAt (i + 2) = w.extractLsb' 16 8 := h 2 (by decide)
  have h₃ : m.byteAt (i + 3) = w.extractLsb' 24 8 := h 3 (by decide)
  rw [wordAt, h₀, h₁, h₂, h₃, Word.ofBytes_extractLsb]

/-- Memory into which words were copied holds them. -/
theorem holds_putBytes {m : Memory} {start : Nat} {ws : List Word} {rest : List Byte}
    (hsize : start + (ws.flatMap Word.bytes ++ rest).length ≤ m.size) :
    (m.putBytes start (ws.flatMap Word.bytes ++ rest)).Holds start ws := by
  intro i w hw
  obtain ⟨hi, rfl⟩ := List.getElem?_eq_some_iff.1 hw
  have hbound : start + 4 * i + 4 ≤ m.size := by
    rw [List.length_append, Word.length_flatMap_bytes] at hsize
    omega
  refine ⟨by simpa using hbound, wordAt_eq_of_bytes ?_⟩
  intro k hk
  rw [byteAt_putBytes, if_pos, show start + 4 * i + k - start = 4 * i + k by omega,
    Word.getD_flatMap_bytes ws rest hi hk]
  rw [List.length_append, Word.length_flatMap_bytes]
  omega

/-! ## Bytes below an address -/

/-- Both memories have the same bytes below `n`, and the same end if they end there. -/
def SameBelow (n : Nat) (m m' : Memory) : Prop :=
  ∀ i < n, m'.bytes[i]? = m.bytes[i]?

instance (n : Nat) (m m' : Memory) : Decidable (SameBelow n m m') :=
  inferInstanceAs (Decidable (∀ i < n, m'.bytes[i]? = m.bytes[i]?))

namespace SameBelow

variable {n : Nat} {m m' m'' : Memory}

theorem refl (n : Nat) (m : Memory) : SameBelow n m m :=
  fun _ _ => rfl

theorem symm (h : SameBelow n m m') : SameBelow n m' m :=
  fun i hi => (h i hi).symm

theorem trans (h : SameBelow n m m') (h' : SameBelow n m' m'') : SameBelow n m m'' :=
  fun i hi => (h' i hi).trans (h i hi)

theorem le_size (h : SameBelow n m m') (hn : n ≤ m.size) : n ≤ m'.size := by
  cases n with
  | zero => exact Nat.zero_le _
  | succ n =>
    have hlast : n < m.bytes.size := hn
    have hsome := h n (Nat.lt_succ_self n)
    rw [Array.getElem?_eq_getElem hlast] at hsome
    obtain ⟨hlt, -⟩ := Array.getElem?_eq_some_iff.1 hsome
    exact hlt

theorem wordAt_eq (h : SameBelow n m m') {i : Nat} (hi : i + 4 ≤ n) : m'.wordAt i = m.wordAt i := by
  have hbyte : ∀ k < n, m'.byteAt k = m.byteAt k := by
    intro k hk
    simp only [byteAt, Array.getD_eq_getD_getElem?, h k hk]
  rw [wordAt, wordAt, hbyte i (by omega), hbyte (i + 1) (by omega), hbyte (i + 2) (by omega),
    hbyte (i + 3) (by omega)]

theorem holds (h : SameBelow n m m') {start : Nat} {ws : List Word} (hn : n ≤ m.size)
    (hstop : start + 4 * ws.length ≤ n) (hm : m.Holds start ws) : m'.Holds start ws := by
  intro i w hw
  have hi : i < ws.length := (List.getElem?_eq_some_iff.1 hw).1
  refine ⟨?_, ?_⟩
  · have := h.le_size hn
    omega
  · rw [h.wordAt_eq (by omega)]
    exact (hm i w hw).2

/-- A word below a multiple of four is read alike, or refused alike. -/
theorem readWord_eq (h : SameBelow n m m') (hn : n ≤ m.size) (hmul : n % 4 = 0) (site : Site)
    {address : Word} (hlt : address.toNat < n) :
    m'.readWord site address = m.readWord site address := by
  rw [Memory.readWord_eq, Memory.readWord_eq]
  by_cases ha : Word.Aligned address
  · have hmod : address.toNat % 4 = 0 := ha
    have hn' := h.le_size hn
    rw [if_pos ha, if_pos ha, if_pos (by omega), if_pos (by omega), h.wordAt_eq (by omega)]
  · rw [if_neg ha, if_neg ha]

end SameBelow

end Memory

end Risc32
