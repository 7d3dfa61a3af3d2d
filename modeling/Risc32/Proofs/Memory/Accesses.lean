import Mathlib.Algebra.GroupWithZero.Nat
import Risc32.Proofs.Memory.Contents

/-!
# Reading and writing memory

What the accesses to memory do at any address, one statement for all of them (`Memory.accesses`).
Memory is its bytes: a byte that is read is the one that stands there, a word is the number that
four of them make, and a write puts its bytes where it was asked to and leaves all others alone
(`Memory.Wrote`). So a word is read back from the bytes that were written one at a time, and the
other way round, also where ranges overlap.

An access that is refused has changed nothing. A word that is misaligned is refused for that, also
if it is out of bounds. Addresses are counted without wrapping, so no access goes around the end of
the address space.
-/

set_option autoImplicit false

namespace Risc32

/-- The digits of the word to the base 256, the last one first. -/
def Word.littleEndian (w : Word) : List Byte :=
  (List.range 4).map fun k => BitVec.ofNat 8 (w.toNat / 256 ^ k)

theorem Word.bytes_eq_littleEndian (w : Word) : w.bytes = w.littleEndian := by
  have hbyte : ∀ k, w.extractLsb' (8 * k) 8 = BitVec.ofNat 8 (w.toNat / 256 ^ k) := by
    intro k
    apply BitVec.eq_of_toNat_eq
    rw [BitVec.extractLsb'_toNat, BitVec.toNat_ofNat, Nat.shiftRight_eq_div_pow, Nat.pow_mul]
  show _ = [BitVec.ofNat 8 (w.toNat / 256 ^ 0), BitVec.ofNat 8 (w.toNat / 256 ^ 1),
    BitVec.ofNat 8 (w.toNat / 256 ^ 2), BitVec.ofNat 8 (w.toNat / 256 ^ 3)]
  rw [← hbyte 0, ← hbyte 1, ← hbyte 2, ← hbyte 3]
  rfl

theorem toNat_append_byte {n : Nat} (x : BitVec n) (b : Byte) :
    (x ++ b).toNat = 256 * x.toNat + b.toNat := by
  rw [BitVec.toNat_append, ← Nat.shiftLeft_add_eq_or_of_lt b.isLt, Nat.shiftLeft_eq, Nat.mul_comm]

theorem Word.toNat_ofBytes (b₀ b₁ b₂ b₃ : Byte) :
    (Word.ofBytes b₀ b₁ b₂ b₃).toNat =
      b₀.toNat + 256 * b₁.toNat + 65536 * b₂.toNat + 16777216 * b₃.toNat := by
  have happend : (Word.ofBytes b₀ b₁ b₂ b₃).toNat = (b₃ ++ b₂ ++ b₁ ++ b₀).toNat := rfl
  rw [happend, toNat_append_byte, toNat_append_byte, toNat_append_byte]
  omega

namespace Memory

variable {m m' : Memory} {site : Site} {address : Word}

/-! ## Bytes -/

theorem getElem?_bytes (m : Memory) (i : Nat) :
    m.bytes[i]? = if i < m.size then some (m.byteAt i) else none := by
  by_cases h : i < m.size
  · have hlt : i < m.bytes.size := h
    rw [if_pos h, byteAt, Array.getD_eq_getD_getElem?, Array.getElem?_eq_getElem hlt]
    rfl
  · rw [if_neg h, Array.getElem?_eq_none (Nat.le_of_not_lt h)]

/-- The bytes stand from `start` on, and everything else is as it was. -/
structure Wrote (m m' : Memory) (start : Nat) (bs : List Byte) : Prop where
  size : m'.size = m.size
  inside : ∀ (k : Nat) (b : Byte), bs[k]? = some b → m'.bytes[start + k]? = some b
  outside : ∀ i, i < start ∨ start + bs.length ≤ i → m'.bytes[i]? = m.bytes[i]?

theorem wrote_putBytes {start : Nat} {bs : List Byte} (h : start + bs.length ≤ m.size) :
    m.Wrote (m.putBytes start bs) start bs where
  size := size_putBytes m start bs
  inside k b hk := by
    have hlt := (List.getElem?_eq_some_iff.1 hk).1
    rw [getElem?_bytes, size_putBytes, if_pos (by omega), byteAt_putBytes, if_pos (by omega),
      Nat.add_sub_cancel_left, List.getD_eq_getElem?_getD, hk, Option.getD_some]
  outside i hi := by
    have hbyte : (m.putBytes start bs).byteAt i = m.byteAt i := by
      rw [byteAt_putBytes, if_neg (by omega)]
    rw [getElem?_bytes, size_putBytes, hbyte, ← getElem?_bytes]

/-- The word that the four bytes from `start` on make, the last digit first. -/
def HasWord (m : Memory) (start : Nat) (w : Word) : Prop :=
  ∃ b₀ b₁ b₂ b₃ : Byte, m.bytes[start]? = some b₀ ∧ m.bytes[start + 1]? = some b₁ ∧
    m.bytes[start + 2]? = some b₂ ∧ m.bytes[start + 3]? = some b₃ ∧
    w.toNat = b₀.toNat + 256 * b₁.toNat + 65536 * b₂.toNat + 16777216 * b₃.toNat

theorem hasWord_iff {start : Nat} {w : Word} :
    m.HasWord start w ↔ start + 4 ≤ m.size ∧ m.wordAt start = w := by
  constructor
  · rintro ⟨b₀, b₁, b₂, b₃, h₀, h₁, h₂, h₃, hw⟩
    simp only [getElem?_bytes, Option.ite_none_right_eq_some, Option.some.injEq] at h₀ h₁ h₂ h₃
    refine ⟨h₃.1, BitVec.eq_of_toNat_eq ?_⟩
    rw [wordAt, Word.toNat_ofBytes, h₀.2, h₁.2, h₂.2, h₃.2, hw]
  · rintro ⟨hsize, rfl⟩
    refine ⟨m.byteAt start, m.byteAt (start + 1), m.byteAt (start + 2), m.byteAt (start + 3),
      ?_, ?_, ?_, ?_, Word.toNat_ofBytes _ _ _ _⟩ <;>
    rw [getElem?_bytes, if_pos (by omega)]

/-! ## Refusals -/

/-- Why an access of `width` bytes is refused that may be anywhere. -/
def RefusesBytes (m : Memory) (site : Site) (address : Word) (width : Nat) (e : Fault) : Prop :=
  m.size < address.toNat + width ∧ e = .outOfBounds site address

/-- Why an access to a word is refused. -/
def RefusesWord (m : Memory) (site : Site) (address : Word) (e : Fault) : Prop :=
  (¬Word.Aligned address ∧ e = .misaligned site address) ∨
    (Word.Aligned address ∧ m.RefusesBytes site address 4 e)

theorem checkRange_eq_ok_iff {width : Nat} :
    m.checkRange site address width = .ok () ↔ address.toNat + width ≤ m.size := by
  rw [checkRange]
  split <;> simp [*]

theorem checkWord_eq_ok_iff :
    m.checkWord site address = .ok () ↔ Word.Aligned address ∧ address.toNat + 4 ≤ m.size := by
  rw [← (checkRange_eq_ok_iff : m.checkRange site address 4 = .ok () ↔ _)]
  by_cases ha : Word.Aligned address <;> simp [checkWord, checkAligned, ha, bind, Except.bind]

theorem checkRange_eq_error_iff {width : Nat} {e : Fault} :
    m.checkRange site address width = .error e ↔ m.RefusesBytes site address width e := by
  rw [checkRange, RefusesBytes]
  split
  · simp; omega
  · simp [eq_comm]; omega

theorem checkWord_eq_error_iff {e : Fault} :
    m.checkWord site address = .error e ↔ m.RefusesWord site address e := by
  rw [RefusesWord, ← checkRange_eq_error_iff]
  by_cases ha : Word.Aligned address
  · simp [checkWord, checkAligned, ha, bind, Except.bind]
  · simp [checkWord, checkAligned, ha, bind, Except.bind, eq_comm]

end Memory

/-! ## Writes -/

/-- Where it is allowed the execution writes the bytes from `start` on, and else it is refused for
one of the reasons and changes nothing. -/
structure Exec.Writes (x : Exec Memory Unit) (m : Memory) (allowed : Prop) (start : Nat)
    (bs : List Byte) (refuses : Fault → Prop) : Prop where
  accepts : (∃ m', x m = .ok () m') ↔ allowed
  written : ∀ m', x m = .ok () m' → m.Wrote m' start bs
  refused : ∀ halt m', x m = .error halt m' ↔ m' = m ∧ ∃ e, halt = .fault e ∧ refuses e

/-- What is put into memory behind a check is written. -/
theorem Exec.writes_of_check {x : Exec Memory Unit} {m : Memory} (check : Except Fault Unit)
    {allowed : Prop} {start : Nat} {bs : List Byte} {refuses : Fault → Prop}
    (hx : x m = match check with
      | .ok () => .ok () (m.putBytes start bs)
      | .error e => .error (.fault e) m)
    (hallowed : check = .ok () ↔ allowed) (hrefuses : ∀ e, check = .error e ↔ refuses e)
    (hfits : allowed → start + bs.length ≤ m.size) : x.Writes m allowed start bs refuses := by
  cases hcheck : check with
  | ok =>
    rw [hcheck] at hx
    have hyes : allowed := hallowed.1 hcheck
    refine ⟨iff_of_true ⟨_, hx⟩ hyes, ?_, ?_⟩
    · intro m' hm'
      obtain ⟨-, rfl⟩ := EStateM.Result.ok.inj (hx.symm.trans hm')
      exact Memory.wrote_putBytes (hfits hyes)
    · intro halt m'
      rw [hx]
      refine iff_of_false (by simp) ?_
      rintro ⟨-, e, -, he⟩
      cases hcheck.symm.trans ((hrefuses e).2 he)
  | error e =>
    rw [hcheck] at hx
    refine ⟨iff_of_false ?_ ?_, ?_, ?_⟩
    · rintro ⟨m', hm'⟩
      cases hx.symm.trans hm'
    · intro hyes
      cases hcheck.symm.trans (hallowed.2 hyes)
    · intro m' hm'
      cases hx.symm.trans hm'
    · intro halt m'
      rw [hx]
      constructor
      · rintro ⟨⟩
        exact ⟨rfl, e, rfl, (hrefuses e).1 hcheck⟩
      · rintro ⟨rfl, e', rfl, he'⟩
        obtain rfl := Except.error.inj (hcheck.symm.trans ((hrefuses e').2 he'))
        rfl

namespace Memory

variable {m : Memory} {site : Site} {address : Word}

theorem writeByte_writes (b : Byte) :
    (writeByte site address b).Writes m (address.toNat < m.size) address.toNat [b]
      (m.RefusesBytes site address 1) := by
  refine Exec.writes_of_check (m.checkByte site address) ?_ checkRange_eq_ok_iff
    (fun _ => checkRange_eq_error_iff) id
  cases hcheck : m.checkByte site address <;> simp [writeByte, hcheck, putBytes]

theorem writeWord_writes (w : Word) :
    (writeWord site address w).Writes m (Word.Aligned address ∧ address.toNat + 4 ≤ m.size)
      address.toNat w.littleEndian (m.RefusesWord site address) := by
  rw [← Word.bytes_eq_littleEndian]
  refine Exec.writes_of_check (m.checkWord site address) ?_ checkWord_eq_ok_iff
    (fun _ => checkWord_eq_error_iff) And.right
  cases hcheck : m.checkWord site address <;> simp [writeWord, hcheck, putWord]

theorem load_writes (bs : List Byte) :
    (load address bs).Writes m (address.toNat + bs.length ≤ m.size) address.toNat bs
      (m.RefusesBytes ⟨"load", address⟩ address bs.length) := by
  refine Exec.writes_of_check (m.checkRange ⟨"load", address⟩ address bs.length) ?_
    checkRange_eq_ok_iff (fun _ => checkRange_eq_error_iff) id
  cases hcheck : m.checkRange ⟨"load", address⟩ address bs.length <;> simp [load, hcheck]

/-- **The accesses to memory.** A byte can be read below the end of memory, and is the one that
stands there. A word can be read at a multiple of four with four bytes from there on, and is the
number that they make. A byte and a word can be written where they can be read, and any number of
bytes where there is room for them; then they stand there, a word with its last digit first, and the
other bytes and the size of memory are as before. Else the access is refused and has changed
nothing: because the address is misaligned, if it should be a word's, and only else because it is
out of bounds. -/
theorem accesses (m : Memory) (site : Site) (address : Word) :
    (∀ b, m.readByte site address = .ok b ↔ m.bytes[address.toNat]? = some b) ∧
      ((∃ b, m.readByte site address = .ok b) ↔ address.toNat < m.size) ∧
      (∀ e, m.readByte site address = .error e ↔ m.RefusesBytes site address 1 e) ∧
      (∀ w, m.readWord site address = .ok w ↔
        Word.Aligned address ∧ m.HasWord address.toNat w) ∧
      ((∃ w, m.readWord site address = .ok w) ↔
        Word.Aligned address ∧ address.toNat + 4 ≤ m.size) ∧
      (∀ e, m.readWord site address = .error e ↔ m.RefusesWord site address e) ∧
      (∀ b, (writeByte site address b).Writes m (address.toNat < m.size) address.toNat [b]
        (m.RefusesBytes site address 1)) ∧
      (∀ w, (writeWord site address w).Writes m
        (Word.Aligned address ∧ address.toNat + 4 ≤ m.size) address.toNat w.littleEndian
        (m.RefusesWord site address)) ∧
      ∀ bs, (load address bs).Writes m (address.toNat + bs.length ≤ m.size) address.toNat bs
        (m.RefusesBytes ⟨"load", address⟩ address bs.length) := by
  refine ⟨?_, ?_, ?_, ?_, ?_, ?_, writeByte_writes, writeWord_writes, load_writes⟩
  · intro b
    simp only [readByte_eq, getElem?_bytes, Nat.add_one_le_iff]
    by_cases h : address.toNat < m.size <;> simp [h]
  · simp only [readByte_eq, Nat.add_one_le_iff]
    by_cases h : address.toNat < m.size <;> simp [h]
  · intro e
    rw [← checkRange_eq_error_iff, readByte, checkByte]
    cases m.checkRange site address 1 <;> simp [bind, Except.bind, pure, Except.pure]
  · intro w
    rw [readWord_eq, hasWord_iff]
    by_cases ha : Word.Aligned address <;> by_cases h : address.toNat + 4 ≤ m.size <;>
      simp [ha, h]
  · rw [readWord_eq]
    by_cases ha : Word.Aligned address <;> by_cases h : address.toNat + 4 ≤ m.size <;>
      simp [ha, h]
  · intro e
    rw [← checkWord_eq_error_iff, readWord]
    cases m.checkWord site address <;> simp [bind, Except.bind, pure, Except.pure]

/-- The last word of a memory of eight bytes, its first and last byte, the byte in front of it, and
two addresses behind it, one of them misaligned. -/
theorem accesses_atEnd :
    let site : Site := ⟨"stw", 12⟩
    ∃ m', writeWord site 4 0x01020304 (zero 8) = .ok () m' ∧ m'.size = 8 ∧
      m'.readByte site 4 = .ok 0x04 ∧ m'.readByte site 7 = .ok 0x01 ∧
      m'.readWord site 4 = .ok 0x01020304 ∧ m'.readByte site 3 = .ok 0 ∧
      m'.readWord site 8 = .error (.outOfBounds site 8) ∧
      m'.readWord site 10 = .error (.misaligned site 10) := by
  intro site
  obtain ⟨-, -, -, -, -, -, -, hword, -⟩ := accesses (zero 8) site 4
  have hwrites := hword 0x01020304
  obtain ⟨m', hm'⟩ := hwrites.accepts.2 (by decide)
  obtain ⟨hsize, hinside, houtside⟩ := hwrites.written m' hm'
  have hbyte : ∀ (a : Word) (b : Byte), m'.bytes[a.toNat]? = some b → m'.readByte site a = .ok b :=
    fun a b => ((accesses m' site a).1 b).2
  obtain ⟨-, -, -, hread, -⟩ := accesses m' site 4
  obtain ⟨-, -, -, -, -, hpast, -⟩ := accesses m' site 8
  obtain ⟨-, -, -, -, -, hmisaligned, -⟩ := accesses m' site 10
  refine ⟨m', hm', hsize, hbyte 4 _ (hinside 0 _ rfl), hbyte 7 _ (hinside 3 _ rfl),
    (hread _).2 ⟨by decide, _, _, _, _, hinside 0 _ rfl, hinside 1 _ rfl, hinside 2 _ rfl,
      hinside 3 _ rfl, by decide⟩,
    hbyte 3 _ ((houtside 3 (.inl (by decide))).trans rfl), (hpast _).2 ?_, (hmisaligned _).2 ?_⟩
  · refine .inr ⟨by decide, ?_, rfl⟩
    rw [hsize]
    decide
  · exact .inl ⟨by decide, rfl⟩

end Memory

end Risc32
