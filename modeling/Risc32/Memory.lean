import Risc32.Exec

/-!
# Memory

A flat run of bytes. Bytes can be read and written anywhere in it, words only at multiples of
four, and a word that is both misaligned and out of bounds counts as misaligned.

Each access first asks whether it is allowed (`checkByte`, `checkWord`) and then goes ahead with
an operation that cannot fail, so an access that is refused has not touched anything.
-/

set_option autoImplicit false

namespace Risc32

/-- The bytes of the machine, by address. -/
structure Memory where
  bytes : Array Byte
deriving DecidableEq

def checkAligned (site : Site) (address : Word) : Except Fault Unit :=
  if Word.Aligned address then .ok () else .error (.misaligned site address)

namespace Memory

def zero (size : Nat) : Memory :=
  ⟨Array.replicate size 0⟩

def size (m : Memory) : Nat :=
  m.bytes.size

def clear (m : Memory) : Memory :=
  zero m.size

/-! ## Checks -/

/-- Refuses an access of `width` bytes that reaches past the end. -/
def checkRange (m : Memory) (site : Site) (address : Word) (width : Nat) : Except Fault Unit :=
  if address.toNat + width ≤ m.size then .ok () else .error (.outOfBounds site address)

def checkByte (m : Memory) (site : Site) (address : Word) : Except Fault Unit :=
  m.checkRange site address 1

def checkWord (m : Memory) (site : Site) (address : Word) : Except Fault Unit := do
  checkAligned site address
  m.checkRange site address 4

/-! ## Bytes and words at a position -/

/-- The byte at `i`, or zero past the end. -/
def byteAt (m : Memory) (i : Nat) : Byte :=
  m.bytes.getD i 0

/-- The word whose lowest byte is at `i`. -/
def wordAt (m : Memory) (i : Nat) : Word :=
  Word.ofBytes (m.byteAt i) (m.byteAt (i + 1)) (m.byteAt (i + 2)) (m.byteAt (i + 3))

def putByte (m : Memory) (i : Nat) (b : Byte) : Memory :=
  ⟨m.bytes.setIfInBounds i b⟩

def putBytes (m : Memory) (i : Nat) : List Byte → Memory
  | [] => m
  | b :: bs => (m.putByte i b).putBytes (i + 1) bs

def putWord (m : Memory) (i : Nat) (w : Word) : Memory :=
  m.putBytes i (Word.bytes w)

/-! What is read after a write is what was written, and everything else is as it was. -/

@[simp] theorem size_zero (n : Nat) : (zero n).size = n := by
  simp [zero, size]

@[simp] theorem size_putByte (m : Memory) (i : Nat) (b : Byte) :
    (m.putByte i b).size = m.size := by
  simp [putByte, size]

@[simp] theorem size_putBytes (m : Memory) (i : Nat) (bs : List Byte) :
    (m.putBytes i bs).size = m.size := by
  induction bs generalizing m i with
  | nil => rfl
  | cons b bs ih => rw [putBytes, ih, size_putByte]

@[simp] theorem size_putWord (m : Memory) (i : Nat) (w : Word) :
    (m.putWord i w).size = m.size :=
  size_putBytes m i _

theorem byteAt_putByte (m : Memory) (i j : Nat) (b : Byte) :
    (m.putByte i b).byteAt j = if j = i ∧ i < m.size then b else m.byteAt j := by
  simp only [putByte, byteAt, size, Array.getD_eq_getD_getElem?, Array.getElem?_setIfInBounds]
  grind

theorem byteAt_putBytes (m : Memory) (i j : Nat) (bs : List Byte) :
    (m.putBytes i bs).byteAt j =
      if i ≤ j ∧ j < i + bs.length ∧ j < m.size then bs.getD (j - i) 0 else m.byteAt j := by
  induction bs generalizing m i with
  | nil => grind [putBytes]
  | cons b bs ih =>
    rw [putBytes, ih, size_putByte, byteAt_putByte]
    grind

/-! ## Accesses -/

def readByte (m : Memory) (site : Site) (address : Word) : Except Fault Byte := do
  m.checkByte site address
  return m.byteAt address.toNat

def readWord (m : Memory) (site : Site) (address : Word) : Except Fault Word := do
  m.checkWord site address
  return m.wordAt address.toNat

def writeByte (site : Site) (address : Word) (b : Byte) : Exec Memory Unit := do
  Exec.ofExcept ((← get).checkByte site address)
  modify (·.putByte address.toNat b)

def writeWord (site : Site) (address : Word) (w : Word) : Exec Memory Unit := do
  Exec.ofExcept ((← get).checkWord site address)
  modify (·.putWord address.toNat w)

/-- Copies bytes into memory. A fault names the address as the program counter too. -/
def load (address : Word) (bs : List Byte) : Exec Memory Unit := do
  Exec.ofExcept ((← get).checkRange ⟨"load", address⟩ address bs.length)
  modify (·.putBytes address.toNat bs)

/-! ## Contents -/

/-- Puts the byte at `i` in front of the runs that start after it. -/
def prependByte (i : Nat) (b : Byte) (runs : List (Nat × List Byte)) : List (Nat × List Byte) :=
  if b = 0 then runs
  else
    match runs with
    | (start, run) :: rest => if start = i + 1 then (i, b :: run) :: rest else (i, [b]) :: runs
    | [] => [(i, [b])]

/-- The longest runs of bytes that are not zero, each with the address it starts at. -/
def nonzeroRuns (m : Memory) : List (Nat × List Byte) :=
  (m.bytes.foldr (fun b (i, runs) => (i - 1, prependByte (i - 1) b runs)) (m.size, [])).2

end Memory

end Risc32
