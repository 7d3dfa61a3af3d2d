import Risc32.Proofs.Assembly.Functions
import Risc32.Proofs.Compiled.OnDemand
import Risc32.Proofs.Compiled.Whole

/-!
# The body of a function, as assembled and as found in memory

A function ends at its first return, and that end is looked for twice. The assembler has the
statements and goes by their names. The machine that compiles on demand has the bytes in memory and
goes by what they decode to. They find the same end because a word of an assembled program decodes
as a return exactly where its statement is one (`Program.Written.returns_iff`): no other
instruction, whatever its operands, comes out as a return, and nothing but the words of the program
is looked at on the way to the end, so data never is.
-/

set_option autoImplicit false

namespace Risc32

open Assembly

/-! ## Words in memory -/

/-- A part of what is held is held where it begins. -/
theorem Memory.Holds.slice {m : Memory} {start : Nat} {ws : List Word} (h : m.Holds start ws)
    (r : IndexRange) : m.Holds (start + 4 * r.first) (r.slice ws) := by
  intro i w hw
  have hword := h (r.first + i) w (IndexRange.slice_eq_some hw).1
  rwa [Nat.mul_add, ← Nat.add_assoc] at hword

/-! ## Statements and words -/

namespace Program

variable {p : Program} {labels : LabelTable} {statements : List Statement}

/-- A word decodes as a return exactly if its statement is one. -/
theorem Written.returns_iff (h : p.Written labels statements) {k : Nat} {w : Word}
    (hw : p.words[k]? = some w) :
    (Instruction.decode w).any (·.isReturn) ↔ ReturnsAt statements k := by
  have hlt : k < statements.length := by
    rw [← h.length]
    exact (List.getElem?_eq_some_iff.1 hw).1
  have hs : statements[k]? = some statements[k] := List.getElem?_eq_getElem hlt
  obtain ⟨i, w', hi, hw', hdecode⟩ := h.decode hs
  obtain rfl := Option.some.inj (hw.symm.trans hw')
  rw [hdecode, Option.any_some, instructionOf_isReturn hi]
  constructor
  · exact fun hret => ⟨statements[k], hs, hret⟩
  · rintro ⟨s, hs', hret⟩
    obtain rfl := Option.some.inj (hs.symm.trans hs')
    exact hret

end Program

/-! ## Functions -/

/-- The instructions of a function, by index. -/
def Extent.range (x : Extent) : IndexRange :=
  ⟨x.entry / 4, x.entry / 4 + x.size⟩

namespace Program

variable {p : Program} {labels : LabelTable} {statements : List Statement} {entries : List Nat}
  {x : Extent}

theorem range_le_length (h : p.Written labels statements) (hx : IsFunction entries statements x) :
    x.range.stop ≤ p.words.length := by
  obtain ⟨s, hs, -⟩ := hx.returns
  have hlt := (List.getElem?_eq_some_iff.1 hs).1
  have hnonempty := hx.nonempty
  rw [Extent.range, h.length]
  dsimp only
  omega

/-- The words of a function end with a return, and there is no other in it. -/
theorem slice_range (h : p.Written labels statements) (hx : IsFunction entries statements x) :
    ∃ body last, x.range.slice p.words = body ++ [last] ∧ body.length + 1 = x.size ∧
      (Instruction.decode last).any (·.isReturn) ∧
      ∀ w ∈ body, (Instruction.decode w).any (·.isReturn) = false := by
  have hstop : x.entry / 4 + x.size ≤ p.words.length := range_le_length h hx
  obtain ⟨n, hsize⟩ := Nat.exists_eq_succ_of_ne_zero (Nat.ne_of_gt hx.nonempty)
  rw [hsize] at hstop
  have hlast : p.words[x.entry / 4 + n]? = some p.words[x.entry / 4 + n] :=
    List.getElem?_eq_getElem (by omega)
  refine ⟨(p.words.drop (x.entry / 4)).take n, p.words[x.entry / 4 + n], ?_, ?_, ?_, ?_⟩
  · rw [Extent.range, IndexRange.slice, Nat.add_sub_cancel_left, hsize, Nat.succ_eq_add_one,
      List.take_add_one, List.getElem?_drop, hlast]
    rfl
  · rw [List.length_take, List.length_drop, hsize]
    omega
  · have hreturns := hx.returns
    rw [hsize] at hreturns
    exact (h.returns_iff hlast).2 hreturns
  · intro w hw
    obtain ⟨k, hk⟩ := List.getElem?_of_mem hw
    rw [List.getElem?_take] at hk
    split at hk
    · next hlt =>
      rw [List.getElem?_drop] at hk
      rw [← Bool.not_eq_true, h.returns_iff hk]
      exact hx.earlier _ (Nat.le_add_right _ _) (by omega)
    · cases hk

end Program

/-! ## In memory -/

namespace Machine

variable {σ : Type}

/-- **Assembler and machine agree on functions.** An assembled program is loaded if it fits into
memory. Of every function in its table, the machine then finds the body in memory: exactly the
instructions which the table says are in it. The program ends at an address, and addresses have 32
bits, so it has fewer than 2 ^ 30 instructions. -/
theorem functionAt_ofLines {lines : List String} {seed : LabelTable} {p : Program}
    (h : Program.ofLines lines seed = .ok p) (hcount : p.words.length < 2 ^ 30) (m : Machine σ)
    (hfits : p.image.length ≤ m.cpu.memory.size) :
    ∃ m', load p m = .ok () m' ∧ ∀ x ∈ p.functions.extents,
      (BitVec.ofNat 32 x.entry).toNat = x.entry ∧ x.range.stop ≤ p.words.length ∧
      m'.cpu.memory.functionAt (BitVec.ofNat 32 x.entry) m'.programEnd =
        .ok (x.range.slice p.words) := by
  obtain ⟨draft, labels, -, -, hwritten, hfunctions⟩ := Program.ofLines_eq_ok h
  refine ⟨m.loaded p, (load_apply p m).trans (if_pos hfits), ?_⟩
  intro x hx
  rw [hfunctions] at hx
  have hx := (functionsOf_functionsFrom draft.entries draft.statements.toList).sound x hx
  have hstop : x.entry / 4 + x.size ≤ p.words.length := Program.range_le_length hwritten hx
  have haligned := hx.aligned
  have hnonempty := hx.nonempty
  have hentry : (BitVec.ofNat 32 x.entry).toNat = x.entry := by
    rw [BitVec.toNat_ofNat, Nat.mod_eq_of_lt]
    omega
  have hend : (m.loaded p).programEnd.toNat = 4 * p.words.length := by
    show (BitVec.ofNat 32 (4 * p.words.length)).toNat = _
    rw [BitVec.toNat_ofNat, Nat.mod_eq_of_lt (by omega)]
  refine ⟨hentry, hstop, ?_⟩
  obtain ⟨body, last, hslice, hsize, hlast, hbody⟩ := Program.slice_range hwritten hx
  have hholds := (holds_loaded hfits).slice x.range
  rw [hslice, Extent.range, Nat.zero_add, Nat.mul_div_cancel' (Nat.dvd_of_mod_eq_zero haligned)]
    at hholds
  rw [Memory.functionAt, hentry, hend, hslice,
    Memory.wordsToReturn?_of_holds hlast hbody haligned (by omega) (by omega) hholds]

/-- In `nested` the machine finds the one function, the three instructions from address 20 on. -/
theorem functionAt_ofLines_nested :
    let m : Machine (Array Byte) := .new { memorySize := 64 } #[]
    ∃ p m', Program.ofLines Program.nested Program.nestedSeed = .ok p ∧
      p.words.length < 2 ^ 30 ∧ p.image.length ≤ m.cpu.memory.size ∧ load p m = .ok () m' ∧
      ⟨20, 3⟩ ∈ p.functions.extents ∧
      m'.cpu.memory.functionAt 20 m'.programEnd = .ok ((p.words.drop 5).take 3) := by
  intro m
  have haccepted : (Program.ofLines Program.nested Program.nestedSeed).toOption.any fun p =>
      decide ((p.words.length < 2 ^ 30 ∧ p.image.length ≤ m.cpu.memory.size) ∧
        ⟨20, 3⟩ ∈ p.functions.extents) := by decide +kernel
  obtain ⟨p, h, hp⟩ := any_toOption haccepted
  obtain ⟨⟨hcount, hfits⟩, houter⟩ := of_decide_eq_true hp
  obtain ⟨m', hload, hfunctions⟩ := functionAt_ofLines h hcount m hfits
  exact ⟨p, m', h, hcount, hfits, hload, houter, (hfunctions _ houter).2.2⟩

end Machine

end Risc32
