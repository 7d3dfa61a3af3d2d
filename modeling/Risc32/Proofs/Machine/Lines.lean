import Risc32.Proofs.Assembly.Symbols
import Risc32.Proofs.Encoding.Codec
import Risc32.Proofs.Machine.Straight

/-!
# The instructions of a line

A line of the text segment becomes one instruction or a few. They stand next to each other in the
program, so a machine that has the program in memory and comes to the line finds them in front of it
(`Machine.AtLine.readsFrom`).
-/

set_option autoImplicit false

namespace Risc32

open Assembly

/-! ## Labels -/

/-- A label of text can be named as a target: it is an identifier, it is bound, and an instruction
can be there. -/
theorem Program.Assembles.target_of_textLabel {p : Program} {lines : List String}
    {seed : LabelTable} (h : p.Assembles lines seed) {name : String} {address : Nat}
    (hmem : (name, address) ∈ Source.textLabels lines) :
    isIdentifier name ∧ p.symbols.address? name = some address ∧ address % 4 = 0 := by
  obtain ⟨n, c, hc, hname, rfl⟩ := Source.mem_textLabels_iff.1 hmem
  have hcontent : c ∈ Source.contents lines :=
    (List.mem_filter.1 (List.mem_of_getElem? hc)).1
  refine ⟨Source.isIdentifier_of_mem_contentsFrom hcontent hname, ?_, by omega⟩
  rw [LabelTable.address?_eq_some_iff, h.symbols]
  exact List.mem_append_left _ (List.mem_append_right _ (List.mem_reverse.2 hmem))

/-! ## Instructions -/

/-- The words of a line stand in the program one after the other. -/
theorem Program.Assembles.words_of_text {p : Program} {lines : List String} {seed : LabelTable}
    (h : p.Assembles lines seed) {c : Content} {n : Nat}
    (hc : (Source.text lines)[n]? = some c) {commands : List Command}
    (hcommands : c.command.expand = .ok commands) {is : List Instruction}
    (his : instructionsFrom p.symbols (Source.statementsBefore lines n)
      (commands.map (Statement.mk · c.number)) = .ok is) {k : Nat} {w : Word}
    (hk : (is.map Instruction.encode)[k]? = some w) :
    p.words[Source.statementsBefore lines n + k]? = some w := by
  obtain ⟨hlength, hinstructions⟩ := instructionsFrom_eq_ok his
  rw [List.length_map] at hlength
  have hlt : k < commands.length := by
    have hlt := (List.getElem?_eq_some_iff.1 hk).1
    rwa [List.length_map, hlength] at hlt
  have hcommand : commands[k]? = some commands[k] := List.getElem?_eq_getElem hlt
  obtain ⟨i, hi, hget⟩ := hinstructions (k := k) (s := ⟨commands[k], c.number⟩) (by simp [hcommand])
  obtain ⟨i', w', hi', hw', hdecode⟩ := h.instruction_of_text hc hcommands hcommand
  obtain rfl := Except.ok.inj (hi.symm.trans hi')
  rw [hw', ← Instruction.encode_of_decode hdecode]
  simpa [hget] using hk

namespace Machine

variable {σ : Type} {m : Machine σ} {p : Program} {lines : List String} {n : Nat}

/-- The machine has the program in memory and comes to a line of its text segment. -/
structure AtLine (m : Machine σ) (p : Program) (lines : List String) (n : Nat) : Prop where
  holds : m.cpu.memory.Holds 0 p.words
  fits : 4 * p.words.length ≤ 2 ^ 32
  pc : m.cpu.pc.toNat = 4 * Source.statementsBefore lines n

/-- A machine at a line can read the instructions of the line. -/
theorem AtLine.readsFrom (hm : m.AtLine p lines n) {seed : LabelTable}
    (h : p.Assembles lines seed) {c : Content} (hc : (Source.text lines)[n]? = some c)
    {commands : List Command} (hcommands : c.command.expand = .ok commands)
    {is : List Instruction}
    (his : instructionsFrom p.symbols (Source.statementsBefore lines n)
      (commands.map (Statement.mk · c.number)) = .ok is) :
    m.cpu.memory.ReadsFrom m.cpu.pc (is.map Instruction.encode) := by
  have hword : ∀ {k : Nat} {w : Word}, (is.map Instruction.encode)[k]? = some w →
      p.words[Source.statementsBefore lines n + k]? = some w := h.words_of_text hc hcommands his
  have hholds : m.cpu.memory.Holds (4 * Source.statementsBefore lines n)
      (is.map Instruction.encode) := by
    intro k w hk
    have hheld := hm.holds _ w (hword hk)
    rwa [Nat.zero_add, Nat.mul_add] at hheld
  refine hholds.readsFrom (by omega) hm.pc ?_
  -- The last word of the line is one of the program.
  have hfits := hm.fits
  cases hlength : (is.map Instruction.encode).length with
  | zero =>
    have hpc := m.cpu.pc.isLt
    rw [hm.pc] at hpc
    omega
  | succ k =>
    have hlast := hword (List.getElem?_eq_getElem (i := k) (by omega))
    have hinside := (List.getElem?_eq_some_iff.1 hlast).1
    omega

end Machine

end Risc32
