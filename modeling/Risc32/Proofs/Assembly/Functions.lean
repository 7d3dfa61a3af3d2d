import Risc32.Proofs.Assembly.Symbols

/-!
# The functions of a program

What the function table of an assembled program says about its source. An entry is a label of text
that is called by its name, which is neither a name of the seed nor one of data. From there a
function goes to the first return. Functions do not overlap, and a label that is called is in one of
them unless there is no return from it on (`Program.functions_ofLines`).

A label inside of a function may well be called. It has no entry of its own then.
-/

set_option autoImplicit false

namespace Risc32

open Assembly

namespace Program

theorem Assembles.functionsOf {p : Program} {lines : List String} {seed : LabelTable}
    (h : p.Assembles lines seed) :
    ∃ entries, (∀ address, address ∈ entries ↔ Source.IsCalled lines address) ∧
      FunctionsOf entries (Source.statements lines) p.functions := by
  obtain ⟨entries, hentries, hfunctions⟩ := h.functions
  refine ⟨entries, hentries, ?_⟩
  rw [hfunctions]
  exact functionsOf_functionsFrom entries (Source.statements lines)

/-- A label of text shares its name with nothing else. -/
theorem Assembles.text_of_mem {p : Program} {lines : List String} {seed : LabelTable}
    (h : p.Assembles lines seed) {name : String} {address : Nat}
    (hname : (name, address) ∈ Source.textLabels lines) :
    name ∉ seed.entries.map (·.1) ∧ name ∉ (Source.data lines).filterMap (·.label) := by
  have hmem : name ∈ (Source.text lines).filterMap (·.label) := by
    rw [← Source.map_fst_labelsFrom 0]
    exact List.mem_map_of_mem hname
  obtain ⟨hnodup, -, hseed⟩ := List.nodup_append.1 h.nodup_definedNames
  obtain ⟨-, -, hdata⟩ := List.nodup_append.1 hnodup
  constructor
  · intro hin
    exact hseed name (List.mem_append_right _ hmem) name hin rfl
  · intro hin
    exact hdata name hin name hmem rfl

/-- **The functions of a program.** Every function begins at a label of text that some statement
calls, whose name is neither in the seed nor that of a label of data. It has a last statement, which
is a return and the only one in it. Functions lie inside of the text and do not overlap. Every label
of text that is called is in a function, or there is no return from it on. -/
theorem functions_ofLines {lines : List String} {seed : LabelTable} {p : Program}
    (h : ofLines lines seed = .ok p) :
    (∀ x ∈ p.functions.extents,
      (∃ name, (name, x.entry) ∈ Source.textLabels lines ∧
        (∃ s ∈ Source.statements lines, s.mnemonic = "call" ∧ s.operands.head? = some name) ∧
        name ∉ seed.entries.map (·.1) ∧ name ∉ (Source.data lines).filterMap (·.label)) ∧
      1 ≤ x.size ∧
      ReturnsAt (Source.statements lines) (x.entry / 4 + x.size - 1) ∧
      (∀ k, x.entry / 4 ≤ k → k < x.entry / 4 + x.size - 1 →
        ¬ReturnsAt (Source.statements lines) k) ∧
      x.entry % 4 = 0 ∧ x.stop ≤ p.textEnd) ∧
    p.functions.extents.Pairwise (·.stop ≤ ·.entry) ∧
    ∀ address, Source.IsCalled lines address →
      (∃ x ∈ p.functions.extents, x.entry ≤ address ∧ address < x.stop) ∨
        ∀ k, address / 4 ≤ k → ¬ReturnsAt (Source.statements lines) k := by
  have hassembles := assembles_ofLines h
  obtain ⟨entries, hentries, hfunctions⟩ := hassembles.functionsOf
  refine ⟨?_, hfunctions.apart, ?_⟩
  · intro x hx
    have hfunction := hfunctions.sound x hx
    obtain ⟨name, hname, hcalled⟩ := (hentries x.entry).1 hfunction.entry
    refine ⟨⟨name, hname, hcalled, hassembles.text_of_mem hname⟩, hfunction.nonempty,
      hfunction.returns, hfunction.earlier, hfunction.aligned, ?_⟩
    obtain ⟨s, hs, -⟩ := hfunction.returns
    have hlt := (List.getElem?_eq_some_iff.1 hs).1
    have haligned := hfunction.aligned
    have hnonempty := hfunction.nonempty
    rw [Extent.stop, textEnd, hassembles.written.length]
    omega
  · intro address hcalled
    -- Labels of text stand at whole instructions.
    obtain ⟨index, rfl⟩ : ∃ index, address = 4 * index := by
      obtain ⟨name, hname, -⟩ := hcalled
      obtain ⟨index, c, -, -, haddress⟩ := Source.mem_textLabels_iff.1 hname
      exact ⟨_, haddress⟩
    rw [Nat.mul_div_cancel_left index (by decide : 0 < 4)]
    exact hfunctions.complete index ((hentries _).2 hcalled)

/-- A function with a label inside that is called as well, a label that is called and never returns,
and a call to a name of the seed. -/
def nested : List String := [
  "main:  call outer",
  "       call inner",
  "       call putchar",
  "       call tail",
  "       br   done",
  "outer: addi r1, r1, 1",
  "inner: addi r2, r2, 1",
  "       ret",
  "done:  nop",
  "tail:  br   done"]

/-- A seed with the name of a system call. -/
def nestedSeed : LabelTable :=
  ⟨[("putchar", 5000)], by simp⟩

/-- In `nested`, the one function is `outer`. The label `inner` lies in it, and there is no return
from `tail` on. -/
theorem functions_ofLines_nested :
    ∃ p, ofLines nested nestedSeed = .ok p ∧
      ⟨20, 3⟩ ∈ p.functions.extents ∧ ReturnsAt (Source.statements nested) 7 ∧
      Source.IsCalled nested 24 ∧
      ((∃ x ∈ p.functions.extents, x.entry ≤ 24 ∧ 24 < x.stop) ∨
        ∀ k, 6 ≤ k → ¬ReturnsAt (Source.statements nested) k) ∧
      Source.IsCalled nested 36 ∧
      ((∃ x ∈ p.functions.extents, x.entry ≤ 36 ∧ 36 < x.stop) ∨
        ∀ k, 9 ≤ k → ¬ReturnsAt (Source.statements nested) k) := by
  have haccepted : (ofLines nested nestedSeed).toOption.any fun p =>
      decide (⟨20, 3⟩ ∈ p.functions.extents) := by decide +kernel
  obtain ⟨p, h, houter⟩ := any_toOption haccepted
  have houter : ⟨20, 3⟩ ∈ p.functions.extents := of_decide_eq_true houter
  have hinner : Source.IsCalled nested 24 :=
    ⟨"inner", by decide +kernel, ⟨⟨"call", ["inner"]⟩, 1⟩, by decide +kernel, rfl, rfl⟩
  have htail : Source.IsCalled nested 36 :=
    ⟨"tail", by decide +kernel, ⟨⟨"call", ["tail"]⟩, 3⟩, by decide +kernel, rfl, rfl⟩
  obtain ⟨hsound, -, hcomplete⟩ := functions_ofLines h
  exact ⟨p, h, houter, (hsound _ houter).2.2.1, hinner, hcomplete 24 hinner, htail,
    hcomplete 36 htail⟩

end Program

end Risc32
