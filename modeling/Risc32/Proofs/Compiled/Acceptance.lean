import Risc32.Proofs.Compiled.Listing
import Risc32.Proofs.Machine.Execution

/-!
# What can be compiled

The builder refuses in three places. A word may have no step of its own, a branch may go in front of
the first instruction, and a label may still be unbound when the last word has been added. The last
of these comes to light only when the routine is finished, and which index it is about depends on
everything that was added.

Seen from the listing there is one condition for each instruction. `Surroundings.Accepts` says what
an instruction needs, given the indices that have a position, and a listing is compiled exactly if
all of its words decode to instructions that are accepted (`Listing.exists_compile_iff`). In the
builder this comes down to one invariant: every label that was asked for has a position in the
listing as a whole, be it in front of the word that asks or behind it.
-/

set_option autoImplicit false

namespace Risc32

/-! ## Instructions -/

namespace Instruction

/-- Whether the instruction calls the function that its word names. -/
def isCall : Instruction → Bool
  | jump op _ => op == .call
  | _ => false

/-- Whether the instruction calls the function whose address is in a register. -/
def isCallRegister : Instruction → Bool
  | register op _ => op == .callr
  | _ => false

/-- The index that a branch goes to if it is taken, which may lie in front of the code. A branch
whose offset is no multiple of four goes nowhere, for it faults. -/
def branchTarget? (i : Instruction) (index : Nat) : Option Int :=
  match i with
  | immediate op f =>
    match op.role with
    | .branch _ => if f.signed.toInt % 4 = 0 then some (index + f.signed.toInt / 4 + 1) else none
    | _ => none
  | _ => none

theorem isCallRegister_register (op : ExtendedOpcode) (f : RegisterForm) :
    (register op f).isCallRegister ↔ op.role = .callRegister := by
  cases op <;> simp [isCallRegister, ExtendedOpcode.role]

theorem branchTarget?_eq_some_iff {i : Instruction} {index : Nat} {target : Int} :
    i.branchTarget? index = some target ↔ ∃ op f condition, i = immediate op f ∧
      op.role = .branch condition ∧ f.signed.toInt % 4 = 0 ∧
      target = index + f.signed.toInt / 4 + 1 := by
  constructor
  · intro h
    cases i with
    | immediate op f =>
      cases hrole : op.role with
      | branch condition =>
        by_cases aligned : f.signed.toInt % 4 = 0
        · simp only [branchTarget?, hrole, if_pos aligned, Option.some.injEq] at h
          exact ⟨op, f, condition, rfl, hrole, aligned, h.symm⟩
        · simp [branchTarget?, hrole, aligned] at h
      | _ => simp [branchTarget?, hrole] at h
    | register op f => cases h
    | jump op f => cases h
  · rintro ⟨op, f, condition, rfl, role, aligned, rfl⟩
    simp [branchTarget?, role, aligned]

end Instruction

namespace Surroundings

/-- A call to the address can be linked. -/
def Links (s : Surroundings) (target : Word) : Prop :=
  ∃ functions systemCalls, s.linkage = .units functions systemCalls ∧
    ((s.unit? functions target).isSome ∨ target ∈ systemCalls)

/-- The instruction at the index can be compiled among others that take up the bound indices. -/
structure Accepts (s : Surroundings) (bound : Nat → Prop) (index : Nat) (i : Instruction) :
    Prop where
  callRegister : i.isCallRegister = false
  call : ∀ op f, i = .jump op f → s.Links (f.target (codeAddress s.base (index + 1)))
  branch : ∀ target, i.branchTarget? index = some target →
    ∃ n : Nat, target = n ∧ bound n

theorem Accepts.mono {s : Surroundings} {bound bound' : Nat → Prop} {index : Nat}
    {i : Instruction} (h : s.Accepts bound index i) (hle : ∀ n, bound n → bound' n) :
    s.Accepts bound' index i where
  callRegister := h.callRegister
  call := h.call
  branch target htarget := by
    obtain ⟨n, hn, hbound⟩ := h.branch target htarget
    exact ⟨n, hn, hle n hbound⟩

end Surroundings

/-- What has a step is accepted, if the labels of steps stand for bound indices. -/
theorem Renders.accepts {s : Surroundings} {index : Nat} {goes : Nat → Nat → Prop}
    {bound : Nat → Prop} {i : Instruction} {st : Step} (h : Renders s index goes i st)
    (hgoes : ∀ label target, goes label target → bound target) : s.Accepts bound index i := by
  refine ⟨?_, ?_, ?_⟩
  · cases h with
    | compute role | shift role | returnTo role exit | leave role exit =>
      rw [← Bool.not_eq_true, Instruction.isCallRegister_register, role]
      rintro ⟨⟩
    | _ => rfl
  · rintro op f rfl
    cases h with
    | callUnit linkage found => exact ⟨_, _, linkage, .inl (by rw [found]; rfl)⟩
    | callSystem linkage absent found => exact ⟨_, _, linkage, .inr found⟩
  · intro target htarget
    obtain ⟨op, f, condition, rfl, role, aligned, rfl⟩ :=
      Instruction.branchTarget?_eq_some_iff.1 htarget
    cases h with
    | branch role' aligned' distance label_goes =>
      exact ⟨_, distance.symm, hgoes _ _ label_goes⟩
    | misalignedBranch role' misaligned => exact absurd aligned misaligned
    | computeWith role' | access role' => cases role.symm.trans role'

/-! ## The builder -/

namespace Builder

/-- Every label that was asked for stands for one of the indices. -/
def LabelsWithin (b : Builder) (bound : Nat → Prop) : Prop :=
  ∀ request ∈ b.labels, bound request.target

variable {b b' : Builder} {s : Surroundings} {bound : Nat → Prop} {index : Nat} {i : Instruction}

theorem LabelsWithin.labelFor (h : b.LabelsWithin bound) {n : Nat} (hn : bound n) :
    ∃ label b', b.labelFor n = .ok (label, b') ∧ b'.LabelsWithin bound := by
  rcases labelFor_cases b n with ⟨r, -, -, hold⟩ | ⟨-, hnew⟩
  · exact ⟨_, b, hold, h⟩
  · refine ⟨_, _, hnew, ?_⟩
    intro request hrequest
    rcases Array.mem_push.1 hrequest with hold | rfl
    · exact h request hold
    · exact hn

/-- An instruction that is accepted is compiled. -/
theorem LabelsWithin.add (h : b.LabelsWithin bound) (hhandled : i.Handled)
    (haccepts : b.surroundings.Accepts bound b.index i) :
    ∃ b', b.add i = .ok b' ∧ b'.LabelsWithin bound := by
  cases hhandled with
  | @compute op f g role =>
    refine ⟨b.push (.computeWith g f.b f.a (op.operand f.immediate)), ?_, h⟩
    simp only [Builder.add, role]
    rfl
  | @access op f kind role =>
    refine ⟨b.push (.access kind (b.site op.name) f.b f.a f.signed), ?_, h⟩
    simp only [Builder.add, role]
    rfl
  | @branch op f condition role =>
    simp only [Builder.add, role, addBranch]
    by_cases aligned : f.signed.toInt % 4 = 0
    · obtain ⟨n, hn, hbound⟩ := haccepts.branch _
        (Instruction.branchTarget?_eq_some_iff.2 ⟨op, f, condition, rfl, role, aligned, rfl⟩)
      obtain ⟨label, b₁, hlabel, hwithin⟩ := h.labelFor hbound
      refine ⟨b₁.push (.branch condition f.a f.b label), ?_, hwithin⟩
      rw [if_pos aligned, hn]
      exact bind_eq_ok.2 ⟨_, hlabel, rfl⟩
    · exact ⟨_, if_neg aligned, h⟩
  | register op f =>
    cases role : op.role with
    | compute g =>
      refine ⟨b.push (.compute g f.c f.a f.b), ?_, h⟩
      simp only [Builder.add, role]
      rfl
    | shift g =>
      refine ⟨b.push (.computeWith g f.c f.a f.amount), ?_, h⟩
      simp only [Builder.add, role]
      rfl
    | ret =>
      simp only [Builder.add, role]
      cases b.exit with
      | toInterpreter => exact ⟨_, rfl, h⟩
      | toCaller => exact ⟨_, rfl, h⟩
    | callRegister =>
      have hcall := haccepts.callRegister
      rw [(Instruction.isCallRegister_register op f).2 role] at hcall
      cases hcall
  | @call op f role =>
    obtain ⟨functions, systemCalls, hlink, hlinks⟩ := haccepts.call op f rfl
    have hlinks : (b.surroundings.unit? functions (f.target b.nextAddress)).isSome ∨
        f.target b.nextAddress ∈ systemCalls := hlinks
    simp only [Builder.add, role]
    rw [addCall_of_units hlink]
    cases hunit : b.surroundings.unit? functions (f.target b.nextAddress) with
    | some unit => exact ⟨_, rfl, h⟩
    | none =>
      have hknown : f.target b.nextAddress ∈ systemCalls := by
        rw [hunit] at hlinks
        exact hlinks.resolve_left Bool.false_ne_true
      refine ⟨_, if_pos (List.contains_iff_mem.2 hknown), h⟩

theorem LabelsWithin.addWord (h : b.LabelsWithin bound) {w : Word}
    (hdecode : Instruction.decode w = some i) (haccepts : b.surroundings.Accepts bound index i) :
    ∃ b', b.addWord index w = .ok b' ∧ b'.LabelsWithin bound := by
  have hentered : (b.enter index).LabelsWithin bound := h
  obtain ⟨b', hadd, hwithin⟩ := hentered.add (Instruction.handled_of_decode hdecode) haccepts
  refine ⟨b', ?_, hwithin⟩
  rw [Builder.addWord, hdecode]
  exact hadd

theorem surroundings_addWord {w : Word} (h : b.addWord index w = .ok b') :
    b'.surroundings = b.surroundings ∧ b'.bindings = (index, b.steps.size) :: b.bindings := by
  rw [Builder.addWord] at h
  cases hdecode : Instruction.decode w with
  | none => simp [hdecode] at h
  | some i =>
    simp only [hdecode] at h
    obtain ⟨st, happends, -⟩ := add_renders h
    exact ⟨happends.surroundings, happends.bindings⟩

/-- A listing whose words are accepted is compiled, word after word. -/
theorem LabelsWithin.addAll (h : b.LabelsWithin bound) {code : Listing}
    (haccepts : ∀ w index, (w, index) ∈ code →
      ∃ i, Instruction.decode w = some i ∧ b.surroundings.Accepts bound index i) :
    ∃ b', b.addAll code = .ok b' ∧ b'.LabelsWithin bound := by
  induction code generalizing b with
  | nil => exact ⟨b, rfl, h⟩
  | cons x code ih =>
    obtain ⟨w, index⟩ := x
    obtain ⟨i, hdecode, hi⟩ := haccepts w index List.mem_cons_self
    obtain ⟨b₁, hb₁, hwithin⟩ := h.addWord hdecode hi
    have hsurroundings := (surroundings_addWord hb₁).1
    obtain ⟨b', hb', hwithin'⟩ := ih hwithin fun w' index' hmem => by
      rw [hsurroundings]
      exact haccepts w' index' (List.mem_cons_of_mem _ hmem)
    refine ⟨b', ?_, hwithin'⟩
    rw [Builder.addAll, List.foldlM_cons]
    exact bind_eq_ok.2 ⟨b₁, hb₁, hb'⟩

/-- The indices of a listing are bound once it has been added. -/
theorem fst_bindings_addAll {code : Listing} (h : b.addAll code = .ok b') :
    b'.bindings.map Prod.fst = (code.map Prod.snd).reverse ++ b.bindings.map Prod.fst := by
  induction code generalizing b with
  | nil =>
    obtain rfl : b = b' := Except.ok.inj h
    rfl
  | cons x code ih =>
    rw [Builder.addAll, List.foldlM_cons] at h
    obtain ⟨b₁, hb₁, h⟩ := bind_eq_ok.1 h
    rw [ih h, (surroundings_addWord hb₁).2]
    simp

theorem isSome_position?_iff : (b.position? index).isSome ↔ index ∈ b.bindings.map Prod.fst := by
  rw [position?, ← Bool.not_eq_false, Option.isSome_eq_false_iff, Option.isNone_iff_eq_none,
    List.lookup_eq_none_iff]
  simp

theorem exists_foldlM_place_iff {requests : List LabelRequest} {targets : Array Nat} :
    (∃ targets', requests.foldlM b.place targets = .ok targets') ↔
      ∀ request ∈ requests, (b.position? request.target).isSome := by
  induction requests generalizing targets with
  | nil => exact iff_of_true ⟨targets, rfl⟩ fun _ h => absurd h List.not_mem_nil
  | cons request requests ih =>
    rw [List.forall_mem_cons, List.foldlM_cons, Option.isSome_iff_exists]
    simp only [bind_eq_ok, place_eq_ok_iff]
    constructor
    · rintro ⟨targets', _, ⟨position, hposition, rfl⟩, h⟩
      exact ⟨⟨position, hposition⟩, ih.1 ⟨targets', h⟩⟩
    · rintro ⟨⟨position, hposition⟩, h⟩
      obtain ⟨targets', h⟩ := ih.2 h
      exact ⟨targets', _, ⟨position, hposition, rfl⟩, h⟩

/-- A routine can be finished if all of its labels were bound. -/
theorem exists_toRoutine_iff (entry : Word) :
    (∃ r, b.toRoutine entry = .ok r) ↔
      b.LabelsWithin fun target => (b.position? target).isSome := by
  calc (∃ r, b.toRoutine entry = .ok r)
      ↔ ∃ targets, b.labels.toList.foldlM b.place (Array.replicate b.labels.size 0) =
          .ok targets := by
        simp only [toRoutine, bind_eq_ok]
        constructor
        · rintro ⟨r, targets, h, -⟩
          exact ⟨targets, h⟩
        · rintro ⟨targets, h⟩
          exact ⟨_, targets, h, rfl⟩
    _ ↔ ∀ request ∈ b.labels.toList, (b.position? request.target).isSome :=
        exists_foldlM_place_iff
    _ ↔ b.LabelsWithin fun target => (b.position? target).isSome := by
        simp only [LabelsWithin, Array.mem_toList_iff]

end Builder

/-! ## Listings -/

namespace Listing

/-- A branch can go to the index. -/
def Binds (code : Listing) (stop : Option Nat) (index : Nat) : Prop :=
  ∃ position, code.Position stop index position

theorem binds_iff {code : Listing} {stop : Option Nat} {index : Nat} :
    code.Binds stop index ↔ index ∈ code.map Prod.snd ∨ stop = some index := by
  constructor
  · rintro ⟨position, ⟨w, hw⟩ | ⟨hstop, -⟩⟩
    · exact .inl (List.mem_map.2 ⟨(w, index), List.mem_of_getElem? hw, rfl⟩)
    · exact .inr hstop
  · rintro (hmem | hstop)
    · obtain ⟨⟨w, index⟩, hx, rfl⟩ := List.mem_map.1 hmem
      obtain ⟨position, hposition⟩ := List.getElem?_of_mem hx
      exact ⟨position, .inl ⟨w, hposition⟩⟩
    · exact ⟨code.length, .inr ⟨hstop, rfl⟩⟩

/-- The words of a function take up the indices in a row. -/
theorem binds_zipIdx_iff {ws : List Word} {first index : Nat} :
    Listing.Binds (ws.zipIdx first) none index ↔ first ≤ index ∧ index < first + ws.length := by
  rw [binds_iff, List.zipIdx_map_snd]
  simp

theorem mem_zipIdx_iff {ws : List Word} {first index : Nat} {w : Word} :
    (w, index) ∈ ws.zipIdx first ↔ first ≤ index ∧ ws[index - first]? = some w :=
  List.mem_zipIdx_iff_le_and_getElem?_sub

/-- Adds the words of a listing, and binds the index past it if there is one. -/
def build (code : Listing) (s : Surroundings) (stop : Option Nat) :
    Except CompileError Builder := do
  let b ← (Builder.new s.base s.exit s.linkage).addAll code
  return match stop with
    | none => b
    | some index => b.bind index

/-- Compiles a listing to a routine. -/
def compile (code : Listing) (s : Surroundings) (stop : Option Nat) (entry : Word) :
    Except CompileError Routine := do
  let b ← code.build s stop
  b.toRoutine entry

theorem compile_none (code : Listing) (s : Surroundings) (entry : Word) :
    code.compile s none entry =
      (Builder.new s.base s.exit s.linkage).addAll code >>= fun b => b.toRoutine entry := by
  rw [compile, build]
  cases (Builder.new s.base s.exit s.linkage).addAll code <;> rfl

end Listing

/-- The steps of the routine render the words of the listing, and every label that a step knows is
one of the routine's. A routine that realizes a listing could be without the label. -/
structure Routine.Resolves (r : Routine) (s : Surroundings) (code : Listing) (stop : Option Nat) :
    Prop where
  size : r.size = code.length
  step : ∀ {position index : Nat} {w : Word}, code[position]? = some (w, index) →
    ∃ i st, Instruction.decode w = some i ∧ r.steps[position]? = some st ∧
      Renders s index (fun label target =>
        ∃ q, r.targets[label]? = some q ∧ code.Position stop target q) i st

theorem Routine.Resolves.realizes {r : Routine} {s : Surroundings} {code : Listing}
    {stop : Option Nat} (h : r.Resolves s code stop) : r.Realizes s code stop where
  size := h.size
  step hword := by
    obtain ⟨i, st, hi, hst, hrenders⟩ := h.step hword
    refine ⟨i, st, hi, hst, hrenders.mono ?_⟩
    rintro label target ⟨q, hq, hposition⟩
    rwa [Routine.target, Array.getD_eq_getD_getElem?, hq]

namespace Builder

/-- The builder has compiled the words of the listing and bound their indices. -/
structure Builds (b : Builder) (s : Surroundings) (code : Listing) (stop : Option Nat) : Prop where
  numbered : b.Numbered
  size : b.steps.size = code.length
  step : ∀ {position index : Nat} {w : Word}, code[position]? = some (w, index) →
    ∃ i st, Instruction.decode w = some i ∧ b.steps[position]? = some st ∧
      Renders s index b.Labelled i st
  position : ∀ {index position : Nat}, b.position? index = some position →
    code.Position stop index position
  binds : ∀ index, (b.position? index).isSome ↔ code.Binds stop index

variable {b : Builder} {s : Surroundings} {code : Listing} {stop : Option Nat} {entry : Word}
  {r : Routine}

theorem builds_of_build (h : code.build s stop = .ok b) : b.Builds s code stop := by
  obtain ⟨b₀, hall, h⟩ := bind_eq_ok.1 h
  have htranslates := (translates_new s.base s.exit s.linkage).addAll hall
  have hbindings : b₀.bindings.map Prod.fst = (code.map Prod.snd).reverse := by
    rw [fst_bindings_addAll hall]
    simp [new]
  cases stop with
  | none =>
    obtain rfl := Except.ok.inj h
    refine ⟨htranslates.numbered, htranslates.size, htranslates.step,
      fun hp => .inl (htranslates.position hp), ?_⟩
    intro index
    rw [isSome_position?_iff, hbindings, List.mem_reverse, Listing.binds_iff]
    simp
  | some last =>
    obtain rfl := Except.ok.inj h
    refine ⟨htranslates.numbered, htranslates.size, htranslates.step, htranslates.position_bind, ?_⟩
    intro index
    have hbound : (b₀.bind last).bindings.map Prod.fst = last :: (code.map Prod.snd).reverse :=
      congrArg (last :: ·) hbindings
    rw [isSome_position?_iff, hbound, List.mem_cons, List.mem_reverse, Listing.binds_iff,
      Option.some.injEq, eq_comm (b := last), or_comm]

/-- What was built becomes a routine that resolves the listing. -/
theorem Builds.resolves (hb : b.Builds s code stop) (h : b.toRoutine entry = .ok r) :
    r.entry = entry ∧ r.Resolves s code stop := by
  obtain ⟨hentry, hsteps, -, hlabels⟩ := hb.numbered.toRoutine_eq_ok h
  refine ⟨hentry, (congrArg Array.size hsteps).trans hb.size, ?_⟩
  intro position index w hcode
  obtain ⟨i, st, hi, hst, hrenders⟩ := hb.step hcode
  refine ⟨i, st, hi, by rw [hsteps, hst], hrenders.mono ?_⟩
  intro label target hlabel
  obtain ⟨q, hq, hposition⟩ := hlabels hlabel
  exact ⟨q, hq, hb.position hposition⟩

/-- Words that are accepted are built. -/
theorem exists_build_of_accepts {bound : Nat → Prop} (stop : Option Nat)
    (h : ∀ w index, (w, index) ∈ code →
      ∃ i, Instruction.decode w = some i ∧ s.Accepts bound index i) :
    ∃ b, code.build s stop = .ok b ∧ b.LabelsWithin bound := by
  have hnew : (new s.base s.exit s.linkage).LabelsWithin bound := by
    intro request hrequest
    simp [new] at hrequest
  obtain ⟨b, hb, hwithin⟩ := hnew.addAll h
  refine ⟨_, bind_eq_ok.2 ⟨b, hb, rfl⟩, ?_⟩
  cases stop with
  | none => exact hwithin
  | some index => exact hwithin

end Builder

variable {s : Surroundings} {code : Listing} {stop : Option Nat} {r : Routine}

/-- Every word of a listing that was resolved is accepted. -/
theorem Routine.Resolves.accepts (h : r.Resolves s code stop) {w : Word} {index : Nat}
    (hmem : (w, index) ∈ code) :
    ∃ i, Instruction.decode w = some i ∧ s.Accepts (code.Binds stop) index i := by
  obtain ⟨position, hposition⟩ := List.getElem?_of_mem hmem
  obtain ⟨i, st, hi, -, hrenders⟩ := h.step hposition
  exact ⟨i, hi, hrenders.accepts fun label target ⟨q, _, hq⟩ => ⟨q, hq⟩⟩

/-- A routine comes of a listing exactly if every word is accepted. -/
theorem Listing.exists_compile_iff (entry : Word) :
    (∃ r, code.compile s stop entry = .ok r) ↔ ∀ w index, (w, index) ∈ code →
      ∃ i, Instruction.decode w = some i ∧ s.Accepts (code.Binds stop) index i := by
  constructor
  · rintro ⟨r, h⟩ w index hmem
    obtain ⟨b, hb, h⟩ := bind_eq_ok.1 h
    exact ((Builder.builds_of_build hb).resolves h).2.accepts hmem
  · intro h
    obtain ⟨b, hb, hwithin⟩ := Builder.exists_build_of_accepts stop h
    have hbuilds := Builder.builds_of_build hb
    obtain ⟨r, hr⟩ := (Builder.exists_toRoutine_iff entry).2 fun request hrequest =>
      (hbuilds.binds request.target).2 (hwithin request hrequest)
    exact ⟨r, bind_eq_ok.2 ⟨b, hb, hr⟩⟩

/-- The routine has a step for each word. -/
theorem Listing.compile_eq_ok {entry : Word} (h : code.compile s stop entry = .ok r) :
    r.entry = entry ∧ r.Resolves s code stop := by
  obtain ⟨b, hb, h⟩ := bind_eq_ok.1 h
  exact (Builder.builds_of_build hb).resolves h

end Risc32
