import Mathlib.Algebra.GroupWithZero.Nat
import Risc32.Proofs.Machine.Recording

/-!
# Frames

A call in compiled code is a run of the callee in the middle of the run of the caller. What is still
to be run somewhere in between is therefore no run of one routine. It is a run of frames: the
routine that is running, then the routine that waits for it, and so on (`Frame.runAll`).

The equations below take such a run one step further, and say which frames it is a run of from then
on. There is one for each way a step can go, as there is for a routine. `Frame.Succeeds` has the
frames that can come of one: a callee has as much fuel as its caller has left, so fuel alone does not
fall from step to step, but `Frame.weight` does.
-/

set_option autoImplicit false

namespace Risc32

variable {σ α : Type}

/-- A routine that is running or waits for a call to return, with the position where it goes on and
the fuel that it has. -/
structure Frame where
  fuel : Nat
  routine : Routine
  position : Nat

namespace Frame

/-- Runs what is left of each frame, the innermost first. -/
def runAll (calls : SystemCalls σ) (units : Array Routine) : List Frame → Exec (Guest σ) Unit
  | [] => pure ()
  | f :: rest => do
    f.routine.runFrom calls units f.fuel f.position
    runAll calls units rest

variable {calls : SystemCalls σ} {units : Array Routine} {r : Routine} {position : Nat} {st : Step}
  {g g' : Guest σ}

theorem runAll_cons (f : Frame) (rest : List Frame) (g : Guest σ) :
    runAll calls units (f :: rest) g =
      match f.routine.runFrom calls units f.fuel f.position g with
      | .ok _ g' => runAll calls units rest g'
      | .error halt g' => .error halt g' := by
  rw [runAll, Exec.bind_apply]
  cases f.routine.runFrom calls units f.fuel f.position g <;> rfl

theorem runAll_single (fuel : Nat) (r : Routine) (position : Nat) (g : Guest σ) :
    runAll calls units [⟨fuel, r, position⟩] g = r.runFrom calls units fuel position g := by
  rw [runAll_cons]
  cases r.runFrom calls units fuel position g <;> rfl

/-! ## One step -/

theorem runAll_of_outOfFuel (r : Routine) (position : Nat) (rest : List Frame) (g : Guest σ) :
    runAll calls units (⟨0, r, position⟩ :: rest) g = .error .outOfFuel g := by
  rw [runAll_cons]
  rfl

theorem runAll_of_none (fuel : Nat) (rest : List Frame) (g : Guest σ)
    (h : r.steps[position]? = none) :
    runAll calls units (⟨fuel + 1, r, position⟩ :: rest) g = runAll calls units rest g := by
  rw [runAll_cons, Routine.runFrom_of_none fuel g h]

theorem runAll_of_error {halt : Halt} (fuel : Nat) (rest : List Frame)
    (h : r.steps[position]? = some st) (hrun : st.run calls g = .error halt g') :
    runAll calls units (⟨fuel + 1, r, position⟩ :: rest) g = .error halt g' := by
  rw [runAll_cons, Routine.runFrom_of_error fuel h hrun]

theorem runAll_of_next (fuel : Nat) (rest : List Frame) (h : r.steps[position]? = some st)
    (hrun : st.run calls g = .ok .next g') :
    runAll calls units (⟨fuel + 1, r, position⟩ :: rest) g =
      runAll calls units (⟨fuel, r, position + 1⟩ :: rest) g' := by
  rw [runAll_cons, Routine.runFrom_of_next fuel h hrun, runAll_cons]

theorem runAll_of_jump {label : Nat} (fuel : Nat) (rest : List Frame)
    (h : r.steps[position]? = some st) (hrun : st.run calls g = .ok (.jump label) g') :
    runAll calls units (⟨fuel + 1, r, position⟩ :: rest) g =
      runAll calls units (⟨fuel, r, r.target label⟩ :: rest) g' := by
  rw [runAll_cons, Routine.runFrom_of_jump fuel h hrun, runAll_cons]

theorem runAll_of_leave (fuel : Nat) (rest : List Frame) (h : r.steps[position]? = some st)
    (hrun : st.run calls g = .ok .leave g') :
    runAll calls units (⟨fuel + 1, r, position⟩ :: rest) g = runAll calls units rest g' := by
  rw [runAll_cons, Routine.runFrom_of_leave fuel h hrun]

/-- The callee comes before its caller, which goes on behind the call. -/
theorem runAll_of_call {unit : Nat} {callee : Routine} (fuel : Nat) (rest : List Frame)
    (h : r.steps[position]? = some st) (hrun : st.run calls g = .ok (.call unit) g')
    (hcallee : units[unit]? = some callee) :
    runAll calls units (⟨fuel + 1, r, position⟩ :: rest) g =
      runAll calls units (⟨fuel, callee, 0⟩ :: ⟨fuel, r, position + 1⟩ :: rest) g' := by
  rw [runAll_cons, Routine.runFrom_of_call fuel h hrun hcallee, runAll_cons]
  cases callee.runFrom calls units fuel 0 g' with
  | ok a g'' => exact (runAll_cons ⟨fuel, r, position + 1⟩ rest g'').symm
  | error halt g'' => rfl

/-! ## Fuel -/

/-- The frames that a step can leave of a frame with the fuel `fuel + 1`, in front of those that
wait for it. -/
inductive Succeeds (fuel : Nat) (rest : List Frame) : List Frame → Prop where
  | left : Succeeds fuel rest rest
  | went (r : Routine) (position : Nat) : Succeeds fuel rest (⟨fuel, r, position⟩ :: rest)
  | called (callee r : Routine) (position : Nat) :
      Succeeds fuel rest (⟨fuel, callee, 0⟩ :: ⟨fuel, r, position⟩ :: rest)

/-- Every frame has fuel for `n` steps. -/
def Enough (n : Nat) (frames : List Frame) : Prop :=
  ∀ f ∈ frames, n ≤ f.fuel

theorem enough_single (fuel : Nat) (r : Routine) (position : Nat) :
    Enough fuel [⟨fuel, r, position⟩] :=
  List.forall_mem_singleton.2 (Nat.le_refl fuel)

theorem Succeeds.enough {fuel n : Nat} {rest frames : List Frame} (h : Succeeds fuel rest frames)
    (henough : Enough (n + 1) (⟨fuel + 1, r, position⟩ :: rest)) : Enough n frames := by
  have htop : n ≤ fuel := Nat.le_of_succ_le_succ (henough _ List.mem_cons_self)
  have hrest : Enough n rest := fun f hf =>
    Nat.le_of_succ_le (henough f (List.mem_cons_of_mem _ hf))
  cases h with
  | left => exact hrest
  | went r position => exact List.forall_mem_cons.2 ⟨htop, hrest⟩
  | called callee r position =>
    exact List.forall_mem_cons.2 ⟨htop, List.forall_mem_cons.2 ⟨htop, hrest⟩⟩

/-- A bound on the steps that frames can take. A frame with one unit of fuel more weighs as much as
three without it, and a call makes two of one. -/
def weight (frames : List Frame) : Nat :=
  (frames.map fun f => 3 ^ f.fuel).sum

theorem weight_cons (f : Frame) (rest : List Frame) :
    weight (f :: rest) = 3 ^ f.fuel + weight rest := by
  rw [weight, List.map_cons, List.sum_cons]
  rfl

theorem Succeeds.weight_lt {fuel : Nat} {rest frames : List Frame}
    (h : Succeeds fuel rest frames) (r : Routine) (position : Nat) :
    weight frames < weight (⟨fuel + 1, r, position⟩ :: rest) := by
  have hpos : 0 < 3 ^ fuel := Nat.pow_pos (by decide)
  have hsucc : 3 ^ (fuel + 1) = 3 * 3 ^ fuel := by rw [Nat.pow_succ, Nat.mul_comm]
  rw [weight_cons]
  dsimp only
  cases h with
  | left => omega
  | went r position =>
    rw [weight_cons]
    dsimp only
    omega
  | called callee r position =>
    rw [weight_cons, weight_cons]
    dsimp only
    omega

/-! ## Records -/

theorem runAll_forget (view : Processor → α) (t : SystemCalls σ) (units : Array Routine)
    (frames : List Frame) (g : Guest (σ × CallRecord α)) :
    runAll t units frames g.forget =
      Exec.mapState Guest.forget (runAll (t.recording view) units frames g) := by
  induction frames generalizing g with
  | nil => rfl
  | cons f rest ih =>
    rw [runAll_cons, runAll_cons, Routine.runFrom_forget view]
    cases f.routine.runFrom (t.recording view) units f.fuel f.position g with
    | ok a g' => exact ih g'
    | error halt g' => rfl

end Frame

end Risc32
