import Risc32.Exec

/-!
# Sequenced computations

What a `do` block amounts to. A sequence in `Except` succeeds exactly if each part does, which
takes an assumption "the whole has succeeded" apart into one for each part. An execution applied
to a state can be run on the page: the equations below say what each primitive makes of a state,
and `simp` puts them together.
-/

set_option autoImplicit false

namespace Risc32

theorem bind_eq_ok {ε α β : Type} {x : Except ε α} {f : α → Except ε β} {b : β} :
    (x >>= f) = .ok b ↔ ∃ a, x = .ok a ∧ f a = .ok b := by
  cases x with
  | error e => simp [bind, Except.bind]
  | ok a => simp [bind, Except.bind]

/-- A sequence fails where its first part does, or where the second does behind it. -/
theorem bind_eq_error {ε α β : Type} {x : Except ε α} {f : α → Except ε β} {e : ε} :
    (x >>= f) = .error e ↔ x = .error e ∨ ∃ a, x = .ok a ∧ f a = .error e := by
  cases x with
  | error e' => simp [bind, Except.bind]
  | ok a => simp [bind, Except.bind]

/-- What is refused under a condition has succeeded if it holds. -/
theorem ite_eq_ok {ε α : Type} {P : Prop} [Decidable P] {a b : α} {e : ε} :
    (if P then .ok a else .error e : Except ε α) = .ok b ↔ P ∧ a = b := by
  by_cases h : P
  · simp [h]
  · simp [h]

theorem toOption_eq_some_iff {ε α : Type} {x : Except ε α} {a : α} :
    x.toOption = some a ↔ x = .ok a := by
  cases x <;> simp [Except.toOption]

theorem toOption_bind {ε α β : Type} (x : Except ε α) (f : α → Except ε β) :
    (x >>= f).toOption = x.toOption.bind fun a => (f a).toOption := by
  cases x <;> rfl

/-- An answer that is asked a question has been given. -/
theorem any_toOption {ε α : Type} {x : Except ε α} {ask : α → Bool} (h : x.toOption.any ask) :
    ∃ a, x = .ok a ∧ ask a := by
  cases x with
  | error e => cases h
  | ok a => exact ⟨a, rfl, h⟩

/-- Whether something has failed with an error can be decided, whatever it would have given. -/
instance decidableEqError {ε α : Type} [DecidableEq ε] (x : Except ε α) (e : ε) :
    Decidable (x = .error e) :=
  match x with
  | .ok _ => isFalse (by rintro ⟨⟩)
  | .error e' => decidable_of_iff (e' = e) (by simp)

/-- A list of computations has succeeded if each of them has, and the results stand in order. -/
theorem mapM_eq_ok {ε α β : Type} {f : α → Except ε β} {l : List α} {l' : List β}
    (h : l.mapM f = .ok l') :
    l'.length = l.length ∧
      ∀ (i : Nat) (a : α), l[i]? = some a → ∃ b, f a = .ok b ∧ l'[i]? = some b := by
  induction l generalizing l' with
  | nil =>
    obtain rfl : l' = [] := by simpa [pure, Except.pure] using h.symm
    exact ⟨rfl, fun i a ha => by simp at ha⟩
  | cons a rest ih =>
    rw [List.mapM_cons] at h
    obtain ⟨b, hb, h⟩ := bind_eq_ok.1 h
    obtain ⟨bs, hbs, h⟩ := bind_eq_ok.1 h
    obtain rfl : b :: bs = l' := Except.ok.inj h
    obtain ⟨hlength, hrest⟩ := ih hbs
    refine ⟨by simp [hlength], ?_⟩
    intro i c hc
    cases i with
    | zero =>
      obtain rfl : a = c := by simpa using hc
      exact ⟨b, hb, by simp⟩
    | succ i => simpa using hrest i c (by simpa using hc)

/-- It succeeds if nothing in the list stands in its way. -/
theorem exists_mapM_iff {ε α β : Type} {f : α → Except ε β} {l : List α} :
    (∃ l', l.mapM f = .ok l') ↔ ∀ a ∈ l, ∃ b, f a = .ok b := by
  constructor
  · rintro ⟨l', h⟩ a ha
    obtain ⟨i, hi⟩ := List.getElem?_of_mem ha
    obtain ⟨b, hb, -⟩ := (mapM_eq_ok h).2 i a hi
    exact ⟨b, hb⟩
  · intro h
    induction l with
    | nil => exact ⟨[], rfl⟩
    | cons a rest ih =>
      obtain ⟨b, hb⟩ := h a List.mem_cons_self
      obtain ⟨bs, hbs⟩ := ih fun a' ha' => h a' (List.mem_cons_of_mem a ha')
      refine ⟨b :: bs, ?_⟩
      rw [List.mapM_cons]
      exact bind_eq_ok.2 ⟨b, hb, bind_eq_ok.2 ⟨bs, hbs, rfl⟩⟩

namespace Exec

variable {s α β : Type}

@[simp] theorem pure_apply (a : α) (st : s) : (pure a : Exec s α) st = .ok a st := rfl

@[simp] theorem bind_apply (x : Exec s α) (f : α → Exec s β) (st : s) :
    (x >>= f) st = match x st with
      | .ok a st => f a st
      | .error halt st => .error halt st := by
  cases h : x st <;> simp only [bind, EStateM.bind, h]

@[simp] theorem get_apply (st : s) : (get : Exec s s) st = .ok st st := rfl

@[simp] theorem modify_apply (f : s → s) (st : s) :
    (modify f : Exec s PUnit) st = .ok ⟨⟩ (f st) := rfl

@[simp] theorem throw_apply (halt : Halt) (st : s) :
    (throw halt : Exec s α) st = .error halt st := rfl

@[simp] theorem raise_apply (reason : Fault) (st : s) :
    (raise reason : Exec s α) st = .error (.fault reason) st := rfl

@[simp] theorem ofExcept_ok_apply (a : α) (st : s) :
    (ofExcept (.ok a) : Exec s α) st = .ok a st := rfl

@[simp] theorem ofExcept_error_apply (reason : Fault) (st : s) :
    (ofExcept (.error reason) : Exec s α) st = .error (.fault reason) st := rfl

end Exec

end Risc32
