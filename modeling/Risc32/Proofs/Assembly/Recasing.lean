import Risc32.Proofs.Assembly.Alike
import Risc32.Proofs.Assembly.Halves
import Risc32.Proofs.Assembly.Letters
import Risc32.Proofs.Assembly.Positions

/-!
# Operands in other letters

Mnemonics, directives, names of registers, kinds of expressions and hexadecimal literals may be
written in either case, labels and symbols may not. What that means for an operand depends on its
position (`SameOperand`): `R1` is `r1` where a register is asked for, and another symbol where a
value is.

Operands in other letters are read as the same (`SameOperand.agrees`). Two pseudo-instructions do
more than to hand their operands on, and put them together with other text to be read again: the
halves of an address have to be expressions of the same value, and a negated value has to be negated
as well.
-/

set_option autoImplicit false

namespace Risc32.Assembly

/-! ## What may be written in other letters -/

/-- The same text, or the same literal with its hexadecimal digits and its `x` in other letters. A
text that is too great for a literal is none, and could be the name of a symbol. -/
def SameLiteral (cs cs' : List Char) : Prop :=
  cs = cs' ∨ (integerOfChars? cs).isSome ∧ SameLetters cs cs'

/-- Expressions of the same literal or symbol, whose kinds may be in other letters. -/
structure SameExpression (e e' : Expression) : Prop where
  written : e.IsWritten
  kind : SameLetters e.kind e'.kind
  value : SameLiteral e.value e'.value

/-- The offset of a memory operand, up to the case of letters. -/
inductive SameOffset : List Char → List Char → Prop where
  | literal {cs cs' : List Char} (unopened : '(' ∉ cs) (same : SameLiteral cs cs') :
      SameOffset cs cs'
  | expression {e e' : Expression} (same : SameExpression e e') : SameOffset e.chars e'.chars

/-- An operand in a position, up to the case of letters. -/
inductive SameOperand : Position → String → String → Prop where
  | literal {p : Position} {o o' : String} (same : SameLiteral o.toList o'.toList) :
      SameOperand p o o'
  | expression {p : Position} {e e' : Expression} (same : SameExpression e e') :
      SameOperand p (String.ofList e.chars) (String.ofList e'.chars)
  /-- An expression with a minus sign is nothing until it is negated. -/
  | negated {e e' : Expression} (same : SameExpression e e') :
      SameOperand .value (String.ofList ('-' :: e.chars)) (String.ofList ('-' :: e'.chars))
  | register {o o' : String} (same : SameLetters o.toList o'.toList) : SameOperand .register o o'
  | memory {m m' : MemoryOperand} (offset : SameOffset m.offset m'.offset) (based : m.base ≠ [])
      (closed : ')' ∉ m.base) (base : SameLetters m.base m'.base) :
      SameOperand .memory (String.ofList m.chars) (String.ofList m'.chars)

/-! ## Their letters -/

theorem SameLiteral.letters {cs cs' : List Char} (h : SameLiteral cs cs') : SameLetters cs cs' := by
  rcases h with rfl | ⟨-, h⟩
  · exact .refl cs
  · exact h

namespace SameExpression

variable {e e' : Expression}

theorem letters (h : SameExpression e e') : SameLetters e.chars e'.chars :=
  ((h.kind.cons '%').append (h.value.letters.cons '(')).append (.refl _)

theorem written' (h : SameExpression e e') : e'.IsWritten where
  named hnil := h.written.named (h.kind.nil_iff.2 hnil)
  letters := (h.kind.forall_iff (p := Char.isAlpha) isAlpha_toLower).1 h.written.letters
  filled hnil := h.written.filled (h.value.letters.nil_iff.2 hnil)
  closed hmem := h.written.closed ((h.value.letters.mem_iff rfl).2 hmem)

end SameExpression

theorem SameOffset.letters {cs cs' : List Char} (h : SameOffset cs cs') : SameLetters cs cs' := by
  cases h with
  | literal _ same => exact same.letters
  | expression same => exact same.letters

theorem SameOperand.letters {p : Position} {o o' : String} (h : SameOperand p o o') :
    SameLetters o.toList o'.toList := by
  cases h with
  | literal same => exact same.letters
  | expression same => simpa using same.letters
  | negated same => simpa using same.letters.cons '-'
  | register same => exact same
  | memory offset _ _ base =>
    simpa [MemoryOperand.chars] using (offset.letters.append (base.cons '(')).append (.refl [')'])

theorem SameOperand.integer?_eq {p : Position} {o o' : String} (h : SameOperand p o o') :
    integer? o = integer? o' :=
  h.letters.integerOfChars?_eq

/-! ## Expressions -/

/-- An expression is no literal, with a minus sign or without. -/
theorem integer?_of_parenthesis {o : String} (h : '(' ∈ o.toList) : integer? o = none :=
  integerOfChars?_of_mark (.inl rfl) h

/-- A literal denotes the same in other letters, and any other text is the same. -/
theorem SameExpression.expressionValue_eq {e e' : Expression} (h : SameExpression e e') (s : Scope) :
    (expressionValue s e).toOption = (expressionValue s e').toOption := by
  have hvalue : (integerOfChars? e.value).or (s.symbol? (String.ofList e.value)) =
      (integerOfChars? e'.value).or (s.symbol? (String.ofList e'.value)) := by
    rcases h.value with heq | ⟨hsome, hletters⟩
    · rw [heq]
    · rw [← hletters.integerOfChars?_eq, Option.or_of_isSome hsome, Option.or_of_isSome hsome]
  have hkind : Half.ofKind? (String.ofList e.kind) = Half.ofKind? (String.ofList e'.kind) := by
    have hlower : Text.lower (String.ofList e.kind) = Text.lower (String.ofList e'.kind) :=
      lower_eq_iff.2 (by simpa using h.kind)
    rw [Half.ofKind?, Half.ofKind?, hlower]
  rw [expressionValue, expressionValue, hvalue, hkind]
  cases (integerOfChars? e'.value).or (s.symbol? (String.ofList e'.value)) with
  | none => rfl
  | some value => cases Half.ofKind? (String.ofList e'.kind) <;> rfl

/-! ## Values -/

/-- What begins like no identifier and is neither a literal nor an expression has no value. -/
theorem valueOf_eq_none {s : Scope} {o : String} {cs : List Char}
    (hinteger : integer? o = none) (hexpression : expression? o.toList = none)
    (hchars : o.toList = '%' :: cs ∨ o.toList = '-' :: '%' :: cs) :
    (valueOf s o).toOption = none := by
  have hsymbol : symbolValue? s o = none := by
    rcases hchars with hchars | hchars <;> rw [symbolValue?, hchars] <;> rfl
  rw [valueOf, hinteger, hexpression, hsymbol]
  rfl

theorem SameOperand.valueOf_eq {o o' : String} (h : SameOperand .value o o') (s : Scope) :
    (valueOf s o).toOption = (valueOf s o').toOption := by
  have hinteger := h.integer?_eq
  cases h with
  | literal same =>
    rcases same with heq | ⟨hsome, -⟩
    · rw [String.toList_injective heq]
    · obtain ⟨value, hvalue⟩ := Option.isSome_iff_exists.1 hsome
      have hvalue : integer? o = some value := hvalue
      rw [valueOf, valueOf, ← hinteger, hvalue]
  | expression same =>
    rw [valueOf, valueOf, ← hinteger]
    cases integer? _ with
    | some value => rfl
    | none =>
      simp only [String.toList_ofList, same.written.expression?_eq, same.written'.expression?_eq]
      exact same.expressionValue_eq s
  | negated same =>
    have hnone : ∀ e : Expression, (valueOf s (String.ofList ('-' :: e.chars))).toOption = none := by
      intro e
      have hchars : (String.ofList ('-' :: e.chars)).toList =
          '-' :: '%' :: (e.kind ++ '(' :: e.value ++ [')']) := by
        rw [String.toList_ofList]
        rfl
      refine valueOf_eq_none ?_ ?_ (.inr hchars)
      · exact integer?_of_parenthesis (by simp [parenthesis_mem_chars])
      · rw [hchars]
        rfl
    rw [hnone, hnone]

/-- An operand that names a label has to be written in the same letters. -/
theorem SameOperand.eq_iff_of_isIdentifier {o o' name : String} (h : SameOperand .value o o')
    (hname : isIdentifier name) : o = name ↔ o' = name := by
  have hinteger := h.integer?_eq
  obtain ⟨c, cs, hchars, hstart⟩ := toList_of_isIdentifier hname
  have hpercent := ne_of_isIdentifierStart hstart (by decide : isIdentifierStart '%' = false)
  have hminus := ne_of_isIdentifierStart hstart (by decide : isIdentifierStart '-' = false)
  have hneither : ∀ {d : Char} {ds ds' : List Char}, c ≠ d →
      (String.ofList (d :: ds) = name ↔ String.ofList (d :: ds') = name) := by
    intro d ds ds' hne
    have hapart : ∀ ds, String.ofList (d :: ds) ≠ name := by
      rintro ds rfl
      rw [String.toList_ofList] at hchars
      exact hne (List.cons.inj hchars).1.symm
    exact iff_of_false (hapart ds) (hapart ds')
  cases h with
  | literal same =>
    rcases same with heq | ⟨hsome, -⟩
    · rw [String.toList_injective heq]
    · have hnone := integer?_of_isIdentifier hname
      have hsome : (integer? o).isSome := hsome
      constructor
      · rintro rfl
        rw [hnone] at hsome
        cases hsome
      · rintro rfl
        rw [hinteger, hnone] at hsome
        cases hsome
  | expression same => exact hneither hpercent
  | negated same => exact hneither hminus

/-! ## Memory operands -/

/-- Offsets in other letters make memory operands of the same form. -/
theorem SameOffset.memoryOperand? {m m' : MemoryOperand} (h : SameOffset m.offset m'.offset)
    (hbased : m.base ≠ []) (hclosed : ')' ∉ m.base) (hbase : SameLetters m.base m'.base) :
    (memoryOperand? m.chars = some m ∧ memoryOperand? m'.chars = some m') ∨
      (memoryOperand? m.chars = none ∧ memoryOperand? m'.chars = none) := by
  have hbased' : m'.base ≠ [] := fun hnil => hbased (hbase.nil_iff.2 hnil)
  have hclosed' : ')' ∉ m'.base := fun hmem => hclosed ((hbase.mem_iff rfl).2 hmem)
  have hwritten : IsOffset m.offset → m.IsWritten := fun hoffset => ⟨hbased, hclosed, hoffset⟩
  have hwritten' : IsOffset m'.offset → m'.IsWritten := fun hoffset => ⟨hbased', hclosed', hoffset⟩
  generalize hcs : m.offset = cs, hcs' : m'.offset = cs' at h hwritten hwritten'
  cases h with
  | expression same =>
    exact .inl ⟨(hwritten (.expression same.written)).memoryOperand?_eq,
      (hwritten' (.expression same.written')).memoryOperand?_eq⟩
  | literal unopened same =>
    have unopened' : '(' ∉ cs' := fun hmem => unopened ((same.letters.mem_iff rfl).2 hmem)
    have hkinds : IsKind cs ↔ IsKind cs' := by
      rcases same with rfl | ⟨hsome, hletters⟩
      · exact Iff.rfl
      · -- A literal is none.
        have hunmarked : '%' ∉ cs := notMem_of_isSome_integer (.inr (.inr rfl)) hsome
        have hunmarked' : '%' ∉ cs' := fun hmem => hunmarked ((hletters.mem_iff rfl).2 hmem)
        refine iff_of_false ?_ ?_
        · rintro ⟨kind, rfl, -⟩
          exact hunmarked List.mem_cons_self
        · rintro ⟨kind, rfl, -⟩
          exact hunmarked' List.mem_cons_self
    by_cases hkind : IsKind cs
    · exact .inr ⟨memoryOperand?_of_isKind hbased hclosed (hcs ▸ hkind),
        memoryOperand?_of_isKind hbased' hclosed' (hcs' ▸ hkinds.1 hkind)⟩
    · exact .inl ⟨(hwritten (.plain unopened hkind)).memoryOperand?_eq,
        (hwritten' (.plain unopened' fun h => hkind (hkinds.2 h))).memoryOperand?_eq⟩

/-- The fields depend on what the offset and the base are read as. -/
theorem memoryFields_congr (s : Scope) {o o' : String} {m m' : MemoryOperand}
    (hm : memoryOperand? o.toList = some m) (hm' : memoryOperand? o'.toList = some m')
    (hempty : m.offset = [] ↔ m'.offset = [])
    (hoffset : (valueOf s (String.ofList m.offset)).toOption =
      (valueOf s (String.ofList m'.offset)).toOption)
    (hbase : (registerField (String.ofList m.base)).toOption =
      (registerField (String.ofList m'.base)).toOption) :
    (memoryFields s o).toOption = (memoryFields s o').toOption := by
  have hfield := immediateField_congr s hoffset
  simp only [memoryFields, hm, hm', List.isEmpty_iff, hempty]
  split <;> simp only [toOption_bind, hfield, hbase]

theorem SameLetters.registerField_eq {o o' : String} (h : SameLetters o.toList o'.toList) :
    (registerField o).toOption = (registerField o').toOption := by
  have hlower : Text.lower o = Text.lower o' := lower_eq_iff.2 h
  have hname : Register.ofName? o = Register.ofName? o' := by
    rw [Register.ofName?, Register.ofName?, hlower]
  rw [registerField, registerField, hname]
  cases Register.ofName? o' <;> rfl

theorem SameOffset.valueOf_eq {cs cs' : List Char} (h : SameOffset cs cs') (s : Scope) :
    (valueOf s (String.ofList cs)).toOption = (valueOf s (String.ofList cs')).toOption := by
  cases h with
  | literal _ same =>
    exact (SameOperand.literal (p := .value) (by simpa using same)).valueOf_eq s
  | expression same => exact (SameOperand.expression (p := .value) same).valueOf_eq s

theorem SameOperand.memoryFields_eq {o o' : String} (h : SameOperand .memory o o') (s : Scope) :
    (memoryFields s o).toOption = (memoryFields s o').toOption := by
  have hnone : ∀ {o : String}, memoryOperand? o.toList = none →
      (memoryFields s o).toOption = none := by
    intro o ho
    rw [memoryFields, ho]
    rfl
  cases h with
  | literal same =>
    rcases same with heq | ⟨hsome, hletters⟩
    · rw [String.toList_injective heq]
    · -- A literal is no memory operand.
      have hunopened : '(' ∉ o.toList := notMem_of_isSome_integer (.inl rfl) hsome
      have hunopened' : '(' ∉ o'.toList := fun hmem => hunopened ((hletters.mem_iff rfl).2 hmem)
      rw [hnone (memoryOperand?_of_notMem hunopened), hnone (memoryOperand?_of_notMem hunopened')]
  | expression same =>
    -- Nor is an expression without a base behind it.
    rw [hnone (by rw [String.toList_ofList, same.written.memoryOperand?_eq]),
      hnone (by rw [String.toList_ofList, same.written'.memoryOperand?_eq])]
  | @memory m m' offset based closed base =>
    rcases offset.memoryOperand? based closed base with ⟨hm, hm'⟩ | ⟨hm, hm'⟩
    · refine memoryFields_congr s ?_ ?_ offset.letters.nil_iff (offset.valueOf_eq s) ?_
      · rw [String.toList_ofList, hm]
      · rw [String.toList_ofList, hm']
      · exact SameLetters.registerField_eq (by simpa using base)
    · rw [hnone (by rw [String.toList_ofList, hm]), hnone (by rw [String.toList_ofList, hm'])]

/-- **Operands in other letters** are read as the same. -/
theorem SameOperand.agrees {p : Position} {o o' : String} (h : SameOperand p o o') :
    p.Agrees o o' := by
  cases p with
  | register => exact h.letters.registerField_eq
  | value => exact ⟨h.integer?_eq, h.valueOf_eq⟩
  | memory => exact h.memoryFields_eq

/-! ## Operands in other text -/

/-- What is negated is the same literal, or gets or loses its sign. -/
theorem SameOperand.negate {o o' : String} (h : SameOperand .value o o') :
    SameOperand .value (Pseudo.negate o) (Pseudo.negate o') := by
  have hinteger := h.integer?_eq
  cases h with
  | literal same =>
    refine .literal (.inl ?_)
    rcases same with heq | ⟨hsome, -⟩
    · rw [String.toList_injective heq]
    · obtain ⟨value, hvalue⟩ := Option.isSome_iff_exists.1 hsome
      have hvalue : integer? o = some value := hvalue
      rw [Pseudo.negate, Pseudo.negate, ← hinteger, hvalue]
  | @expression _ e e' same =>
    have hsigned : ∀ e : Expression,
        Pseudo.negate (String.ofList e.chars) = String.ofList ('-' :: e.chars) := by
      intro e
      rw [Pseudo.negate, integer?_of_parenthesis (by simp [parenthesis_mem_chars])]
      apply String.toList_injective
      simp [Expression.chars]
    rw [hsigned, hsigned]
    exact .negated same
  | @negated e e' same =>
    have hunsigned : ∀ e : Expression,
        Pseudo.negate (String.ofList ('-' :: e.chars)) = String.ofList e.chars := by
      intro e
      rw [Pseudo.negate, integer?_of_parenthesis (by simp [parenthesis_mem_chars])]
      simp
    rw [hunsigned, hunsigned]
    exact .expression same

/-- An expression ends where its parentheses do. With another one behind it, it is none. -/
theorem expression?_of_closing {kind inner : List Char} (hkind : kind ≠ [])
    (halpha : ∀ c ∈ kind, c.isAlpha) (hinner : inner ≠ []) (hclosed : ')' ∉ inner) :
    expression? (Expression.chars ⟨kind, inner ++ [')']⟩) = none := by
  have hchars : Expression.chars ⟨kind, inner ++ [')']⟩ =
      '%' :: (kind ++ '(' :: (inner ++ ')' :: [')'])) := by
    simp [Expression.chars]
  rw [hchars, expression?, expressionPart?_append hkind halpha hinner hclosed]

/-- An expression in an expression stands for nothing. -/
theorem Expression.IsWritten.valueOf_nested {e : Expression} (h : e.IsWritten) {kind : List Char}
    (hkind : kind ≠ []) (halpha : ∀ c ∈ kind, c.isAlpha) {sign : List Char} (hsign : ')' ∉ sign)
    (s : Scope) :
    (valueOf s (String.ofList (Expression.chars ⟨kind, sign ++ e.chars⟩))).toOption = none := by
  have hinner : sign ++ e.chars = (sign ++ '%' :: e.kind ++ '(' :: e.value) ++ [')'] := by
    simp [Expression.chars]
  have hletters : ')' ∉ e.kind := fun hmem => absurd (h.letters _ hmem) (by decide)
  refine valueOf_eq_none ?_ ?_ (.inl (String.toList_ofList))
  · exact integer?_of_parenthesis (by simp [parenthesis_mem_chars])
  · rw [String.toList_ofList, hinner]
    refine expression?_of_closing hkind halpha (by simp) ?_
    simp [hsign, hletters, h.closed]

/-- A value stands for the same in an expression. Another expression stands for nothing there. -/
theorem SameOperand.agrees_expression {o o' t t' : String} (h : SameOperand .value o o')
    {kind : List Char} (hkind : kind ≠ []) (halpha : ∀ c ∈ kind, c.isAlpha)
    (ht : t = String.ofList (Expression.chars ⟨kind, o.toList⟩))
    (ht' : t' = String.ofList (Expression.chars ⟨kind, o'.toList⟩)) :
    Position.value.Agrees t t' := by
  subst ht ht'
  have hinteger : ∀ v : List Char, integer? (String.ofList (Expression.chars ⟨kind, v⟩)) = none :=
    fun v => integer?_of_parenthesis (by simp [parenthesis_mem_chars])
  cases h with
  | literal same =>
    rcases same with heq | ⟨hsome, hletters⟩
    · rw [heq]
      exact ⟨rfl, fun _ => rfl⟩
    · have hfilled : o.toList ≠ [] := by
        intro hnil
        rw [hnil] at hsome
        cases hsome
      have hclosed : ')' ∉ o.toList := notMem_of_isSome_integer (.inr (.inl rfl)) hsome
      have hsame : SameExpression ⟨kind, o.toList⟩ ⟨kind, o'.toList⟩ :=
        ⟨⟨hkind, halpha, hfilled, hclosed⟩, .refl kind, .inr ⟨hsome, hletters⟩⟩
      exact (SameOperand.expression hsame).agrees
  | @expression _ e e' same =>
    refine ⟨by rw [hinteger, hinteger], fun s => ?_⟩
    rw [String.toList_ofList, String.toList_ofList]
    exact (same.written.valueOf_nested hkind halpha List.not_mem_nil s).trans
      (same.written'.valueOf_nested hkind halpha List.not_mem_nil s).symm
  | @negated e e' same =>
    refine ⟨by rw [hinteger, hinteger], fun s => ?_⟩
    rw [String.toList_ofList, String.toList_ofList]
    have hminus : ')' ∉ ['-'] := by decide
    exact (same.written.valueOf_nested hkind halpha hminus s).trans
      (same.written'.valueOf_nested hkind halpha hminus s).symm

/-! ## Commands -/

/-- Real instructions whose operands are read as the same are the same. -/
theorem Command.alike_of_agrees {mnemonic : String} {os os' : List String}
    (hreal : Pseudo.ofName? mnemonic = none)
    (h : RelatedAt Position.Agrees (positions mnemonic) os os')
    (hcalled : mnemonic = "call" → ∀ name, isIdentifier name →
      (os.head? = some name ↔ os'.head? = some name)) :
    Command.Alike ⟨mnemonic, os⟩ ⟨mnemonic, os'⟩ :=
  ⟨rfl, instructionOf_congr hreal h, hcalled⟩

section

variable {mnemonic a a' b b' c c' : String}

/-- The instructions on registers that pseudo-instructions are written out to. -/
theorem Command.alike_of_registers (hm : mnemonic ∈ ["add", "cmpge", "cmplt"])
    (ha : Position.register.Agrees a a') (hb : Position.register.Agrees b b')
    (hc : Position.register.Agrees c c') :
    Command.Alike ⟨mnemonic, [a, b, c]⟩ ⟨mnemonic, [a', b', c']⟩ := by
  have hall : ∀ m ∈ ["add", "cmpge", "cmplt"], Pseudo.ofName? m = none ∧ m ≠ "call" ∧
      positions m = [.register, .register, .register] := by decide
  obtain ⟨hreal, hcall, hpositions⟩ := hall mnemonic hm
  refine alike_of_agrees hreal ?_ fun heq => absurd heq hcall
  rw [hpositions]
  exact .cons ha (.cons hb (.cons hc .nil))

/-- Those with a value behind two registers. -/
theorem Command.alike_of_value (hm : mnemonic ∈ ["addi", "orhi", "blt", "bge"])
    (ha : Position.register.Agrees a a') (hb : Position.register.Agrees b b')
    (hc : Position.value.Agrees c c') :
    Command.Alike ⟨mnemonic, [a, b, c]⟩ ⟨mnemonic, [a', b', c']⟩ := by
  have hall : ∀ m ∈ ["addi", "orhi", "blt", "bge"], Pseudo.ofName? m = none ∧ m ≠ "call" ∧
      positions m = [.register, .register, .value] := by decide
  obtain ⟨hreal, hcall, hpositions⟩ := hall mnemonic hm
  refine alike_of_agrees hreal ?_ fun heq => absurd heq hcall
  rw [hpositions]
  exact .cons ha (.cons hb (.cons hc .nil))

end

theorem Pseudo.expand_of_length {p : Pseudo} {os : List String} (h : os.length ≠ p.arity) :
    (p.expand os).toOption = none := by
  unfold expand
  split
  all_goals first | rfl | exact absurd rfl h

/-- **A pseudo-instruction in other letters** is written out to instructions that are alike. -/
theorem Pseudo.expand_alike {p : Pseudo} {os os' : List String}
    (h : RelatedAt SameOperand p.positions os os') :
    Option.Rel (List.Forall₂ Command.Alike) (p.expand os).toOption (p.expand os').toOption := by
  have hzero : Position.register.Agrees "r0" "r0" := rfl
  by_cases hcount : os.length = p.arity
  · cases p with
    | nop =>
      obtain ⟨rfl, rfl⟩ := h.eq_nil hcount
      exact .some (.cons (Command.alike_of_registers (by simp) hzero hzero hzero) .nil)
    | movi =>
      obtain ⟨d, d', k, k', rfl, rfl, hd, hk⟩ := h.eq_two hcount
      exact .some (.cons (Command.alike_of_value (by simp) hd.agrees hzero hk.agrees) .nil)
    | mov =>
      obtain ⟨d, d', r, r', rfl, rfl, hd, hr⟩ := h.eq_two hcount
      exact .some (.cons (Command.alike_of_registers (by simp) hd.agrees hr.agrees hzero) .nil)
    | movia =>
      obtain ⟨d, d', x, x', rfl, rfl, hd, hx⟩ := h.eq_two hcount
      have hhalf : ∀ kind ∈ ["hiadj", "lo"], Position.value.Agrees
          ("%" ++ kind ++ "(" ++ x ++ ")") ("%" ++ kind ++ "(" ++ x' ++ ")") := by
        intro kind hkind
        have hletters : ∀ kind ∈ ["hiadj", "lo"], kind.toList ≠ [] ∧
            kind.toList.all Char.isAlpha := by decide
        obtain ⟨hne, halpha⟩ := hletters kind hkind
        refine hx.agrees_expression hne (List.all_eq_true.1 halpha) ?_ ?_ <;>
          exact String.toList_injective (by simp [Expression.chars])
      exact .some (.cons (Command.alike_of_value (by simp) hd.agrees hzero (hhalf "hiadj" (by simp)))
        (.cons (Command.alike_of_value (by simp) hd.agrees hd.agrees (hhalf "lo" (by simp))) .nil))
    | subi =>
      obtain ⟨d, d', r, r', k, k', rfl, rfl, hd, hr, hk⟩ := h.eq_three hcount
      exact .some (.cons (Command.alike_of_value (by simp) hd.agrees hr.agrees hk.negate.agrees)
        .nil)
    | cmple | cmpgt =>
      obtain ⟨d, d', a, a', b, b', rfl, rfl, hd, ha, hb⟩ := h.eq_three hcount
      exact .some (.cons (Command.alike_of_registers (by simp) hd.agrees hb.agrees ha.agrees) .nil)
    | bgt | ble =>
      obtain ⟨a, a', b, b', t, t', rfl, rfl, ha, hb, ht⟩ := h.eq_three hcount
      exact .some (.cons (Command.alike_of_value (by simp) hb.agrees ha.agrees ht.agrees) .nil)
  · rw [expand_of_length hcount, expand_of_length (h.length_eq ▸ hcount)]
    exact .none

/-- **A command in other letters** becomes the same. -/
theorem Command.expand_alike {mnemonic : String} {os os' : List String}
    (h : RelatedAt SameOperand (positions mnemonic) os os') :
    Option.Rel (List.Forall₂ Command.Alike) (Command.expand ⟨mnemonic, os⟩).toOption
      (Command.expand ⟨mnemonic, os'⟩).toOption := by
  rw [Command.expand, Command.expand]
  cases hpseudo : Pseudo.ofName? mnemonic with
  | some p =>
    rw [positions, hpseudo] at h
    exact Pseudo.expand_alike h
  | none =>
    refine .some (.cons (alike_of_agrees hpseudo (h.imp fun _ _ _ ho => ho.agrees) ?_) .nil)
    rintro rfl name hname
    have hpositions : positions "call" = [.value] := by decide
    rw [hpositions] at h
    cases h with
    | nil => exact Iff.rfl
    | cons first _ => simpa using first.eq_iff_of_isIdentifier hname

end Risc32.Assembly
