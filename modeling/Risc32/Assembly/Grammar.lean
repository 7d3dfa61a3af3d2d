/-!
# Names and operands

The grammars of the pieces that tokens are made of: identifiers, label definitions `name:`,
expressions `%kind(value)` and memory operands `offset(base)`.

The offset of a memory operand may itself be an expression. If it begins like one it is read as
one, and it is not read in any other way afterwards.
-/

set_option autoImplicit false

namespace Risc32.Assembly

/-! ## Identifiers -/

def isIdentifierStart (c : Char) : Bool :=
  c.isAlpha || c == '_' || c == '.'

def isIdentifierChar (c : Char) : Bool :=
  c.isAlphanum || c == '_' || c == '.'

def isIdentifierOfChars : List Char → Bool
  | [] => false
  | c :: cs => isIdentifierStart c && cs.all isIdentifierChar

/-- Whether a token can name a label or a symbol. -/
def isIdentifier (token : String) : Bool :=
  isIdentifierOfChars token.toList

/-- Whether a token is meant to define a label. -/
def endsInColon (token : String) : Bool :=
  token.toList.getLast? == some ':'

/-- The name that a label definition defines. -/
def labelName? (token : String) : Option String :=
  let name := token.toList.dropLast
  if endsInColon token && isIdentifierOfChars name then some (String.ofList name) else none

/-! ## Parentheses -/

/-- What stands in a pair of parentheses, and what follows them. It is not empty and ends at the
first closing parenthesis. -/
def parenthesized? : List Char → Option (List Char × List Char)
  | '(' :: cs =>
    match cs.takeWhile (· != ')'), cs.dropWhile (· != ')') with
    | [], _ => none
    | _, [] => none
    | inner, _ :: rest => some (inner, rest)
  | _ => none

/-! ## Expressions -/

/-- An expression `%kind(value)`. -/
structure Expression where
  kind : List Char
  value : List Char
deriving DecidableEq, Repr

def Expression.chars (e : Expression) : List Char :=
  '%' :: e.kind ++ '(' :: e.value ++ [')']

/-- The expression that a text begins with, and what follows it. -/
def expressionPart? : List Char → Option (Expression × List Char)
  | '%' :: cs =>
    match cs.takeWhile (·.isAlpha) with
    | [] => none
    | kind => do
      let (value, rest) ← parenthesized? (cs.dropWhile (·.isAlpha))
      return (⟨kind, value⟩, rest)
  | _ => none

def expression? (cs : List Char) : Option Expression :=
  match expressionPart? cs with
  | some (e, []) => some e
  | _ => none

/-! ## Memory operands -/

/-- A memory operand `offset(base)`, whose offset may be empty. -/
structure MemoryOperand where
  offset : List Char
  base : List Char
deriving DecidableEq, Repr

/-- Reads the base that has to follow an offset. -/
def MemoryOperand.withOffset? (offset rest : List Char) : Option MemoryOperand :=
  match parenthesized? rest with
  | some (base, []) => some ⟨offset, base⟩
  | _ => none

def memoryOperand? (cs : List Char) : Option MemoryOperand :=
  match expressionPart? cs with
  | some (e, rest) => MemoryOperand.withOffset? e.chars rest
  | none => MemoryOperand.withOffset? (cs.takeWhile (· != '(')) (cs.dropWhile (· != '('))

end Risc32.Assembly
