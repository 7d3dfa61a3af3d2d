import Risc32.Assembly.Error
import Risc32.Assembly.Grammar
import Risc32.Assembly.Literal
import Risc32.Register.Name
import Risc32.Names
import Risc32.Text.Case

/-!
# Operands

What the operands of a statement stand for. A value is a literal, an expression, a symbol or a
symbol with a minus sign. Each kind of operand has a range of values it can hold, and a value
outside of it is an error.
-/

set_option autoImplicit false

namespace Risc32.Assembly

/-- What a statement knows of the program around it. -/
structure Scope where
  labels : LabelTable
  /-- The index of the statement's instruction. -/
  index : Nat

namespace Scope

def symbol? (s : Scope) (name : String) : Option Int :=
  (s.labels.address? name).map fun address => (address : Int)

end Scope

/-! ## Registers -/

/-- The register an operand names, as a field. -/
def registerField (name : String) : Except Cause Byte :=
  match Register.ofName? name with
  | some r => .ok r.index
  | none => .error (.invalidRegister name)

/-! ## Values -/

/-- The halves of a word that an expression can ask for. -/
inductive Half where
  | low
  | high
  /-- The upper half, one greater if the lower half is negative as a signed number. Adding the
  lower half with its sign then gives the word again. -/
  | highAdjusted
deriving DecidableEq, Repr

namespace Half

/-- The half that a kind of expression asks for. Kinds may be written in either case. -/
def ofKind? (kind : String) : Option Half :=
  match Text.lower kind with
  | "lo" => some low
  | "hi" => some high
  | "hiadj" => some highAdjusted
  | _ => none

def of (h : Half) (w : Word) : BitVec 16 :=
  match h with
  | low => w.extractLsb' 0 16
  | high => w.extractLsb' 16 16
  | highAdjusted => w.extractLsb' 16 16 + (w.extractLsb' 15 1).setWidth 16

end Half

/-- The value of an expression of a literal or a symbol. -/
def expressionValue (s : Scope) (e : Expression) : Except Cause Int :=
  match (integerOfChars? e.value).or (s.symbol? (String.ofList e.value)) with
  | none => .error .unresolvedExpression
  | some value =>
    match Half.ofKind? (String.ofList e.kind) with
    | none => .error (.unknownExpression (String.ofList e.kind))
    | some half => .ok (half.of (BitVec.ofInt 32 value)).toNat

/-- The value of a symbol or of a symbol with a minus sign. -/
def symbolValue? (s : Scope) (text : String) : Option Int :=
  match text.toList with
  | '-' :: name =>
    if isIdentifierOfChars name then (s.symbol? (String.ofList name)).map (- ·) else none
  | name => if isIdentifierOfChars name then s.symbol? text else none

def valueOf (s : Scope) (text : String) : Except Cause Int :=
  match integer? text with
  | some value => .ok value
  | none =>
    match expression? text.toList with
    | some e => expressionValue s e
    | none =>
      match symbolValue? s text with
      | some value => .ok value
      | none => .error (.unknownValue text)

/-! ## Fields -/

/-- A 16 bit immediate. Both what it can be with a sign and what it can be without are fine. -/
def immediateField (s : Scope) (text : String) : Except Cause (BitVec 16) := do
  let value ← valueOf s text
  if -32768 ≤ value ∧ value ≤ 65535 then return BitVec.ofInt 16 value
  else throw (.immediateRange value)

/-- The distance to the target of a branch. A literal is the distance itself, anything else is an
address, and the distance to it is counted from the next instruction. -/
def branchField (s : Scope) (text : String) : Except Cause (BitVec 16) := do
  let offset ← match integer? text with
    | some offset => pure offset
    | none => do
      let address ← valueOf s text
      pure (address - (s.index + 1) * 4)
  if -32768 ≤ offset ∧ offset ≤ 32767 then return BitVec.ofInt 16 offset
  else throw (.branchRange offset)

/-- The offset and the base register of a memory operand. No offset is an offset of zero. -/
def memoryFields (s : Scope) (text : String) : Except Cause (BitVec 16 × Byte) := do
  match memoryOperand? text.toList with
  | none => throw (.invalidMemoryOperand text)
  | some operand =>
    let offset ←
      if operand.offset.isEmpty then pure 0
      else immediateField s (String.ofList operand.offset)
    let base ← registerField (String.ofList operand.base)
    return (offset, base)

def shiftField (s : Scope) (text : String) : Except Cause Byte := do
  let amount ← valueOf s text
  if 0 ≤ amount ∧ amount ≤ 31 then return BitVec.ofInt 8 amount
  else throw (.shiftRange amount)

/-- The target of a call, counted in words. The instruction has room for 26 bits of it. -/
def callField (s : Scope) (text : String) : Except Cause Word := do
  let address ← valueOf s text
  if 0 ≤ address ∧ address ≤ 0xFFFFFFFF then
    return ((BitVec.ofInt 32 address).extractLsb' 2 26).setWidth 32
  else throw (.callRange address)

end Risc32.Assembly
