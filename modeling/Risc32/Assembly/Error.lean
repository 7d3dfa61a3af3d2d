/-!
# Assembly errors

What is wrong with a source line. An error knows its cause, the line and the instruction as far
as it was known at the time: the line as it was written, or the statement that came of it.
-/

set_option autoImplicit false

namespace Risc32.Assembly

inductive Cause where
  /-- The line has a character that no token can contain. -/
  | unreadable
  | invalidLabel (token : String)
  /-- A label or an operand on the line of a segment directive. -/
  | segmentNotAlone
  | unknownDataDirective (directive : String)
  | missingDataDirective
  | noDataValue (directive : String)
  | invalidDataValue (directive value : String)
  | duplicateLabel (name : String)
  | operandCount (expected found : Nat)
  | invalidRegister (name : String)
  /-- What an expression is of is neither a literal nor a symbol. -/
  | unresolvedExpression
  | unknownExpression (kind : String)
  | unknownValue (text : String)
  | immediateRange (value : Int)
  | branchRange (offset : Int)
  | invalidMemoryOperand (text : String)
  | shiftRange (amount : Int)
  | callRange (address : Int)
  | unknownInstruction (mnemonic : String)
deriving DecidableEq, Repr

def Cause.message : Cause → String
  | .unreadable => "Unhandled instruction."
  | .invalidLabel token => "Invalid label '" ++ token ++ "'."
  | .segmentNotAlone => "Segment directives stand alone."
  | .unknownDataDirective directive => "Unknown data directive '" ++ directive ++ "'."
  | .missingDataDirective => "Expected .word or .byte after label."
  | .noDataValue directive => directive ++ " requires at least one value."
  | .invalidDataValue directive value =>
    "Invalid " ++ directive ++ " value '" ++ value ++ "'."
  | .duplicateLabel name => "Label '" ++ name ++ "' is already defined."
  | .operandCount expected found =>
    "Expected " ++ toString expected ++ " operands but found " ++ toString found ++ "."
  | .invalidRegister name => "Invalid register '" ++ name ++ "'."
  | .unresolvedExpression => "Invalid integer value for assembler macro."
  | .unknownExpression kind => "Assembler macro '" ++ kind ++ "' not found."
  | .unknownValue text => "Unknown symbol or invalid value '" ++ text ++ "'."
  | .immediateRange value =>
    "Immediate value " ++ toString value ++ " does not fit in 16 bits."
  | .branchRange offset => "Branch offset " ++ toString offset ++ " is out of range."
  | .invalidMemoryOperand text => "Invalid memory operand '" ++ text ++ "'."
  | .shiftRange amount =>
    "Shift amount " ++ toString amount ++ " is not between 0 and 31."
  | .callRange address => "Invalid call target " ++ toString address ++ "."
  | .unknownInstruction mnemonic => "Unknown instruction '" ++ mnemonic ++ "'."

/-- A line that cannot be assembled. Lines are counted from zero. -/
structure Error where
  line : Nat
  instruction : String
  cause : Cause
deriving DecidableEq, Repr

/-- The error as it is shown, with lines counted from one. -/
def Error.message (e : Error) : String :=
  toString (e.line + 1) ++ ": " ++ e.cause.message ++ " (" ++ e.instruction ++ ")"

end Risc32.Assembly
