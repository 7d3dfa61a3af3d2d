import Risc32.Assembly.Error
import Risc32.Assembly.Literal

/-!
# Statements

A statement stands for one instruction: its mnemonic in lower case, its operands as they were
written, and the line they come from. A source line becomes one statement, unless its mnemonic is
a pseudo-instruction, which is written out in terms of real ones. What it is written out to never
holds another pseudo-instruction.
-/

set_option autoImplicit false

namespace Risc32.Assembly

/-- A mnemonic with its operands. -/
structure Command where
  mnemonic : String
  operands : List String
deriving DecidableEq, Repr

def Command.text (c : Command) : String :=
  if c.operands.isEmpty then c.mnemonic
  else c.mnemonic ++ " " ++ ", ".intercalate c.operands

/-- A command and the line it comes from, counted from zero. -/
structure Statement extends Command where
  line : Nat
deriving DecidableEq, Repr

def Statement.error (s : Statement) (cause : Cause) : Error :=
  ⟨s.line, s.text, cause⟩

/-! ## Pseudo-instructions -/

inductive Pseudo where
  | nop
  | movi
  | mov
  | movia
  | subi
  | cmple
  | cmpgt
  | bgt
  | ble
deriving DecidableEq, Repr

namespace Pseudo

def all : List Pseudo :=
  [nop, movi, mov, movia, subi, cmple, cmpgt, bgt, ble]

def name : Pseudo → String
  | nop => "nop"
  | movi => "movi"
  | mov => "mov"
  | movia => "movia"
  | subi => "subi"
  | cmple => "cmple"
  | cmpgt => "cmpgt"
  | bgt => "bgt"
  | ble => "ble"

def ofName? (s : String) : Option Pseudo :=
  all.find? (·.name == s)

def arity : Pseudo → Nat
  | nop => 0
  | movi | mov | movia => 2
  | subi | cmple | cmpgt | bgt | ble => 3

/-- The operand for the negated value. A literal is negated in decimal, and anything else gets or
loses a sign. -/
def negate (operand : String) : String :=
  match integer? operand with
  | some value => toString (-value)
  | none =>
    match operand.toList with
    | '-' :: positive => String.ofList positive
    | _ => "-" ++ operand

/-- The real instructions for a pseudo-instruction. -/
def expand : Pseudo → List String → Except Cause (List Command)
  | nop, [] => .ok [⟨"add", ["r0", "r0", "r0"]⟩]
  | movi, [d, k] => .ok [⟨"addi", [d, "r0", k]⟩]
  | mov, [d, s] => .ok [⟨"add", [d, s, "r0"]⟩]
  | movia, [d, x] =>
    .ok [⟨"orhi", [d, "r0", "%hiadj(" ++ x ++ ")"]⟩, ⟨"addi", [d, d, "%lo(" ++ x ++ ")"]⟩]
  | subi, [d, s, k] => .ok [⟨"addi", [d, s, negate k]⟩]
  | cmple, [d, a, b] => .ok [⟨"cmpge", [d, b, a]⟩]
  | cmpgt, [d, a, b] => .ok [⟨"cmplt", [d, b, a]⟩]
  | bgt, [a, b, target] => .ok [⟨"blt", [b, a, target]⟩]
  | ble, [a, b, target] => .ok [⟨"bge", [b, a, target]⟩]
  | p, operands => .error (.operandCount p.arity operands.length)

end Pseudo

def Command.expand (c : Command) : Except Cause (List Command) :=
  match Pseudo.ofName? c.mnemonic with
  | some p => p.expand c.operands
  | none => .ok [c]

end Risc32.Assembly
