/-!
# Integer literals

A literal is an optional sign and then either decimal digits or `0x` and hexadecimal digits. Its
magnitude has to be below 2⁶³, so that a literal can be negated like any other number that an
operand stands for.
-/

set_option autoImplicit false

namespace Risc32.Assembly

/-- The greatest magnitude of a literal, 2⁶³ - 1. -/
def literalLimit : Nat :=
  0x7FFFFFFFFFFFFFFF

/-- The value of a hexadecimal digit, in either case. -/
def hexDigit? (c : Char) : Option Nat :=
  if c.isDigit then some (c.toNat - '0'.toNat)
  else if 'a' ≤ c && c ≤ 'f' then some (c.toNat - 'a'.toNat + 10)
  else if 'A' ≤ c && c ≤ 'F' then some (c.toNat - 'A'.toNat + 10)
  else none

/-- The value of a decimal digit. -/
def decimalDigit? (c : Char) : Option Nat :=
  if c.isDigit then some (c.toNat - '0'.toNat) else none

/-- The number that digits denote behind a number read before. None if one is no digit. -/
def digitsFrom? (base : Nat) (digit? : Char → Option Nat) : Nat → List Char → Option Nat
  | n, [] => some n
  | n, c :: cs => do
    let d ← digit? c
    digitsFrom? base digit? (base * n + d) cs

/-- The number that one or more digits denote, if a literal can be as great. -/
def digits? (base : Nat) (digit? : Char → Option Nat) (cs : List Char) : Option Nat :=
  if cs.isEmpty then none
  else (digitsFrom? base digit? 0 cs).filter (· ≤ literalLimit)

/-- The number that the digits at the front of a text denote, and what follows the digits. -/
def digitsPart? (base : Nat) (digit? : Char → Option Nat) (cs : List Char) :
    Option (Nat × List Char) :=
  (digits? base digit? (cs.takeWhile fun c => (digit? c).isSome)).map fun n =>
    (n, cs.dropWhile fun c => (digit? c).isSome)

/-- The number that is written behind `0x` at the front of a text, and what follows it. -/
def hexadecimalPart? (cs : List Char) : Option (Nat × List Char) :=
  match cs with
  | '0' :: 'x' :: ds => digitsPart? 16 hexDigit? ds
  | '0' :: 'X' :: ds => digitsPart? 16 hexDigit? ds
  | _ => none

/-- The number at the front of a text, and what follows it. What is no hexadecimal number, because
it has no digits or is too great, can still be a decimal one. -/
def magnitudePart? (cs : List Char) : Option (Nat × List Char) :=
  (hexadecimalPart? cs).or (digitsPart? 10 decimalDigit? cs)

/-- What has been read, if it was the whole text. -/
def whole? (part : Option (Nat × List Char)) : Option Nat :=
  match part with
  | some (n, []) => some n
  | _ => none

/-- The number that a literal without a sign denotes. -/
def magnitude? (cs : List Char) : Option Nat :=
  whole? (magnitudePart? cs)

/-- The number that a literal denotes. -/
def integerOfChars? (cs : List Char) : Option Int :=
  match cs with
  | '-' :: ds => (magnitude? ds).map fun (n : Nat) => -(n : Int)
  | '+' :: ds => (magnitude? ds).map Int.ofNat
  | ds => (magnitude? ds).map Int.ofNat

/-- The number that a token denotes, if it is a literal. -/
def integer? (token : String) : Option Int :=
  integerOfChars? token.toList

end Risc32.Assembly
