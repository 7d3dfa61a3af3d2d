import Risc32.Word

/-!
# Arithmetic and comparison

What an instruction computes from two words. The interpreter picks a function for each
instruction it executes and a compiled routine has it picked once, but both apply the functions
of this file and nothing else.
-/

set_option autoImplicit false

namespace Risc32

/-- The word for a truth value: one or zero. -/
def Word.ofBool (b : Bool) : Word :=
  if b then 1#32 else 0#32

namespace Arithmetic

inductive Function where
  | add
  | sub
  | and
  | or
  | xor
  | nor
  | shiftLeft
  | shiftRight
  | equal
  | notEqual
  | greaterEqual
  | less
deriving DecidableEq, Repr

/-- Arithmetic wraps, comparisons are signed, and shifts are logical and use only the low five
bits of the amount. -/
def Function.apply : Function → Word → Word → Word
  | .add, a, b => a + b
  | .sub, a, b => a - b
  | .and, a, b => a &&& b
  | .or, a, b => a ||| b
  | .xor, a, b => a ^^^ b
  | .nor, a, b => ~~~(a ||| b)
  | .shiftLeft, a, b => a <<< (b.toNat % 32)
  | .shiftRight, a, b => a >>> (b.toNat % 32)
  | .equal, a, b => Word.ofBool (a == b)
  | .notEqual, a, b => Word.ofBool (a != b)
  | .greaterEqual, a, b => Word.ofBool (b.sle a)
  | .less, a, b => Word.ofBool (a.slt b)

/-- What a branch asks of its two operands. -/
inductive Condition where
  | always
  | equal
  | notEqual
  | greaterEqual
  | less
deriving DecidableEq, Repr

/-- Whether the condition holds, with both operands read as signed numbers. -/
def Condition.holds : Condition → Word → Word → Bool
  | .always, _, _ => true
  | .equal, a, b => a == b
  | .notEqual, a, b => a != b
  | .greaterEqual, a, b => b.sle a
  | .less, a, b => a.slt b

end Arithmetic

end Risc32
