import Risc32.Word

/-!
# Hexadecimal text

Addresses and words are shown in lower case hexadecimal behind `0x`. In faults and in the
display of the machine they always have eight digits; in the text of an instruction they have
as many as they need.
-/

set_option autoImplicit false

namespace Risc32.Text

/-- The digits of `n` in base sixteen, with no leading zero. -/
def hexDigits (n : Nat) : String :=
  String.ofList (Nat.toDigits 16 n)

/-- `n` behind `0x`, with as many digits as it needs. -/
def hex (n : Nat) : String :=
  "0x" ++ hexDigits n

/-- A word behind `0x`, with all of its eight digits. -/
def hexWord (w : Word) : String :=
  let digits := Nat.toDigits 16 w.toNat
  "0x" ++ String.ofList (List.replicate (8 - digits.length) '0' ++ digits)

end Risc32.Text
