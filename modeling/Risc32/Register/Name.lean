import Risc32.Word
import Risc32.Text.Case

/-!
# Register names

There are thirty-two general purpose registers, `r0` to `r31`. Some of them have a second name
after the use that programs make of them. Only `r0` is special: it always reads as zero.
-/

set_option autoImplicit false

namespace Risc32

/-- One of the thirty-two registers. -/
abbrev Register := Fin 32

namespace Register

/-- Where a call leaves the address to return to. -/
def returnAddress : Register := 31

/-- Where the first argument of a system call is passed. -/
def firstArgument : Register := 4

def index (r : Register) : Byte :=
  BitVec.ofNat 8 r.val

def name (r : Register) : String :=
  "r" ++ toString r.val

/-- The second names that some registers have. -/
def aliases : List (String × Register) :=
  [("at", 1), ("et", 24), ("bt", 25), ("gp", 26), ("sp", 27), ("fp", 28), ("ea", 29), ("ba", 30),
    ("ra", 31)]

/-- Every name a register answers to, in lower case. -/
def names : List (String × Register) :=
  (List.finRange 32).map (fun r => (name r, r)) ++ aliases

/-- The register with the given name. Names may be written in either case. -/
def ofName? (s : String) : Option Register :=
  names.lookup (Text.lower s)

def ofNumber? (n : Nat) : Option Register :=
  if h : n < 32 then some ⟨n, h⟩ else none

end Register

end Risc32
