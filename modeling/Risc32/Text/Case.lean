/-!
# Lower case

Mnemonics, directives and register names may be written in either case. Only ASCII letters have
two: any other character stands for itself.
-/

set_option autoImplicit false

namespace Risc32.Text

/-- The text with its ASCII capitals in lower case. -/
def lower (s : String) : String :=
  String.ofList (s.toList.map Char.toLower)

end Risc32.Text
