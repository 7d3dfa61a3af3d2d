/-!
# Blank characters and lines

A blank is a character with the Unicode property `White_Space`. Source text may contain any of
them between its tokens and around its lines.
-/

set_option autoImplicit false

namespace Risc32.Text

/-- The ranges of code points with the property `White_Space`, first and last. -/
def blankRanges : List (Nat × Nat) :=
  [(0x09, 0x0D), (0x20, 0x20), (0x85, 0x85), (0xA0, 0xA0), (0x1680, 0x1680), (0x2000, 0x200A),
    (0x2028, 0x2029), (0x202F, 0x202F), (0x205F, 0x205F), (0x3000, 0x3000)]

def isBlank (c : Char) : Bool :=
  blankRanges.any fun (first, last) => first ≤ c.toNat && c.toNat ≤ last

/-- The text without blanks at either end. -/
def trim (s : String) : String :=
  String.ofList (((s.toList.dropWhile isBlank).reverse.dropWhile isBlank).reverse)

/-- Puts a character in front of a text, which is given as its ended lines and what follows the
last of them. A line feed ends the line in front of it. -/
def prependToLines (c : Char) :
    List (List Char) × List Char → List (List Char) × List Char
  | (ended, rest) =>
    if c = '\n' then ([] :: ended, rest)
    else
      match ended with
      | [] => ([], c :: rest)
      | l :: ls => ((c :: l) :: ls, rest)

/-- A line without the carriage return that may end it. -/
def dropReturn (line : List Char) : List Char :=
  if line.getLast? = some '\r' then line.dropLast else line

/-- The lines of a text. A line feed, with or without a carriage return before it, ends a line,
and what follows the last one is a line only if there is any of it. -/
def lines (s : String) : List String :=
  let (ended, rest) := s.toList.foldr prependToLines ([], [])
  (ended.map dropReturn ++ if rest.isEmpty then [] else [rest]).map String.ofList

end Risc32.Text
