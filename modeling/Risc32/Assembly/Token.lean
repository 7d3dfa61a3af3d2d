import Risc32.Text.Blank

/-!
# Tokens of a line

A line of source is a list of tokens with blanks and commas between them, and may end in a
comment. Every character before the comment is either a separator or part of a token; a line with
any other character cannot be read at all.
-/

set_option autoImplicit false

namespace Risc32.Assembly

def commentChar : Char := '#'

/-- What stands between tokens. -/
def isSeparator (c : Char) : Bool :=
  Text.isBlank c || c == ','

/-- What tokens are made of besides letters and digits. -/
def tokenMarks : List Char :=
  ['_', '.', ':', '%', '(', ')', '-', '+']

/-- What tokens are made of. -/
def isTokenChar (c : Char) : Bool :=
  c.isAlphanum || tokenMarks.contains c

/-- The part of a line before its comment. -/
def code (line : List Char) : List Char :=
  line.takeWhile (· != commentChar)

/-- The longest beginning of a text whose characters satisfy `p`, and what follows it. None if the
text does not begin with such a character. -/
def word? (p : Char → Bool) (cs : List Char) : Option (List Char × List Char) :=
  match cs.takeWhile p with
  | [] => none
  | word => some (word, cs.dropWhile p)

theorem length_lt_of_word? {p : Char → Bool} {cs word rest : List Char}
    (h : word? p cs = some (word, rest)) : rest.length < cs.length := by
  unfold word? at h
  split at h
  · cases h
  · next hne =>
    obtain ⟨rfl, rfl⟩ := Prod.mk.inj (Option.some.inj h)
    have hlength := congrArg List.length (List.takeWhile_append_dropWhile (p := p) (l := cs))
    rw [List.length_append] at hlength
    have hpositive := List.length_pos_iff.2 hne
    omega

/-- A token behind a separator or more, and what follows it. -/
def nextToken? (cs : List Char) : Option (List Char × List Char) := do
  let (_, behind) ← word? isSeparator cs
  word? isTokenChar behind

theorem length_lt_of_nextToken? {cs token rest : List Char}
    (h : nextToken? cs = some (token, rest)) : rest.length < cs.length := by
  obtain ⟨⟨gap, behind⟩, hgap, htoken⟩ := Option.bind_eq_some_iff.1 h
  exact Nat.lt_trans (length_lt_of_word? htoken) (length_lt_of_word? hgap)

/-- The tokens that follow a token, and what is left behind the last one. Separators with no token
behind them are left as well. -/
def tokensBehind (cs : List Char) : List (List Char) × List Char :=
  match _h : nextToken? cs with
  | none => ([], cs)
  | some (token, rest) =>
    let (tokens, left) := tokensBehind rest
    (token :: tokens, left)
termination_by cs.length
decreasing_by exact length_lt_of_nextToken? _h

/-- Tokens with separators between them, as many as there are, and what is left behind the last
one. -/
def tokensPart (cs : List Char) : List (List Char) × List Char :=
  match word? isTokenChar cs with
  | none => ([], cs)
  | some (token, rest) =>
    let (tokens, left) := tokensBehind rest
    (token :: tokens, left)

/-- The tokens of a line. There can be separators at either end of them, but nothing else may be
left. -/
def tokens? (line : String) : Option (List String) :=
  let (tokens, left) := tokensPart ((code line.toList).dropWhile isSeparator)
  if (left.dropWhile isSeparator).isEmpty then some (tokens.map String.ofList) else none

end Risc32.Assembly
