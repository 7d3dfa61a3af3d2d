import Risc32.Assembly.Grammar
import Risc32.Assembly.DataDraft
import Risc32.Assembly.Statement
import Risc32.Assembly.Token
import Risc32.Text.Case

/-!
# Reading source

The first thing to know about a source is where its labels are. Reading it line by line gives the
statements, the labels in front of them and the layout of the data segment. Operands are left
alone, since they may name labels that come later.

A source has two segments, and a line belongs to the one that was named last. Whatever order they
come in, instructions are at the front of the program and data follows them.

Reading also notes which names are called. A function is a label of the program that some call
names, and only names that are written behind a `call` count.
-/

set_option autoImplicit false

namespace Risc32.Assembly

inductive Segment where
  | text
  | data
deriving DecidableEq, Repr

/-! ## Lines -/

inductive Line where
  /-- Nothing: the line is blank or a comment. -/
  | blank
  /-- The lines that follow belong to this segment. -/
  | segment (s : Segment)
  /-- A label, tokens behind it, or both. -/
  | content (label : Option String) (tokens : List String)
deriving DecidableEq, Repr

namespace Segment

def ofDirective? (token : String) : Option Segment :=
  match Text.lower token with
  | ".text" => some text
  | ".data" => some data
  | _ => none

end Segment

namespace Line

/-- Tells a segment directive, which stands alone, from other lines. -/
def ofLabelAndTokens (label : Option String) (tokens : List String) : Except Cause Line :=
  match tokens.head?.bind Segment.ofDirective? with
  | some s =>
    if label.isSome || tokens.length > 1 then .error .segmentNotAlone else .ok (.segment s)
  | none => .ok (.content label tokens)

/-- Reads the tokens of a line. A token that ends in a colon is meant as a label if it comes
first. -/
def ofTokens : List String → Except Cause Line
  | [] => .ok .blank
  | token :: rest =>
    if endsInColon token then
      match labelName? token with
      | some name => ofLabelAndTokens (some name) rest
      | none => .error (.invalidLabel token)
    else ofLabelAndTokens none (token :: rest)

def parse (source : String) : Except Cause Line :=
  match tokens? source with
  | some tokens => ofTokens tokens
  | none => .error .unreadable

end Line

/-! ## Drafts -/

/-- What is known of a program after some of its lines. -/
structure Draft where
  statements : Array Statement
  /-- The labels the program was seeded with and those of its instructions. -/
  labels : LabelTable
  /-- The names of the labels of instructions. -/
  textLabels : List String
  /-- What calls are to. -/
  called : List String
  data : DataDraft
  /-- The segment that the next line belongs to. -/
  segment : Segment

/-- Binds a label, or fails with the error for a label that is bound already. -/
def bindLabel (labels : LabelTable) (line : Nat) (name : String) (address : Nat) :
    Except Error LabelTable :=
  match labels.insert? name address with
  | some labels => .ok labels
  | none => .error ⟨line, name ++ ":", .duplicateLabel name⟩

namespace Draft

/-- A draft with no lines, seeded with labels. -/
def new (seed : LabelTable) : Draft where
  statements := #[]
  labels := seed
  textLabels := []
  called := []
  data := .empty
  segment := .text

def address (d : Draft) : Nat :=
  4 * d.statements.size

def addLabel (d : Draft) (line : Nat) (name : String) : Except Error Draft := do
  let labels ← bindLabel d.labels line name d.address
  return { d with labels := labels, textLabels := name :: d.textLabels }

/-- The command that tokens stand for. A label on its own still needs an instruction to label. -/
def commandOf : List String → Command
  | [] => ⟨"nop", []⟩
  | mnemonic :: operands => ⟨Text.lower mnemonic, operands⟩

def calledBy (c : Command) : List String :=
  if c.mnemonic = "call" then c.operands.take 1 else []

def addCommand (d : Draft) (line : Nat) (c : Command) : Except Error Draft :=
  match c.expand with
  | .error cause => .error ⟨line, c.mnemonic, cause⟩
  | .ok commands =>
    .ok { d with
      statements := d.statements ++ commands.map (Statement.mk · line)
      called := (calledBy c).foldl (fun called name => called.insert name) d.called }

/-- Adds a line of the segment that the draft is in. -/
def addContent (d : Draft) (line : Nat) (source : String) (label : Option String)
    (tokens : List String) : Except Error Draft :=
  match d.segment with
  | .data =>
    match d.data.addDeclaration line label tokens with
    | .ok data => .ok { d with data := data }
    | .error cause => .error ⟨line, Text.trim source, cause⟩
  | .text => do
    let d ← match label with
      | some name => d.addLabel line name
      | none => pure d
    d.addCommand line (commandOf tokens)

def addLine (d : Draft) (line : Nat) (source : String) : Except Error Draft :=
  match Line.parse source with
  | .error cause => .error ⟨line, Text.trim source, cause⟩
  | .ok .blank => .ok d
  | .ok (.segment s) => .ok { d with segment := s }
  | .ok (.content label tokens) => d.addContent line source label tokens

/-- Adds lines, the first of which has the given number. -/
def addLines (d : Draft) (line : Nat) : List String → Except Error Draft
  | [] => .ok d
  | source :: rest => do
    let d ← d.addLine line source
    d.addLines (line + 1) rest

/-- All labels of the program, those of its data included. Data begins where the instructions
end. -/
def allLabels (d : Draft) : Except Error LabelTable :=
  d.data.labels.toList.foldlM
    (fun labels l => bindLabel labels l.line l.name (d.address + l.offset)) d.labels

/-- The addresses at which functions can begin: those of labels that are called. -/
def entries (d : Draft) : List Nat :=
  (d.textLabels.filter (d.called.contains ·)).filterMap d.labels.address?

end Draft

end Risc32.Assembly
