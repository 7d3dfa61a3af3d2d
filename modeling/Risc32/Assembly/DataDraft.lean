import Risc32.Assembly.Error
import Risc32.Assembly.Literal
import Risc32.Program.StaticData
import Risc32.Names
import Risc32.Text.Case

/-!
# Layout of the data segment

Variables are laid out in the order in which they are declared. Where the segment begins is only
known once all instructions have been counted, so until then addresses are counted from the
beginning of the segment.

Words are moved up to the next multiple of four, and a label in front of them with them. Since
the segment follows whole instructions, they stay aligned when it is placed.
-/

set_option autoImplicit false

namespace Risc32

/-- The name of the directive that declares variables of a kind. -/
def VariableKind.ofDirective? (directive : String) : Option VariableKind :=
  match directive with
  | ".word" => some .word
  | ".byte" => some .byte
  | _ => none

/-- The values a variable can be declared with: the signed and the unsigned ones of its size. -/
def VariableKind.admits : VariableKind → Int → Bool
  | .word, value => -0x80000000 ≤ value && value ≤ 0xFFFFFFFF
  | .byte, value => -0x80 ≤ value && value ≤ 0xFF

/-- The first offset from `n` on at which a variable can stand. -/
def VariableKind.align : VariableKind → Nat → Nat
  | .word, n => (n + 3) / 4 * 4
  | .byte, n => n

namespace Assembly

/-- The label of a variable: its offset in the segment, and the line that defines it. -/
structure DataLabel where
  name : String
  offset : Nat
  line : Nat
deriving DecidableEq, Repr

/-- The data segment as far as it has been read. -/
structure DataDraft where
  /-- The variables, with offsets for addresses. -/
  vars : Array Variable
  labels : Array DataLabel
  /-- The offset of the first free byte. -/
  size : Nat
deriving DecidableEq, Repr

namespace DataDraft

def empty : DataDraft :=
  ⟨#[], #[], 0⟩

def push (l : DataDraft) (kind : VariableKind) (value : Word) : DataDraft :=
  { l with vars := l.vars.push ⟨l.size, kind, value⟩, size := l.size + kind.size }

/-- Appends a variable for each token, which has to be a literal. -/
def pushValues (l : DataDraft) (kind : VariableKind) (directive : String) (values : List String) :
    Except Cause DataDraft :=
  values.foldlM (fun l text =>
    match (integer? text).filter kind.admits with
    | some value => .ok (l.push kind (BitVec.ofInt 32 value))
    | none => .error (.invalidDataValue directive text)) l

/-- Appends what a line declares: a label for it, if there is one, and its variables. -/
def addDeclaration (l : DataDraft) (line : Nat) (label : Option String) (tokens : List String) :
    Except Cause DataDraft :=
  match tokens with
  | [] => .error .missingDataDirective
  | directive :: values =>
    match VariableKind.ofDirective? (Text.lower directive) with
    | none => .error (.unknownDataDirective (Text.lower directive))
    | some kind =>
      if values.isEmpty then .error (.noDataValue directive)
      else
        let offset := kind.align l.size
        let labels := label.toList.map fun name => DataLabel.mk name offset line
        { l with labels := l.labels ++ labels, size := offset }.pushValues kind directive values

def area (l : DataDraft) (start : Nat) : StaticData where
  start := start
  vars := l.vars.toList.map fun v => { v with address := start + v.address }

end DataDraft

end Assembly

end Risc32
