import Risc32.Compiled.Builder
import Risc32.Encoding.Instruction

/-!
# Compiling instructions

`Builder.add` appends the one step that does what an instruction does. A few instructions have
no such step: a call where calls are not linked, and a call through a register anywhere.
-/

set_option autoImplicit false

namespace Risc32

namespace Builder

def site (b : Builder) (instruction : String) : Site :=
  ⟨instruction, b.nextAddress⟩

/-- That the current instruction has no compiled form. -/
def noForm (b : Builder) (i : Instruction) : CompileError :=
  .noForm b.index i.text

/-- Appends a branch. The offset counts bytes from the next instruction. If it is no multiple of
four there is nothing to branch to, and the branch faults when it is taken. -/
def addBranch (b : Builder) (op : Opcode) (condition : Arithmetic.Condition) (f : ImmediateForm) :
    Except CompileError Builder :=
  let offset := f.signed
  if offset.toInt % 4 = 0 then do
    let (label, b) ← b.labelFor (b.index + offset.toInt / 4 + 1)
    return b.push (.branch condition f.a f.b label)
  else
    return b.push (.misalignedBranch condition f.a f.b (b.site op.name) (b.nextAddress + offset))

/-- Appends a call. A function of the program goes before a system call at the same address. -/
def addCall (b : Builder) (i : Instruction) (f : JumpForm) : Except CompileError Builder :=
  match b.linkage with
  | .none => .error (b.noForm i)
  | .units functions systemCalls =>
    let target := f.target b.nextAddress
    let unit :=
      if b.base ≤ target then
        Linkage.unitAt? functions ((target.toNat - b.base.toNat) / 4)
      else none
    match unit with
    | some unit => return b.push (.callUnit b.nextAddress unit)
    | none =>
      if systemCalls.contains target then return b.push (.callSystem b.nextAddress target)
      else .error (.unknownCallTarget b.index target)

/-- Appends the step for an instruction, which is the current one. -/
def add (b : Builder) (i : Instruction) : Except CompileError Builder :=
  match i with
  | .immediate op f =>
    match op.role with
    | .compute g => return b.push (.computeWith g f.b f.a (op.operand f.immediate))
    | .branch condition => b.addBranch op condition f
    | .access kind => return b.push (.access kind (b.site op.name) f.b f.a f.signed)
    | .call | .registers => .error (b.noForm i)
  | .register op f =>
    match op.role with
    | .compute g => return b.push (.compute g f.c f.a f.b)
    | .shift g => return b.push (.computeWith g f.c f.a f.amount)
    | .ret =>
      match b.exit with
      | .toInterpreter => return b.push (.returnTo (b.site op.name))
      | .toCaller => return b.push (.transfer .leave)
    | .callRegister => .error (b.noForm i)
  | .jump op f =>
    match op.role with
    | .call => b.addCall i f
    | _ => .error (b.noForm i)

/-- Makes a word the current instruction and appends its step. -/
def addWord (b : Builder) (index : Nat) (w : Word) : Except CompileError Builder :=
  let b := b.enter index
  match Instruction.decode w with
  | some i => b.add i
  | none => .error (.undecodable index w)

/-- Appends words, the first of which has the index `first`. The index past the last one is left
unbound, so that nothing can branch there. -/
def addWords (b : Builder) (first : Nat) : List Word → Except CompileError Builder
  | [] => .ok b
  | w :: ws => do
    let b ← b.addWord first w
    b.addWords (first + 1) ws

end Builder

end Risc32
