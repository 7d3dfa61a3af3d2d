import Risc32.Assembly.Operand
import Risc32.Assembly.Statement
import Risc32.Encoding.Instruction

/-!
# From statements to instructions

The operands of each family of instructions, in the order in which they are written:

```
register        op rC, rA, rB          rC ← rA op rB
shift           op rC, rA, amount
immediate       op rB, rA, immediate   rB ← rA op immediate
branch          op rA, rB, target
br              br target
load, store     op rB, offset(rA)
call            call target
callr           callr rA
ret             ret
```

Operands are read from left to right, and the first one that is wrong is the error.
-/

set_option autoImplicit false

namespace Risc32.Assembly

/-- The number of operands an operation with the register layout takes. -/
def extendedArity : ExtendedOpcode.Role → Nat
  | .compute _ | .shift _ => 3
  | .callRegister => 1
  | .ret => 0

def extendedInstruction (s : Scope) (op : ExtendedOpcode) (operands : List String) :
    Except Cause Instruction := do
  match op.role, operands with
  | .compute _, [c, a, b] =>
    let c ← registerField c
    let a ← registerField a
    let b ← registerField b
    return .ofRegisters op a b c
  | .shift _, [c, a, amount] =>
    let c ← registerField c
    let a ← registerField a
    let amount ← shiftField s amount
    return .ofShift op a c amount
  | .callRegister, [a] =>
    let a ← registerField a
    return .ofRegisters op a 0 Register.returnAddress.index
  | .ret, [] => return .ofRegisters op Register.returnAddress.index 0 0
  | role, operands => throw (.operandCount (extendedArity role) operands.length)

/-- The number of operands an operation with an opcode of its own takes. -/
def primaryArity : Opcode.Role → Nat
  | .compute _ => 3
  | .branch .always => 1
  | .branch _ => 3
  | .access _ => 2
  | .call => 1
  | .registers => 0

def primaryInstruction (s : Scope) (op : Opcode) (operands : List String) :
    Except Cause Instruction := do
  match op.role, operands with
  | .registers, _ => throw (.unknownInstruction op.name)
  | .call, [target] => return .ofJump op (← callField s target)
  | .branch .always, [target] => return .ofImmediate op 0 0 (← branchField s target)
  | .branch .always, operands => throw (.operandCount 1 operands.length)
  | .branch _, [a, b, target] =>
    let a ← registerField a
    let b ← registerField b
    let offset ← branchField s target
    return .ofImmediate op a b offset
  | .access _, [b, address] =>
    let b ← registerField b
    let (offset, a) ← memoryFields s address
    return .ofImmediate op a b offset
  | .compute _, [b, a, immediate] =>
    let b ← registerField b
    let a ← registerField a
    let immediate ← immediateField s immediate
    return .ofImmediate op a b immediate
  | role, operands => throw (.operandCount (primaryArity role) operands.length)

def instructionOf (s : Scope) (c : Command) : Except Cause Instruction :=
  match ExtendedOpcode.ofName? c.mnemonic with
  | some op => extendedInstruction s op c.operands
  | none =>
    match Opcode.ofName? c.mnemonic with
    | some op => primaryInstruction s op c.operands
    | none => .error (.unknownInstruction c.mnemonic)

end Risc32.Assembly
