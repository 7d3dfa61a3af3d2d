import Risc32.Assembly.Assemble
import Risc32.Failure
import Risc32.Machine.Display

/-!
# A demonstration

A small program that prints a line of dots is run three times: interpreted, with its function
compiled on demand, and compiled as a whole. All three print the same line. After that the
registers of the first machine are shown.
-/

set_option autoImplicit false

namespace Risc32.Demo

def source : String :=
  String.intercalate "\n" [
    "# Counts r2 down to zero through a function call, printing a dot per round.",
    "        .data",
    "rounds: .word 10",
    "        .text",
    "main:   movia r1, rounds",
    "        ldw   r2, 0(r1)",
    "loop:   call  decr2",
    "        movi  r4, 46",
    "        call  putchar",
    "        bne   r0, r2, loop",
    "        movi  r4, 10",
    "        call  putchar",
    "        br    end",
    "decr2:  subi  r2, r2, 1",
    "        ret",
    "end:    nop"]

/-- Enough for the few dozen steps that the program takes. -/
def fuel : Nat := 10000

/-- What was shown on the console, and how it ended: with a last text to be shown, or with an
error. -/
structure Outcome where
  shown : Array Byte
  result : Except Failure String

/-- Runs the program on a machine whose console already shows something. -/
def runOn (config : Config) (shown : Array Byte)
    (run : Exec (Machine (Array Byte)) Unit) : Except Halt Unit × Machine (Array Byte) :=
  match run (Machine.new config shown) with
  | .ok () m => (.ok (), m)
  | .error halt m => (.error halt, m)

/-- Runs the program in all three ways, one after the other, as far as they succeed. -/
def runAll (p : Program) : Outcome :=
  let (result, interpreted) := runOn {} #[] (Machine.runProgram fuel p)
  match result with
  | .error halt => ⟨interpreted.host, .error (.halt halt)⟩
  | .ok () =>
    let (result, partly) :=
      runOn { compileOnDemand := true } interpreted.host (Machine.runProgram fuel p)
    match result with
    | .error halt => ⟨partly.host, .error (.halt halt)⟩
    | .ok () =>
      let (result, compiled) := runOn {} partly.host (Machine.runCompiled fuel p)
      match result with
      | .error halt => ⟨compiled.host, .error (.halt halt)⟩
      | .ok () => ⟨compiled.host, .ok interpreted.display⟩

def outcome : Outcome :=
  let calls : SystemCalls (Array Byte) := .defaults
  match Program.ofText source (.ofSymbols calls.symbols) with
  | .error reason => ⟨#[], .error (.assembly reason)⟩
  | .ok p => runAll p

end Risc32.Demo
