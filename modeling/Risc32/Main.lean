import Risc32.Demo

/-!
# Command line

Runs the demonstration. It fails with status 1 if the program cannot be assembled or run.
-/

set_option autoImplicit false

/-- Writes characters as they are, one byte each. -/
def writeShown (out : IO.FS.Stream) (shown : Array Risc32.Byte) : IO Unit :=
  out.write ⟨shown.map fun b => UInt8.ofNat b.toNat⟩

def main : IO UInt32 := do
  let outcome := Risc32.Demo.outcome
  let out ← IO.getStdout
  writeShown out outcome.shown
  match outcome.result with
  | .ok text =>
    out.putStr (text ++ "\n")
    return 0
  | .error (.assembly reason) =>
    IO.eprintln reason.message
    return 1
  | .error reason =>
    IO.eprintln reason.message
    return 1
