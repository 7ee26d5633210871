import Stlc.CommandLine

/-!
# The executable

Reads the standard input, runs the program on it, and writes what it leaves behind. Evaluation is
given twice the steps whenever those it had were too few.
-/

namespace Stlc

partial def readAll (stream : IO.FS.Stream) (soFar : ByteArray) : IO ByteArray := do
  let bytes ← stream.read 65536
  if bytes.isEmpty then return soFar else readAll stream (soFar ++ bytes)

/-- Runs the program with enough steps. -/
partial def runToEnd (args : List String) (stdin : Except String String) (fuel : Nat) :
    IO Outcome :=
  match runArgs args stdin fuel with
  | some outcome => return outcome
  | none => runToEnd args stdin (2 * fuel)

end Stlc

def main (args : List String) : IO UInt32 := do
  let bytes ← Stlc.readAll (← IO.getStdin) .empty
  let stdin := match String.fromUTF8? bytes with
    | some text => .ok text
    | none => .error "stream did not contain valid UTF-8"
  let outcome ← Stlc.runToEnd args stdin 1024
  IO.print outcome.output
  IO.eprint outcome.errors
  return outcome.code.toUInt32
