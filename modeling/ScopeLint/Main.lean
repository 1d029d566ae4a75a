import ScopeLint.Command
import ScopeLint.Snapshot.Files

/-! The program itself. The arguments are those of a command; the parsed files of the project come
as a snapshot on standard input. -/

namespace ScopeLint

/-- All that an input holds. -/
partial def readAll (input : IO.FS.Stream) (done : String) : IO String := do
  let line ← input.getLine
  if line.isEmpty then return done else readAll input (done ++ line)

/-- Prints an outcome: its lines, and what went wrong on the error output. -/
def report (outcome : Command.Outcome) : IO UInt32 := do
  outcome.lines.forM IO.println
  match outcome.fault with
  | none => return 0
  | some fault =>
    IO.eprintln (fault.message?.getD "the input leads back to itself")
    return 1

end ScopeLint

def main (args : List String) : IO UInt32 := do
  let text ← ScopeLint.readAll (← IO.getStdin) ""
  match (ScopeLint.Datum.ofText? text).bind (ScopeLint.Disk.ofDatum? "project") with
  | some disk => ScopeLint.report (ScopeLint.Command.run disk args)
  | none =>
    IO.eprintln "the snapshot of the project cannot be read"
    return 2
