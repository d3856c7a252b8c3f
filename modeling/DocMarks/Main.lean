import DocMarks.Command.Outcome

namespace DocMarks

def readFile (path : String) : IO (Except FileError String) := do
  try
    return textOfBytes (← IO.FS.readBinFile path)
  catch _ => return .error .missing

def readFiles (paths : List String) : IO Files := do
  let contents ← paths.mapM fun path => return (path, ← readFile path)
  return fun path => (Entries.get? contents path).getD (.error .missing)

def printReport (r : Report) : IO Unit :=
  IO.eprintln s!"[{r.code}] Error: {r.message}\n  at {r.place}: {r.label}"

def program (args : List String) : IO UInt32 := do
  match Command.ofArgs? args with
  | none =>
    IO.eprintln "usage: docmarks extract|parse FILE --schema FILE [--pretty] [--max-depth N]"
    IO.eprintln "       docmarks schema FILE"
    return 2
  | some command =>
    let outcome := command.run (← readFiles command.paths)
    outcome.messages.forM IO.eprintln
    outcome.reports.forM printReport
    IO.print outcome.output
    return outcome.status.toUInt32

end DocMarks

def main (args : List String) : IO UInt32 := DocMarks.program args
