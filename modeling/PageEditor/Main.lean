import PageEditor.Program.Run

/-!
# Command line

Reads the files that a command line names, runs it, and prints and writes what comes out.
-/
set_option autoImplicit false

namespace PageEditor

def usage : String :=
  "usage: [--config FILE] [--verbose] COMMAND\n" ++
  "  check FILE...\n" ++
  "  tree [--json] FILE\n" ++
  "  roundtrip [--pretty] FILE...\n" ++
  "  render [--first-pass] [--budget-ms N] FILE\n" ++
  "  apply --commands FILE [--write | --output FILE] FILE\n" ++
  "  drop --source ID --target ID --x N --y N --width N --height N [--write] FILE\n"

def readContent (path : String) : IO FileContent := do
  try
    return .text (← IO.FS.readFile path)
  catch
    | .noFileOrDirectory .. => return .absent
    | .inappropriateType _ 20 _ => return .absent
    | _ => return .unreadable

/-- Writes a text to a file; gives what went wrong. -/
def writeText (w : FileWrite) : IO (Option FileError) := do
  try
    IO.FS.writeFile w.path w.text
    return none
  catch
    | .noFileOrDirectory _ code details | .inappropriateType _ code details
    | .permissionDenied _ code details | .invalidArgument _ code details
    | .resourceExhausted _ code details | .resourceBusy code details =>
      return some (.other (details ++ " (os error " ++ toString code ++ ")"))
    | e => return some (.other (toString e))

/-- Says why a run did not succeed; gives the exit code. -/
def finish (o : RunOutcome) : IO UInt32 := do
  match o.failure with
  | none => return 0
  | some f =>
    IO.eprint ("\nError: " ++ f.message ++ "\n\n")
    return 1

/-- Runs a command line in the working folder; gives the exit code. -/
def runCommandLine (args : List String) : IO UInt32 := do
  match Invocation.ofArgs? args with
  | none =>
    IO.eprint usage
    return 2
  | some i =>
    let contents ← (i.paths ".").mapM fun path => return (path, ← readContent path)
    let o := i.run ⟨".", fun path => (contents.lookup path).getD .absent⟩
    IO.print o.output
    IO.eprint o.log
    match o.write with
    | none => finish o
    | some w =>
      let r ← writeText w
      let done := RunOutcome.written {} w r
      IO.eprint done.log
      finish done

end PageEditor

def main (args : List String) : IO UInt32 := PageEditor.runCommandLine args
