import RowQuery.Command.Run

/-!
The program: reads the command line and the files that it names, and writes what the run leaves.
-/

open RowQuery

/-- The contents of a file, or the reason why there are none. -/
def readContents (path : String) : IO (Except String String) := do
  try
    return .ok (← IO.FS.readFile path)
  catch
    | .noFileOrDirectory _ _ _ => return .error "No such file or directory (os error 2)"
    | e => return .error (toString e)

def main (argv : List String) : IO UInt32 := do
  let done ← match Command.parse? argv with
    | none => pure Command.usage
    | some (reporting, command) =>
      let contents ← command.paths.mapM fun path => return (path, ← readContents path)
      let files : Files := fun path => (contents.lookup path).getD (.error "not read")
      pure (command.run reporting files)
  IO.print done.stdout
  IO.eprint done.stderr
  return UInt32.ofNat done.exit
