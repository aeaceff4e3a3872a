import MoonBackend.Command.Programs

/-!
# The executable

The first argument names the command; the rest are its arguments.
-/

namespace MoonBackend

def systemHost : Command.Host IO where
  directory := return (← IO.currentDir).toString
  environment := do
    let mut values : List (String × String) := []
    for name in ["MOONC_ENTRY", "MOONC_SEPARATOR", "MOONC_COMMENTS", "MOONC_BUFFER_SIZE",
        "MOONC_MEMORY"] do
      match ← IO.getEnv name with
      | some v => values := (name, v) :: values
      | none => pure ()
    return fun name => values.lookup name
  load path := do
    try return .ok (← IO.FS.readFile path)
    catch _ => return .error ("open " ++ path ++ ": no such file or directory")
  save path text := do
    try
      IO.FS.writeFile path text
      return .ok ()
    catch _ => return .error ("open " ++ path ++ ": no such file or directory")
  input := return (← (← IO.getStdin).readToEnd).toUTF8.toList
  print bytes := do (← IO.getStdout).write ⟨bytes.toArray⟩
  complain s := do (← IO.getStderr).putStr s

end MoonBackend

/-- Runs the command that the first argument names. -/
def main (args : List String) : IO UInt32 := do
  match args with
  | name :: rest =>
    match MoonBackend.Command.named MoonBackend.systemHost name with
    | some command => command rest
    | none => MoonBackend.systemHost.usage "usage: moonc | moondump | moonrun [flags]"
  | [] => MoonBackend.systemHost.usage "usage: moonc | moondump | moonrun [flags]"
