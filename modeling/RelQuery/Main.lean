import RelQuery.Console

/-!
# Main

Reads files and environment, and prints what a run prints.
-/

namespace RelQuery.Console

/-- The text of a file, if it can be read. -/
def fileText? (path : String) : IO (Option String) := do
  try return some (← IO.FS.readFile path)
  catch _ => return none

/-- The environment variables that a run looks at. -/
def settings : List String :=
  [Options.maxManyVariable, Options.dialectVariable, Options.namespaceVariable]

end RelQuery.Console

open RelQuery in
def main : IO UInt32 := do
  let config ← Console.fileText? ((← IO.getEnv "MODELS_PATH").getD "models.json")
  let request ← Console.fileText? ((← IO.getEnv "REQUEST_PATH").getD "request.json")
  let values ← Console.settings.mapM fun name => return (name, ← IO.getEnv name)
  let database := (← IO.getEnv "DATABASE_URL").map fun _ =>
    ({ unreachable := some "no connection is made from here" } : Session)
  let outcome := Console.run (fun name => (values.lookup name).join) config request database
  IO.print outcome.output
  return if outcome.ok then 0 else 1
