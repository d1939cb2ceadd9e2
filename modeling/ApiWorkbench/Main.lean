import ApiWorkbench.CommandLine.Report

/-!
# The program

Reads the environment and the files of a request, and carries out the report on it.
-/

namespace ApiWorkbench.CommandLine

/-- The code of the error that reading a directory as a file ends with. -/
def directoryCode : UInt32 := 21

/-- What there is under a path. -/
def entryAt (path : Path) : IO Entry := do
  try
    pure (.file (← IO.FS.readFile path.text))
  catch e =>
    match e with
    | .noFileOrDirectory .. => pure .nothing
    | .inappropriateType _ code _ =>
        pure (if code == directoryCode then .directory else .nothing)
    | e => throw e

/-- Tells what is wrong. -/
def complain (message : String) : IO Unit :=
  IO.eprintln ("Error: " ++ printed message)

/-- Tells of a failure. -/
def reportFailure (failure : Failure) : IO Unit :=
  complain (failure.message.getD
    "the document cannot be dealt with, or a file cannot be written")

/-- Carries out one action; its failure, if it fails. -/
def Action.perform : Action → IO (Option Failure)
  | .say line => do
    IO.println (printed line)
    pure none
  | .makeDirectories path otherwise =>
    try
      IO.FS.createDirAll path.text
      pure none
    catch _ => pure (some otherwise)
  | .write path content otherwise =>
    try
      IO.FS.writeFile path.text content
      pure none
    catch _ => pure (some otherwise)

  | .spoil path otherwise =>
    try
      IO.FS.writeFile path.text ""
      pure (some .stopped)
    catch _ => pure (some otherwise)

/-- Carries out actions up to the first that fails. -/
def performAll : List Action → IO (Option Failure)
  | [] => pure none
  | action :: rest => do
    match ← action.perform with
    | none => performAll rest
    | some failure => pure (some failure)

/-- Carries out a report. -/
def Report.perform (report : Report) : IO UInt32 := do
  let ending := match ← performAll report.actions with
    | some failure => Ending.failed failure
    | none => report.ending
  match ending with
  | .finished => pure ()
  | .failed failure => reportFailure failure
  | .misused misuse => complain misuse.message
  pure ending.status.toUInt32

/-- The environment of the process. -/
def readEnvironment : IO Environment := do
  let store ← IO.getEnv Environment.storeVariable
  let baseUrl ← IO.getEnv Environment.baseUrlVariable
  pure ⟨store, baseUrl⟩

end ApiWorkbench.CommandLine

open ApiWorkbench.CommandLine in
/-- Answers the request that the arguments make. -/
def main (args : List String) : IO UInt32 := do
  match Request.read (← readEnvironment) args with
  | .error misuse => (Report.misused misuse).perform
  | .ok request =>
    let entries ← request.paths.mapM fun path => do pure (path, ← entryAt path)
    let look (path : Path) : Entry := (entries.lookup path).getD .nothing
    (request.report look).perform
