import Gx.Command.Plan

/-!
# The command line

Carries out the plan of the command on the files of the system. Files are fetched when a plan asks
for them, and the plan is made again with what is known by then.
The machine itself is not started from here: a launch ends with an error that says so.
-/

namespace Gx.CommandLine

/-- The files fetched so far. -/
abbrev Fetched := List (Bytes × Except FileError Bytes)

def readerOf (fetched : Fetched) : FileReader := fun name =>
  (fetched.lookup name).getD (.error (.notFetched name))

def nameOf (path : Bytes) : String :=
  (String.fromUTF8? ⟨path.toArray⟩).getD ""

def fetch (path : Bytes) : IO (Except FileError Bytes) := do
  try
    return .ok (← IO.FS.readBinFile (nameOf path)).toList
  catch
    | .noFileOrDirectory .. =>
        return .error (.notFound (utf8 "open " ++ path ++ utf8 ": no such file or directory"))
    | e => return .error (.refused (utf8 "open " ++ path ++ utf8 ": " ++ utf8 e.toString))

def printError (text : Bytes) : IO Unit := do
  (← IO.getStderr).write ⟨text.toArray⟩

def fail (e : CommandError) : IO UInt32 := do
  printError (utf8 "error: " ++ e.message ++ utf8 "\n")
  return 1

def write (output image : Bytes) (launch : Option Launch) : IO UInt32 := do
  try
    IO.FS.writeBinFile (nameOf output) ⟨image.toArray⟩
  catch e =>
    return ← fail (.writing output (utf8 "open " ++ output ++ utf8 ": " ++ utf8 e.toString))
  match launch with
  | none => return 0
  | some l =>
      match Launch.findMachine l.machine (utf8 ((← IO.getEnv "GXVM").getD "")) with
      | .error e => fail e
      | .ok path => fail (.running path (utf8 "starting executables is not supported"))

partial def perform (fetched : Fetched) (args : List Bytes) : IO UInt32 := do
  match Plan.ofArguments (readerOf fetched) args with
  | .showHelp text =>
      (← IO.getStdout).write ⟨text.toArray⟩
      return 0
  | .fetch name => perform ((name, ← fetch name) :: fetched) args
  | .fail e listing =>
      printError listing
      fail e
  | .write output image launch => write output image launch

end Gx.CommandLine

def main (args : List String) : IO UInt32 :=
  Gx.CommandLine.perform [] (args.map Gx.utf8)
