import Gx.Command.FileTree
import Gx.Command.Plan

/-!
# Running the command in memory

A host has a tree of files, an environment and some executables. Running the command on it gives
what it prints, how it ends, and the files afterwards.
-/

namespace Gx

structure Host where
  files : FileTree
  /-- The machine that the environment names. -/
  machine : Bytes := []
  /-- The files that can be started, with what they print for their arguments. -/
  executables : List (List Bytes × (List Bytes → Bytes)) := []

structure Outcome where
  exitCode : Nat := 0
  printed : Bytes := []
  failure : Option CommandError := none
  files : FileTree

namespace Host

/-- What an executable prints, or why it cannot be started. A bare name is looked for on the search
path, on which there is nothing. The root counts as a bare name, but is found. -/
def start (h : Host) (path : Bytes) (args : List Bytes) : Except Bytes Bytes :=
  if path = utf8 "/" then
    .error (utf8 "exec: " ++ Text.quoted path ++ utf8 ": is a directory")
  else if !path.contains 0x2F then .error (CommandError.notExecutable path)
  else
    match h.files.locate path with
    | .error e => .error (FileTree.callMessage "fork/exec" path e)
    | .ok parts =>
        match h.executables.lookup parts with
        | some program => .ok (program args)
        | none =>
            if h.files.node parts = .absent then
              .error (FileTree.callMessage "fork/exec" path .absent)
            else .error (utf8 "fork/exec " ++ path ++ utf8 ": permission denied")

def fail (h : Host) (e : CommandError) : Outcome :=
  { exitCode := 1, failure := some e, files := h.files }

def launch (h : Host) (l : Launch) : Outcome :=
  match Launch.findMachine l.machine h.machine with
  | .error e => h.fail e
  | .ok path =>
      match h.start path l.arguments with
      | .ok printed => { printed, files := h.files }
      | .error cause => h.fail (.running path cause)

def perform (h : Host) : Plan → Outcome
  | .showHelp text => { printed := text, files := h.files }
  | .fetch _ => { files := h.files }
  | .fail e _ => h.fail e
  | .write output image launch =>
      match h.files.write output image with
      | .error cause => h.fail (.writing output cause)
      | .ok files =>
          match launch with
          | none => { files }
          | some l => { h with files }.launch l

/-- Runs the command with these arguments. All files of the tree can be read at once, so none has
to be fetched. -/
def run (h : Host) (args : List Bytes) : Outcome :=
  h.perform (Plan.ofArguments h.files.read args)

end Host

end Gx
