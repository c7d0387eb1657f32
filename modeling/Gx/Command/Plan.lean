import Gx.Command.Options
import Gx.Command.Output

/-!
# What the command does

The command's decisions, made from its arguments and the contents of files alone. Writing the image
and starting the machine are left to whoever carries out the plan.
-/

namespace Gx

structure Launch where
  /-- The executable, or nothing if it has to be found. -/
  machine : Bytes
  arguments : List Bytes
  deriving DecidableEq

namespace Launch

def argumentsFor (image : Bytes) (debug : Bool) : List Bytes :=
  if debug then [image, utf8 "-d"] else [image]

/-- The executable of the machine: the one asked for, else the one the environment names. -/
def findMachine (wish environment : Bytes) : Except CommandError Bytes :=
  if wish ≠ [] then .ok wish
  else if environment ≠ [] then .ok environment
  else .error .noMachine

end Launch

inductive Plan where
  | showHelp (text : Bytes)
  /-- Fetch a file and plan again. -/
  | fetch (name : Bytes)
  /-- Report an error behind a listing, which may be empty. -/
  | fail (error : CommandError) (listing : Bytes)
  | write (output : Bytes) (image : Bytes) (launch : Option Launch)

namespace Plan

def ofFailure (file : Bytes) (debug : Bool) (f : AssembleFailure) : Plan :=
  match f.error.notFetched? with
  | some name => .fetch name
  | none => .fail (.assembling file f.error) (if debug then f.listing else [])

def ofSource (read : FileReader) (o : Options) (file output : Bytes) : Plan :=
  match assembleFile read file with
  | .error f => ofFailure file o.debug f
  | .ok image =>
      .write output image.bytes.toList
        (if o.run then some ⟨o.machine, Launch.argumentsFor output o.debug⟩ else none)

def ofOptions (read : FileReader) (o : Options) : Plan :=
  match Options.sourceFile o.files with
  | .error e => .fail e []
  | .ok file =>
      match Output.name file o.output with
      | .error e => .fail e []
      | .ok output => ofSource read o file output

def ofArguments (read : FileReader) (args : List Bytes) : Plan :=
  match Options.parse args with
  | .error e => .fail e []
  | .ok (.help settings) => .showHelp settings.help
  | .ok (.assemble o) => ofOptions read o

end Plan

end Gx
