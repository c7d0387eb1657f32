import Gx.Assemble

/-!
# Errors of the command

Why the command fails, from its arguments to the start of the machine.
-/

namespace Gx

inductive FlagError where
  | unknown
  | notBool
  | valueMissing
  deriving DecidableEq

namespace FlagError

def message : FlagError → Bytes
  | .unknown => utf8 "no such flag"
  | .notBool => utf8 "not a bool value"
  | .valueMissing => utf8 "flag value is required"

end FlagError

inductive CommandError where
  | flag (argument : Bytes) (cause : FlagError)
  | noFile
  | multipleFiles (files : List Bytes)
  | overwritesSource (output : Bytes)
  | assembling (file : Bytes) (cause : AssembleError)
  | writing (output : Bytes) (cause : Bytes)
  /-- There is no machine to run the image in. -/
  | noMachine
  | running (machine : Bytes) (cause : Bytes)
  deriving DecidableEq

namespace CommandError

/-- The name under which the machine is looked for. -/
def machineName : Bytes := utf8 "gxvm"

/-- An executable that is not on the search path. -/
def notExecutable (name : Bytes) : Bytes :=
  utf8 "exec: " ++ Text.quoted name ++ utf8 ": executable file not found in $PATH"

def message : CommandError → Bytes
  | .flag argument cause => utf8 "parse flag: " ++ argument ++ utf8 ": " ++ cause.message
  | .noFile => utf8 "no source file given"
  | .multipleFiles files =>
      utf8 "one source file expected, got " ++ Text.decimal files.length ++ utf8 ": " ++
        Text.quotedList files
  | .overwritesSource output =>
      utf8 "output " ++ output ++ utf8 " would overwrite the source"
  | .assembling file cause => utf8 "assemble " ++ file ++ utf8 ": " ++ cause.message
  | .writing output cause => utf8 "write " ++ output ++ utf8 ": write image: " ++ cause
  | .noMachine => utf8 "find " ++ machineName ++ utf8 ": " ++ notExecutable machineName
  | .running machine cause => utf8 "run " ++ machine ++ utf8 ": " ++ cause

end CommandError

end Gx
