import Gx.Command.Error

/-!
# Arguments of the command

Flags and file names may come in any order. A flag that takes a text takes the next argument,
whatever it is, unless the text stands in the flag itself behind `=` or a space; a switch has a
value only there. Everything behind `--` is a file name.
-/

namespace Gx

structure Options where
  run : Bool := false
  debug : Bool := false
  output : Bytes := []
  machine : Bytes := []
  verbosity : Bytes := []
  /-- The file names in the order given. -/
  files : List Bytes := []
  deriving DecidableEq

/-- What the arguments ask for. -/
inductive Request where
  /-- Show the help, with the settings so far. -/
  | help (settings : Options)
  | assemble (options : Options)
  deriving DecidableEq

inductive TextFlag where
  | output
  | machine
  | verbosity
  deriving DecidableEq

inductive Switch where
  | run
  | debug
  deriving DecidableEq

inductive Flag where
  | text (flag : TextFlag)
  | switch (flag : Switch)
  | help
  deriving DecidableEq

namespace Flag

def names : List (Bytes × Flag) := [
  (utf8 "run", .switch .run),
  (utf8 "r", .switch .run),
  (utf8 "debug", .switch .debug),
  (utf8 "d", .switch .debug),
  (utf8 "output", .text .output),
  (utf8 "o", .text .output),
  (utf8 "vm", .text .machine),
  (utf8 "verbosity", .text .verbosity),
  (utf8 "v", .text .verbosity),
  (utf8 "help", .help),
  (utf8 "h", .help)]

/-- Whether an argument is a flag, and not the lone dash. -/
def isFlag (arg : Bytes) : Bool := arg.head? == some (ascii '-') && arg != utf8 "-"

/-- An argument without one or two dashes in front. -/
def dropDashes : Bytes → Bytes
  | first :: second :: rest =>
      if first = ascii '-' then
        if second = ascii '-' then rest else second :: rest
      else first :: second :: rest
  | [first] => if first = ascii '-' then [] else [first]
  | [] => []

/-- Whether a byte stands between the name of a flag and its value. -/
def endsName (b : UInt8) : Bool := b == ascii '=' || b == ascii ' '

def nameOf (arg : Bytes) : Bytes :=
  (dropDashes arg).takeWhile (!endsName ·)

/-- What stands behind the name, even if that is empty. -/
def valueOf? (arg : Bytes) : Option Bytes :=
  match (dropDashes arg).dropWhile (!endsName ·) with
  | _ :: value => some value
  | [] => none

/-- The state a text gives to a switch. -/
def stateOf? (value : Bytes) : Option Bool :=
  let word := value.map fun b => if ascii 'A' ≤ b ∧ b ≤ ascii 'Z' then b + 0x20 else b
  if word ∈ [utf8 "true", utf8 "t", utf8 "yes", utf8 "y", utf8 "1", []] then some true
  else if word ∈ [utf8 "false", utf8 "f", utf8 "no", utf8 "n", utf8 "0"] then some false
  else none

end Flag

namespace Options

def setText (o : Options) (value : Bytes) : TextFlag → Options
  | .output => { o with output := value }
  | .machine => { o with machine := value }
  | .verbosity => { o with verbosity := value }

def setSwitch (o : Options) (state : Bool) : Switch → Options
  | .run => { o with run := state }
  | .debug => { o with debug := state }

def addFiles (o : Options) (names : List Bytes) : Options :=
  { o with files := o.files ++ names }

/-- Reads arguments after those that led to the settings `o`. -/
def parseFrom (o : Options) : List Bytes → Except CommandError Request
  | [] => .ok (.assemble o)
  | arg :: rest =>
      if arg = utf8 "--" then .ok (.assemble (o.addFiles rest))
      else if !Flag.isFlag arg then parseFrom (o.addFiles [arg]) rest
      else
        match Flag.names.lookup (Flag.nameOf arg) with
        | none => .error (.flag arg .unknown)
        | some .help => .ok (.help o)
        | some (.switch flag) =>
            match Flag.stateOf? ((Flag.valueOf? arg).getD []) with
            | some state => parseFrom (o.setSwitch state flag) rest
            | none => .error (.flag arg .notBool)
        | some (.text flag) =>
            match Flag.valueOf? arg with
            | some value => parseFrom (o.setText value flag) rest
            | none =>
                match rest with
                | value :: rest => parseFrom (o.setText value flag) rest
                | [] => .error (.flag arg .valueMissing)

/-- Takes the combined forms `-rd` and `-dr` apart. -/
def splitSwitches : List Bytes → List Bytes
  | [] => []
  | arg :: rest =>
      if arg = utf8 "--" then arg :: rest
      else if arg = utf8 "-rd" ∨ arg = utf8 "-dr" then
        utf8 "-r" :: utf8 "-d" :: splitSwitches rest
      else arg :: splitSwitches rest

def parse (args : List Bytes) : Except CommandError Request :=
  parseFrom {} (splitSwitches args)

def helpLine (names text default : Bytes) : Bytes :=
  utf8 "    " ++ Text.padRight 20 names ++ utf8 " - " ++ text ++
    (if default = [] then [] else utf8 " (default " ++ default ++ utf8 ")") ++ utf8 "\n"

def stateName (state : Bool) : Bytes := if state then utf8 "true" else utf8 "false"

/-- The help of the command. The settings given so far show as defaults. -/
def help (o : Options) : Bytes :=
  utf8 "gxasm [options] FILE - gxasm assembles gx source (.gxs) into a gx image (.gxa)\n\n" ++
    utf8 "Flags\n" ++
    helpLine (utf8 "run,r") (utf8 "run the image in the vm after assembly") (stateName o.run) ++
    helpLine (utf8 "debug,d") (utf8 "verbose diagnostics, passed to the vm with --run")
      (stateName o.debug) ++
    helpLine (utf8 "output,o") (utf8 "output image path (default: FILE with .gxa extension)")
      o.output ++
    helpLine (utf8 "vm")
      (utf8 "vm executable (default: $GXVM, gxvm next to gxasm, gxvm from PATH)") o.machine ++
    helpLine (utf8 "verbosity,v") (utf8 "tlog verbosity topics") o.verbosity ++
    helpLine (utf8 "help,h=[hidden]") (utf8 "print command help end exit") []

/-- The one source file. -/
def sourceFile (files : List Bytes) : Except CommandError Bytes :=
  match files with
  | [] => .error .noFile
  | [file] => .ok file
  | files => .error (.multipleFiles files)

end Options

end Gx
