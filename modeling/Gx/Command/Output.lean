import Gx.Command.Error
import Gx.Text.CaseFold

/-!
# The output file

Without a name for it, the image goes beside the source, with the extension `.gxa`. It never takes
the place of the source.
-/

namespace Gx.Output

def extension : Bytes := utf8 ".gxa"

/-- The source name with its extension exchanged. A source that has this extension already keeps
it and gets a second one. -/
def defaultName (source : Bytes) : Bytes :=
  if Bytes.equalFold (Path.extension source) extension then source ++ extension
  else Path.dropExtension source ++ extension

/-- The name of the output. An empty wish stands for the default. -/
def name (source wish : Bytes) : Except CommandError Bytes :=
  let output := if wish = [] then defaultName source else wish
  if Path.clean output = Path.clean source then .error (.overwritesSource output)
  else .ok output

end Gx.Output
