import Gx.Text.Bytes

/-!
# Reading files

The library reads files through a function from names to contents. It can be backed by a map, or
by contents that have been fetched beforehand; a name whose content has not been fetched is an
error of its own, which the caller can answer by fetching it and starting again.
-/

namespace Gx

inductive FileError where
  /-- There is no such file. -/
  | notFound (message : Bytes)
  /-- There is one, but it cannot be read. -/
  | refused (message : Bytes)
  /-- Nobody has looked yet. -/
  | notFetched (name : Bytes)
  deriving DecidableEq

def FileError.message : FileError → Bytes
  | .notFound message => message
  | .refused message => message
  | .notFetched name => utf8 "open " ++ name ++ utf8 ": not fetched"

/-- The contents of files by name. -/
abbrev FileReader := Bytes → Except FileError Bytes

end Gx
