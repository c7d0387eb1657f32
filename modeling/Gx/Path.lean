import Gx.Text.Bytes

/-!
# File names

File names are paths with `/` between their parts. All operations here are lexical: they look at
the name alone and never at a file.
-/

namespace Gx.Path

def isAbsolute (path : Bytes) : Bool :=
  path.head? == some 0x2F

/-- Adds a part to the parts read so far, which are kept last first. An empty part and `.` add
nothing, and `..` takes the last part away. At the root there is nothing to take away; elsewhere a
`..` that finds nothing is kept. -/
def addPart (rooted : Bool) (done : List Bytes) (part : Bytes) : List Bytes :=
  if part = [] ∨ part = utf8 "." then done
  else if part = utf8 ".." then
    match done with
    | [] => if rooted then [] else [part]
    | last :: rest => if last = part then part :: done else rest
  else part :: done

/-- The shortest path with the same meaning; `.` if nothing is left of it. -/
def clean (path : Bytes) : Bytes :=
  let rooted := isAbsolute path
  let body := Bytes.join (utf8 "/")
    ((path.splitOn 0x2F).foldl (addPart rooted) []).reverse
  if rooted then 0x2F :: body else if body = [] then utf8 "." else body

/-- The directory of a path: what stands up to its last `/`, cleaned. -/
def directory (path : Bytes) : Bytes :=
  clean (path.reverse.dropWhile (· != 0x2F)).reverse

/-- `path` as seen from the directory `base`, cleaned. -/
def resolve (base path : Bytes) : Bytes :=
  clean (base ++ utf8 "/" ++ path)

/-- The last part of a path, backwards. -/
def lastPartReversed (path : Bytes) : Bytes :=
  path.reverse.takeWhile (· != 0x2F)

/-- What follows the last dot of the last part, with the dot; empty if there is no dot. -/
def extension (path : Bytes) : Bytes :=
  let part := lastPartReversed path
  if part.contains 0x2E then 0x2E :: (part.takeWhile (· != 0x2E)).reverse else []

def dropExtension (path : Bytes) : Bytes :=
  path.take (path.length - (extension path).length)

end Gx.Path
