import Gx.Files
import Gx.Path

/-!
# A file system in memory

Files in nested directories, one of them the working directory, and paths that are followed part by
part: a part is looked up in the directory that the parts in front of it lead to. The command can be
run on such a tree instead of a disk.
-/

namespace Gx

/-- Files by the parts of their paths from the root. A directory exists if it holds something or
leads to the working directory. -/
structure FileTree where
  files : List (List Bytes × Bytes) := []
  working : List Bytes := []
  deriving DecidableEq

namespace FileTree

inductive Node where
  | file (content : Bytes)
  | directory
  | absent
  deriving DecidableEq

/-- Why a path leads nowhere, or to the wrong thing. -/
inductive PathError where
  | absent
  | notDirectory
  | isDirectory
  | tooLong
  /-- The path holds a zero byte. -/
  | invalid
  deriving DecidableEq

def PathError.message : PathError → Bytes
  | .absent => utf8 "no such file or directory"
  | .notDirectory => utf8 "not a directory"
  | .isDirectory => utf8 "is a directory"
  | .tooLong => utf8 "file name too long"
  | .invalid => utf8 "invalid argument"

/-- The most bytes that a part of a path may have. -/
def maxPart : Nat := 255

/-- The most bytes that a path may have. -/
def maxPath : Nat := 4095

/-- Files by paths that are seen from the working directory. -/
def ofFiles (working : List Bytes) (files : List (Bytes × Bytes)) : FileTree where
  files := files.map fun (name, content) =>
    (((name.splitOn 0x2F).foldl (Path.addPart true) working.reverse).reverse, content)
  working := working

/-- What there is at a position. -/
def node (t : FileTree) (parts : List Bytes) : Node :=
  match t.files.lookup parts with
  | some content => .file content
  | none =>
      if parts.isPrefixOf t.working ∨ t.files.any (fun (path, _) => parts.isPrefixOf path) then
        .directory
      else .absent

/-- Follows one part of a path from a position. The result need not exist. -/
def follow (t : FileTree) (here : List Bytes) (part : Bytes) : Except PathError (List Bytes) :=
  match t.node here with
  | .file _ => .error .notDirectory
  | .absent => .error .absent
  | .directory =>
      if part = [] ∨ part = utf8 "." then .ok here
      else if part = utf8 ".." then .ok here.dropLast
      else if part.length > maxPart then .error .tooLong
      else .ok (here ++ [part])

/-- The parts of a path. An absolute one starts with an empty part. -/
def partsOf (path : Bytes) : Except PathError (List Bytes) :=
  if path.contains 0 then .error .invalid
  else if path = [] then .error .absent
  else if path.length > maxPath then .error .tooLong
  else .ok (path.splitOn 0x2F)

/-- Where the first parts of a path lead. -/
def followAll (t : FileTree) (path : Bytes) (parts : List Bytes) : Except PathError (List Bytes) :=
  parts.foldlM t.follow (if Path.isAbsolute path then [] else t.working)

/-- The position a path leads to. The last part need not exist. -/
def locate (t : FileTree) (path : Bytes) : Except PathError (List Bytes) := do
  t.followAll path (← partsOf path)

/-- A failed system call on a path. -/
def callMessage (call : String) (path : Bytes) (e : PathError) : Bytes :=
  utf8 call ++ utf8 " " ++ path ++ utf8 ": " ++ e.message

def read (t : FileTree) (path : Bytes) : Except FileError Bytes :=
  match t.locate path with
  | .error .absent => .error (.notFound (callMessage "open" path .absent))
  | .error e => .error (.refused (callMessage "open" path e))
  | .ok parts =>
      match t.node parts with
      | .file content => .ok content
      | .directory => .error (.refused (callMessage "read" path .isDirectory))
      | .absent => .error (.notFound (callMessage "open" path .absent))

/-- Puts a content in the place of the one at a position, or at the end. -/
def store (parts : List Bytes) (content : Bytes) :
    List (List Bytes × Bytes) → List (List Bytes × Bytes)
  | [] => [(parts, content)]
  | file :: rest =>
      if file.1 = parts then (parts, content) :: rest else file :: store parts content rest

/-- Where a file with this path can be written. A path that ends in a slash is taken for a
directory without its last part being looked up. -/
def target (t : FileTree) (path : Bytes) : Except PathError (List Bytes) := do
  let parts ← partsOf path
  match parts.reverse.dropWhile (· = []) with
  | [] => throw .isDirectory
  | last :: before =>
      let here ← t.followAll path before.reverse
      let part := if parts.getLast? = some [] then [] else last
      let place ← t.follow here part
      if t.node place = .directory then throw .isDirectory else return place

/-- Writes a file. Its directory has to be there. -/
def write (t : FileTree) (path content : Bytes) : Except Bytes FileTree :=
  match t.target path with
  | .error e => .error (callMessage "open" path e)
  | .ok parts => .ok { t with files := store parts content t.files }

/-- The names and contents of the files in the working directory that were not the same before. -/
def changesSince (t before : FileTree) : List (Bytes × Bytes) :=
  (t.files.filter fun (parts, content) =>
    t.working.isPrefixOf parts && before.files.lookup parts != some content).map
      fun (parts, content) => (Bytes.join (utf8 "/") (parts.drop t.working.length), content)

end FileTree

end Gx
