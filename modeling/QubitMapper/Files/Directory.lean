import QubitMapper.Files.Reader

/-!
# Directories in memory

A working directory with all the files below it, for runs that must not touch a disk. Paths are
relative to it and are followed name by name, so that a path through a file or through nothing fails
the way it would on a disk. There are directories around it as well, of which nothing else is
known.
-/

namespace QubitMapper

/-- The files below a working directory, by their path from it. -/
structure Directory where
  files : List (List String × ByteArray)

namespace Directory

/-! ## Paths -/

/-- What a path leads to. -/
inductive Node where
  | file (content : ByteArray)
  | directory
  | absent

/-- Whether a path leads upwards only: to the working directory or to one around it. -/
def isAbove (path : List String) : Bool := path.all (· == "..")

/-- The directory around a directory. -/
def up (path : List String) : List String :=
  if isAbove path then path ++ [".."] else path.dropLast

/-- What stands at a path from the working directory. -/
def node (d : Directory) (path : List String) : Node :=
  match d.files.find? (·.1 == path) with
  | some (_, content) => .file content
  | none =>
      if isAbove path || d.files.any (fun f => path.isPrefixOf f.1) then .directory else .absent

/-- The names of a path; a slash at the end asks for a directory. -/
def names (path : String) : List String := (path.toList.splitOn '/').map String.ofList

/-- The path that a name leads to from a directory. -/
def follow (path : List String) (name : String) : Except FileError (List String) :=
  if name = "" ∨ name = "." then .ok path
  else if name = ".." then .ok (up path)
  else if 255 < name.utf8ByteSize then .error .nameTooLong
  else .ok (path ++ [name])

/-- The directory that some names lead to, starting at `path`. -/
def enter (d : Directory) (path : List String) : List String → Except FileError (List String)
  | [] => .ok path
  | name :: rest => do
      let path ← follow path name
      match d.node path with
      | .directory => enter d path rest
      | .file _ => .error .notDirectory
      | .absent => .error .notFound

/-- A text can be a path. -/
def checkPath (text : String) : Except FileError Unit :=
  if text.toList.contains '\x00' then .error .nulInName
  else if text.isEmpty then .error .notFound
  else if 4096 ≤ text.utf8ByteSize then .error .nameTooLong
  else if text.startsWith "/" then .error .notFound
  else .ok ()

/-- The directory that holds what a text names, and the name there. -/
def holder (d : Directory) (text : String) : Except FileError (List String × String) := do
  let parts := names text
  return (← d.enter [] parts.dropLast, parts.getLastD "")

/-! ## Reading and writing -/

/-- The text of the file at a path. -/
def read (d : Directory) : FileReader := fun text => do
  checkPath text
  let (path, name) ← d.holder text
  match d.node (← follow path name) with
  | .directory => .error .isDirectory
  | .absent => .error .notFound
  | .file content =>
      match String.fromUTF8? content with
      | some s => .ok s
      | none => .error .notText

/-- The directory with a file written at a path. A path that ends in a slash is never a file. -/
def write (d : Directory) (text content : String) : Except FileError Directory := do
  checkPath text
  let bare := (text.toList.reverse.dropWhile (· == '/')).reverse
  let (path, name) ← d.holder (String.ofList bare)
  if bare.length < text.length then throw .isDirectory
  let path ← follow path name
  match d.node path with
  | .directory => .error .isDirectory
  | _ => return ⟨(path, content.toUTF8) :: d.files.filter (·.1 != path)⟩

end Directory

end QubitMapper
