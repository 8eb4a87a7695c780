/-!
# Reading files

What a step may learn from the file system is a function from paths to texts. A step that needs a
file takes such a function, so that everything but the reading itself is a plain definition.
-/

namespace QubitMapper

/-- Why a file cannot be read or written. -/
inductive FileError where
  | notFound
  | notDirectory
  | isDirectory
  | nameTooLong
  | nulInName
  | notText
  | other (text : String)
  deriving DecidableEq, Repr

/-- The wording of an error. -/
def FileError.message : FileError → String
  | notFound => "No such file or directory (os error 2)"
  | notDirectory => "Not a directory (os error 20)"
  | isDirectory => "Is a directory (os error 21)"
  | nameTooLong => "File name too long (os error 36)"
  | nulInName => "file name contained an unexpected NUL byte"
  | notText => "stream did not contain valid UTF-8"
  | other text => text

/-- Whether a path with this error names nothing at all. -/
def FileError.isAbsent : FileError → Bool
  | notFound => true
  | notDirectory => true
  | nameTooLong => true
  | nulInName => true
  | _ => false

/-- The text of the file at a path. -/
abbrev FileReader := String → Except FileError String

/-- A file system without files. -/
def FileReader.none : FileReader := fun _ => .error .notFound

end QubitMapper
