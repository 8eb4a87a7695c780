import QubitMapper.Cli.Run

/-!
# The program

The command line is run on the files of the disk. This module only reads, writes and prints.
-/

namespace QubitMapper.Disk

/-- The cause of an error of the operating system. -/
def cause : IO.Error → FileError
  | .noFileOrDirectory .. => .notFound
  | .inappropriateType _ 21 _ => .isDirectory
  | .inappropriateType .. => .notDirectory
  | .permissionDenied .. => .other "Permission denied (os error 13)"
  | e => .other (toString e)

/-- The text of a file on the disk. -/
def readText (path : String) : IO (Except FileError String) := do
  try
    let content ← IO.FS.readBinFile path
    match String.fromUTF8? content with
    | some text => return .ok text
    | none => return .error .notText
  catch e => return .error (cause e)

/-- A text written to a file on the disk. -/
def writeText (path content : String) : IO (Except FileError Unit) := do
  try
    IO.FS.writeFile path content
    return .ok ()
  catch e => return .error (cause e)

/-- A reader of files that have been read from the disk. -/
def reader (paths : List String) : IO FileReader := do
  let contents ← paths.mapM fun path => return (path, ← readText path)
  return fun path => ((contents.find? (·.1 == path)).map (·.2)).getD (.error .notFound)

/-- The report of a run, once its file is written. -/
def finish : Cli.Outcome → IO Cli.Report
  | .done report => return report
  | .write path content report => do return report (← writeText path content)

end QubitMapper.Disk

open QubitMapper in
/-- The program: a command line is run on the disk, in two rounds of reading. -/
def main (args : List String) : IO UInt32 := do
  let first ← Disk.reader (Cli.reads .none args)
  let files ← Disk.reader (Cli.reads first args)
  let report ← Disk.finish (Cli.run files args)
  (← IO.getStdout).putStr report.output
  (← IO.getStderr).putStr report.errors
  return report.code.toUInt32
