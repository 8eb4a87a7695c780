import QubitMapper.Cli.Arguments
import QubitMapper.Cli.Map
import QubitMapper.Device.Text
import QubitMapper.Files.Directory

/-!
# Running commands

A run is a function of the arguments and of the files that it reads. It ends in a report, or in one
file to be written with a report that depends on how the writing went.
-/

namespace QubitMapper.Cli

/-- What a run leaves behind: its exit code and what it printed. -/
structure Report where
  code : Nat := 0
  output : String := ""
  errors : String := ""
  deriving DecidableEq, Repr

/-- How a run ends. -/
inductive Outcome where
  | done (report : Report)
  | write (path content : String) (finish : Except FileError Unit → Report)

/-! ## Texts -/

/-- The release of this program. -/
def release : String := "0.3.0"

/-- The text of the version command. -/
def versionText : String :=
  s!"qroute v{release} - SABRE qubit mapping and routing\n" ++
    "\n" ++
    "Components:\n" ++
    "  qroute-ir       Wire-form circuit IR and JSON programs\n" ++
    "  qroute-compile  Devices, placement and the SABRE router\n" ++
    "  qroute-cli      Command-line interface\n" ++
    "\n" ++
    "License:    Apache-2.0\n"

/-- The text of the help. -/
def helpText : String :=
  "SABRE qubit mapping and routing\n" ++
    "\n" ++
    "Usage: qroute [-v...] <COMMAND>\n" ++
    "\n" ++
    "Commands:\n" ++
    "  map -i PROGRAM [-o FILE] [-d DEVICE] [-c CONFIG]  Map a JSON program onto a device\n" ++
    "  device -d DEVICE [-n QUBITS]  Build a device and print its connectivity\n" ++
    "  version  Show version information\n" ++
    "  help     Print this message\n"

/-- The text about a device. -/
def deviceText (spec : Spec) (d : Device) : String :=
  let connectivity := if d.isConnected then "connected" else "disconnected"
  s!"→ Device {spec.text}\n  Connectivity: {connectivity}\n\n" ++ d.text

/-- The line about a failure. -/
def failureLine (e : Failure) : String := s!"Error: {e.message}\n"

/-! ## Commands -/

/-- The device command. -/
def runDevice (files : FileReader) (text : String) (qubits : Option Nat) : Report :=
  let built : Except Failure (Spec × Device) := do
    let spec ← (Spec.parse text).mapError Failure.spec
    return (spec, ← (spec.build files (qubits.getD 0)).mapError (Failure.device spec))
  match built with
  | .ok (spec, d) => { output := deviceText spec d }
  | .error e => { code := 1, errors := failureLine e }

/-- The map command. The document goes to the output, and the summary out of its way; with a file
for the document, the summary goes to the output. -/
def runMap (files : FileReader) (input : String) (output device config : Option String) : Outcome :=
  let (summary, result) := map files input device config
  match result, output with
  | .error e, none => .done { code := 1, errors := summary ++ failureLine e }
  | .error e, some _ => .done { code := 1, output := summary, errors := failureLine e }
  | .ok mapped, none =>
      .done { output := mapped.toJson.pretty ++ "\n", errors := summary }
  | .ok mapped, some path =>
      .write path mapped.toJson.pretty fun
        | .ok () => { output := summary ++ s!"  Output: {path}\n" }
        | .error e =>
            { code := 1, output := summary, errors := failureLine (.unwritable path e) }

/-- A command run. -/
def Command.run (files : FileReader) : Command → Outcome
  | .map input output named config => runMap files input output named config
  | .device spec qubits => .done (runDevice files spec qubits)
  | .version => .done { output := versionText }

/-- A command line run. -/
def run (files : FileReader) (args : List String) : Outcome :=
  match readCommand args with
  | .ok command => command.run files
  | .error .help => .done { output := helpText }
  | .error .release => .done { output := s!"qroute {release}\n" }
  | .error (.usage e) => .done { code := 2, errors := s!"error: {e.message}\n" }

/-! ## Files -/

/-- The file that a device is described in, if it is. -/
def deviceFile (text : String) : List String :=
  match Spec.parse text with
  | .ok (.file name) => [name]
  | _ => []

/-- The files that a command reads, as far as the files that are known tell. -/
def Command.reads (files : FileReader) : Command → List String
  | .map input _ named config =>
      let fromConfig := match readConfig files config named with
        | .ok config => deviceFile config.device
        | .error _ => []
      config.toList ++ input :: fromConfig
  | .device spec _ => deviceFile spec
  | .version => []

/-- The files that a command line reads, as far as the files that are known tell. Once those that
are told without any file are known, so are all. -/
def reads (files : FileReader) (args : List String) : List String :=
  match readCommand args with
  | .ok command => command.reads files
  | .error _ => []

/-- A command line run in a directory, and the directory after it. -/
def runIn (d : Directory) (args : List String) : Report × Directory :=
  match run d.read args with
  | .done report => (report, d)
  | .write path content finish =>
      match d.write path content with
      | .ok d => (finish (.ok ()), d)
      | .error e => (finish (.error e), d)

end QubitMapper.Cli
