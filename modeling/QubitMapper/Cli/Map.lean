import QubitMapper.Circuit.Emission
import QubitMapper.Circuit.Lowering
import QubitMapper.Circuit.Program.Json
import QubitMapper.Cli.Failure
import QubitMapper.Json.Printer
import QubitMapper.Json.Reader

/-!
# The map command

A program in a file is mapped onto a device. The result is a document with the mapped program, the
place of each program qubit at the end and the number of swaps; a summary tells the user about it.
-/

namespace QubitMapper.Cli

/-- The configuration in a file, if one is given, with another device, if one is named. -/
def readConfig (files : FileReader) (path device : Option String) : Except Failure Config := do
  let config ← match path with
    | none => pure {}
    | some path => (Config.load files path).mapError (Failure.configFile path)
  match device with
  | none => return config
  | some device => do
      let config := { config with device }
      config.validate.mapError Failure.config
      return config

/-- The program in a file. -/
def readProgram (files : FileReader) (path : String) : Except Failure Program :=
  match files path with
  | .error e => .error (if e.isAbsent then .noFile path else .unreadable path e)
  | .ok text =>
      match (Json.parse text).bind Program.ofJson? with
      | none => .error (.malformed path .malformedJson)
      | some program => .ok program

/-- A program after mapping. -/
structure Mapped where
  program : Program
  /-- The place of each qubit of the program at the end. -/
  places : List Nat
  swaps : Nat
  deviceQubits : Nat

namespace Mapped

/-- A program mapped onto a device. -/
def ofProgram (files : FileReader) (config : Config) (program : Program) :
    Except Failure Mapped := do
  let kernel ← program.lower.mapError Failure.circuit
  let pipeline ← (({} : Pipeline).withConfig config).mapError Failure.config
  let result ← (pipeline.run files kernel).mapError Failure.mapping
  let properties := result.properties
  return {
    program := ← result.kernel.physicalProgram.mapError Failure.circuit
    places := ((properties.get? .assignment).map Assignment.places).getD []
    swaps := ((properties.get? .stats).map RoutingStats.swaps).getD 0
    deviceQubits := ((properties.get? .device).map Device.numQubits).getD 0 }

/-- The document about a mapped program. -/
def toJson (m : Mapped) : Json :=
  .record [("program", m.program.toJson), ("mapping_v2p", .nats m.places),
    ("swaps", .nat m.swaps)]

/-- What the summary says in the end. -/
def summary (m : Mapped) : String :=
  let places := String.intercalate ", " (m.places.map toString)
  "✓ Mapping complete\n" ++
    s!"  Result: {m.program.instructions.length} instructions, {m.swaps} swaps, " ++
    s!"{m.deviceQubits} device qubits\n" ++
    s!"  Map (virtual → physical): [{places}]\n"

end Mapped

/-- What the summary says about a program before it is mapped. -/
def mapHeading (input : String) (config : Config) (program : Program) : String :=
  s!"→ Mapping {input} onto {config.device}\n" ++
    s!"  Loaded: {program.numQubits} qubits, {program.instructions.length} instructions\n"

/-- The summary as far as it goes, and what becomes of the program in a file. -/
def map (files : FileReader) (input : String) (device config : Option String) :
    String × Except Failure Mapped :=
  let loaded : Except Failure (Config × Program) := do
    let config ← readConfig files config device
    return (config, ← readProgram files input)
  match loaded with
  | .error e => ("", .error e)
  | .ok (config, program) =>
      let heading := mapHeading input config program
      match Mapped.ofProgram files config program with
      | .error e => (heading, .error e)
      | .ok mapped => (heading ++ mapped.summary, .ok mapped)

end QubitMapper.Cli
