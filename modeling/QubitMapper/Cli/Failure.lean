import QubitMapper.Pass.Pipeline

/-!
# Why a command fails

The causes of failure, and what the user reads about each.
-/

namespace QubitMapper.Cli

/-- Why a command fails. -/
inductive Failure where
  | spec (error : SpecError)
  | device (spec : Spec) (error : DeviceError)
  | configFile (path : String) (error : ConfigError)
  /-- A configuration that is at fault only with the device named beside it. -/
  | config (error : ConfigError)
  | noFile (path : String)
  | unreadable (path : String) (error : FileError)
  | malformed (path : String) (error : CircuitError)
  | circuit (error : CircuitError)
  | mapping (error : MappingError)
  | unwritable (path : String) (error : FileError)

/-- The wording of a failure. -/
def Failure.message : Failure → String
  | spec e => e.message
  | device named e =>
      s!"Failed to build device '{named.text}' (pass --qubits to size it): {e.message}"
  | configFile path e => s!"Failed to load configuration: {path}: {e.message}"
  | config e => e.message
  | noFile path => s!"File not found: {path}"
  | unreadable path e => s!"Failed to read file: {path}: {e.message}"
  | malformed path e => s!"Parse error in {path}: {e.message}"
  | circuit e => e.message
  | mapping e => e.message
  | unwritable path e => s!"Failed to write file: {path}: {e.message}"

end QubitMapper.Cli
