import QubitMapper.Files.Reader
import QubitMapper.Circuit.Operation

/-!
# What can go wrong with a device
-/

namespace QubitMapper

/-- What is wrong with a line of a device description. -/
inductive LineProblem where
  | badNodeCount
  | badEdgeCount
  | unknownHeader
  | notAnEdge
  | badEndpoint
  deriving DecidableEq, Repr

/-- The wording of a problem. -/
def LineProblem.message : LineProblem → String
  | badNodeCount => "bad node count"
  | badEdgeCount => "bad edge count"
  | unknownHeader => "unknown header"
  | notAnEdge => "expected an edge 'a b'"
  | badEndpoint => "bad edge endpoint"

/-- The largest supported device. -/
def maxQubits : Nat := 4096

/-- Why there is no device. -/
inductive DeviceError where
  /-- A device needs at least one qubit. -/
  | empty
  | tooLarge (count : Nat)
  | edgeOutside (a b count : Nat)
  | selfLoop (a : Nat)
  | centreOutside (centre count : Nat)
  | gridTooLarge (width height : Nat)
  /-- A line of a description, counted from one. -/
  | badLine (line : Nat) (problem : LineProblem)
  | noNodeCount
  | edgeCountMismatch (declared listed : Nat)
  /-- More program qubits than any device can have. -/
  | tooManySources (count : Nat)
  | unreadable (path : String) (error : FileError)
  | inFile (path : String) (error : DeviceError)
  deriving DecidableEq, Repr

namespace DeviceError

/-- The text of a setting that does not hold. -/
private def setting (reason : String) : String := s!"Invalid pass configuration: {reason}"

/-- The wording of an error. -/
def message : DeviceError → String
  | empty => "Device has no qubits"
  | tooLarge n => setting s!"device has {n} qubits; at most {maxQubits} are supported"
  | edgeOutside a b n => setting s!"edge ({a}, {b}) references a qubit outside 0..{n}"
  | selfLoop a => setting s!"self-loop on qubit {a}"
  | centreOutside c n => setting s!"star center {c} outside 0..{n}"
  | gridTooLarge w h => setting s!"grid {w}x{h} exceeds {maxQubits} qubits"
  | badLine line problem => setting s!"line {line}: {problem.message}"
  | noNodeCount => setting "missing 'Number of nodes' header"
  | edgeCountMismatch declared listed =>
      setting s!"header declares {declared} edges but {listed} are listed"
  | tooManySources n => setting s!"{n} qubits exceed device limits"
  | unreadable path error => s!"Device file {path}: {error.message}"
  | inFile path error => s!"Device file {path}: {error.message}"

end DeviceError

end QubitMapper
