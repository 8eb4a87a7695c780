import QubitMapper.Circuit.Error
import QubitMapper.Device.Spec
import QubitMapper.Placement.Basic
import QubitMapper.Routing.Options

/-!
# What can go wrong with a mapping
-/

namespace QubitMapper

/-- Why a circuit cannot be mapped, or a mapping cannot be accepted. -/
inductive MappingError where
  | circuit (error : CircuitError)
  | device (error : DeviceError)
  | placement (error : PlacementError)
  | options (error : OptionsError)
  | multipleBlocks (count : Nat)
  | tooManyOperands (op : Nat) (name : String) (got : Nat)
  | noOperands (op : Nat) (name : String)
  | unnamedMeasurement (op : Nat)
  | unroutable (a b : Nat)
  | notAdjacent (op : Nat) (name : String) (a b : Nat)
  | missingDevice
  | missingPlacement
  | unlabelledWire (wire : Nat)
  | noCandidate
  | notBijective
  | outOfOrder (op producer : Nat)

namespace MappingError

/-- A step on a value that breaks a rule promised for it. -/
def fault (f : Fault) : MappingError := circuit (.fault f)

/-- The text of a routing run that failed for an inner reason. -/
private def routing (reason : String) : String := s!"Pass 'sabre' failed: {reason}"

/-- The text of a check that failed. -/
private def check (reason : String) : String :=
  s!"Pass 'connectivity_verification' failed: {reason}"

/-- The wording of an error. -/
def message : MappingError → String
  | circuit e => s!"IR error: {e.message}"
  | device e => e.message
  | placement e => e.message
  | options e => e.message
  | multipleBlocks n => s!"The mapper cannot handle multiple blocks (found {n})"
  | tooManyOperands op name got =>
      s!"Operation {opLabel op} ('{name}') acts on {got} qubits; at most 2 are supported"
  | noOperands op name => s!"Operation {opLabel op} ('{name}') acts on no qubits"
  | unnamedMeasurement op => s!"Measurement {opLabel op} has no register name"
  | unroutable a b =>
      s!"Routing failed: qubits {physicalLabel a} and {physicalLabel b} not connected"
  | notAdjacent op name a b =>
      s!"Operation {opLabel op} ('{name}') acts on non-adjacent qubits {physicalLabel a}" ++
        s!" and {physicalLabel b}"
  | missingDevice => "Missing device for mapping"
  | missingPlacement => "Missing placement for verification"
  | unlabelledWire w => routing s!"wire {wireLabel w} has no virtual qubit"
  | noCandidate => routing "no swap candidates for a blocked front layer"
  | notBijective => check "final placement is not a bijection"
  | outOfOrder op producer =>
      check s!"{opLabel op} is listed before its producer {opLabel producer}"

end MappingError

end QubitMapper
