import QubitMapper.Circuit.Operation

/-!
# What can go wrong with a circuit

A `CircuitError` is a cause that callers can act on; `message` words it. A `Fault` is different: it
says that a value breaks a rule its maker promised, so that a step has no meaning, and no wording
is promised for it.
-/

namespace QubitMapper

/-- A step on a value that breaks a rule promised for it. -/
inductive Fault where
  /-- The kernel names a wire that it does not have. -/
  | danglingWire (wire : Nat)
  /-- A number leaves the 32-bit range. -/
  | overflow
  /-- An operation is counted back below zero. -/
  | uncounted (op : Nat)
  /-- A physical qubit lies outside the table that is asked for it. -/
  | noSuchQubit (qubit : Nat)
  /-- An operation lacks a result that is asked for. -/
  | noSuchResult (index : Nat)
  /-- A period of zero rounds. -/
  | zeroPeriod
  /-- A run that goes on without end. -/
  | endless
  deriving DecidableEq, Repr

/-- Why a circuit cannot be built, changed, read or accepted. -/
inductive CircuitError where
  | wireNotFound (wire : Nat)
  | opNotFound (op : Nat)
  | blockNotFound (block : Nat)
  | qubitOutOfRange (qubit count : Nat) (name : String)
  | qubitReleased (qubit : Nat) (name : String)
  | duplicateWire (wire : Nat) (name : String)
  | wireConsumed (wire : Nat) (user : Nat)
  | resultsInUse (op : Nat)
  | operandCount (name : String) (expected got : Nat)
  | cycle (block : Nat)
  | insertionPoint (position : Nat) (block : Nat) (length : Nat)
  | erasedProducer (wire : Nat) (op : Nat)
  | strayResult (wire : Nat)
  | placedTwice (op : Nat) (block : Nat)
  | listedTwice (op : Nat) (block : Nat)
  | inOtherBlock (op : Nat) (block : Nat)
  | dropped (op : Nat) (block : Nat)
  | allocInstruction
  | notMapped (op : Nat) (name : String)
  | malformedJson
  | fault (fault : Fault)
  deriving DecidableEq, Repr

namespace CircuitError

/-- The text of a broken rule of the kernel's structure. -/
private def structural (reason : String) : String := s!"Invalid kernel structure: {reason}"

/-- The wording of an error. -/
def message : CircuitError → String
  | wireNotFound w => s!"Wire {wireLabel w} not found in kernel"
  | opNotFound op => s!"Operation {opLabel op} not found in kernel"
  | blockNotFound b => s!"Block {blockLabel b} not found in kernel"
  | qubitOutOfRange q n name =>
      s!"Qubit {q} out of range: program declares {n} qubits (op: {name})"
  | qubitReleased q name => s!"Qubit {q} used after release (op: {name})"
  | duplicateWire w name => s!"Duplicate wire {wireLabel w} in operation (op: {name})"
  | wireConsumed w user => s!"Wire {wireLabel w} already consumed by {opLabel user}"
  | resultsInUse op => s!"Results of operation {opLabel op} are still in use"
  | operandCount name expected got =>
      s!"Operation '{name}' expects {expected} operands, got {got}"
  | cycle b => s!"Dependency cycle in block {blockLabel b}"
  | insertionPoint position b length =>
      structural s!"insertion point {position} past the end of {blockLabel b} ({length} ops)"
  | erasedProducer w op =>
      structural s!"{wireLabel w} is defined by erased {opLabel op}"
  | strayResult w => structural s!"{wireLabel w} does not point back at its producer"
  | placedTwice op b => structural s!"{opLabel op} appears more than once ({blockLabel b})"
  | listedTwice op b =>
      structural s!"{opLabel op} listed twice in order for {blockLabel b}"
  | inOtherBlock op b =>
      structural s!"{opLabel op} belongs to another block than {blockLabel b}"
  | dropped op b => structural s!"new order for {blockLabel b} drops {opLabel op}"
  | allocInstruction =>
      structural "programs declare qubits through num_qubits, not alloc instructions"
  | notMapped op name => structural s!"{opLabel op} ({name}) has no physical qubits assigned"
  | malformedJson => "Serialization error"
  | fault _ => "Internal fault"

end CircuitError

end QubitMapper
