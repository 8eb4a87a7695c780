import QubitMapper.Circuit.Operation

/-!
# Programs

A program names its qubits by number, the way circuits are written down and exchanged.
-/

namespace QubitMapper

/-- An operation on numbered qubits. -/
structure Instruction where
  kind : OpKind
  qubits : List Nat

/-- A named list of instructions over the qubits below `numQubits`. -/
structure Program where
  name : String
  numQubits : Nat
  instructions : List Instruction

end QubitMapper
