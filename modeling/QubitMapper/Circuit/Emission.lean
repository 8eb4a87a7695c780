import QubitMapper.Circuit.Kernel.Basic
import QubitMapper.Circuit.Program.Basic
import QubitMapper.Text.Unsigned

/-!
# From mapped kernels to programs

A mapped kernel is written out as a program over physical qubits: block by block, one instruction
for each operation but the allocations.
-/

namespace QubitMapper

namespace Kernel

/-- The number of qubits after the greatest of some qubits has been seen. -/
def widen (count : Nat) (qubits : List Nat) : Except CircuitError Nat :=
  match qubits.max? with
  | none => .ok count
  | some greatest =>
      if greatest + 1 < Text.limit32 then .ok (max count (greatest + 1))
      else .error (.fault .overflow)

/-- The number of qubits and the instructions of operations in order, given the number so far. -/
def emit (k : Kernel) (count : Nat) : List Nat → Except CircuitError (Nat × List Instruction)
  | [] => .ok (count, [])
  | op :: rest =>
      match k.op? op with
      | none => emit k count rest
      | some o =>
          if o.kind.isAlloc then emit k count rest
          else if !o.isMapped then .error (.notMapped op o.name)
          else do
            let count ← widen count o.physical
            let (count, instructions) ← emit k count rest
            return (count, ⟨o.kind, o.physical⟩ :: instructions)

/-- The program over physical qubits that a mapped kernel stands for. -/
def physicalProgram (k : Kernel) : Except CircuitError Program := do
  let count ← widen 0 (k.mapping.getD [])
  let (numQubits, instructions) ← k.emit count k.blocks.flatten
  return { name := k.name, numQubits, instructions }

end Kernel

end QubitMapper
