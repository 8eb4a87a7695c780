import QubitMapper.Circuit.Kernel.Build
import QubitMapper.Circuit.Program.Basic

/-!
# From programs to kernels

Qubit `q` of a program becomes the `q`-th allocation of the kernel. Every instruction then takes the
wires that its qubits are on and leaves them on its results; a sink takes its qubit out of use.
-/

namespace QubitMapper

/-- The wire that each qubit of a program is on; `none` after a sink. -/
abbrev Current := Array (Option Nat)

namespace Current

/-- The wires of the qubits of an instruction. -/
def wiresOf (current : Current) (name : String) (qubits : List Nat) :
    Except CircuitError (List Nat) :=
  qubits.mapM fun q =>
    match current[q]? with
    | none => .error (.qubitOutOfRange q current.size name)
    | some none => .error (.qubitReleased q name)
    | some (some w) => .ok w

/-- The qubits moved onto new wires. -/
def moveTo (current : Current) (qubits : List Nat) (wires : List (Option Nat)) : Current :=
  (qubits.zip wires).foldl (fun current (q, w) => current.setIfInBounds q w) current

end Current

/-- A kernel under construction from a program. -/
structure Lowering where
  kernel : Kernel
  current : Current

namespace Lowering

/-- The allocations of a program's qubits. -/
def start (p : Program) : Lowering :=
  let (kernel, wires) := (Kernel.empty p.name).allocMany p.numQubits
  { kernel, current := (wires.map some).toArray }

/-- One instruction appended. -/
def step (s : Lowering) (i : Instruction) : Except CircuitError Lowering := do
  if i.kind.isAlloc then .error .allocInstruction
  else
    let operands ← s.current.wiresOf i.kind.name i.qubits
    let (kernel, results) ← s.kernel.apply i.kind operands
    let next :=
      if i.kind.isSink then i.qubits.map fun _ => none
      else results.map some
    return { kernel, current := s.current.moveTo i.qubits next }

end Lowering

/-- The kernel of a program. -/
def Program.lower (p : Program) : Except CircuitError Kernel :=
  (·.kernel) <$> p.instructions.foldlM Lowering.step (Lowering.start p)

end QubitMapper
