import QubitMapper.Circuit.Kernel.Order
import QubitMapper.Pass.Basic

/-!
# The connectivity check

A mapped kernel is right for its device when the placement is complete and its two tables agree,
every two-qubit operation of the entry block that needs adjacent qubits has them, and no operation
stands before the producer of one of its operands.
-/

namespace QubitMapper.Connectivity

/-- An operation of the entry block counted, and its qubits checked. -/
def checkOp (d : Device) (k : Kernel) (report : ConnectivityReport) (op : Nat) :
    Except MappingError ConnectivityReport :=
  match k.op? op with
  | none => .ok report
  | some o =>
      if o.kind.isMeasure then .ok { report with measurements := report.measurements + 1 }
      else if !o.kind.isSupported then .ok report
      else
        match o.physical with
        | [a, b] =>
            if d.isAdjacent a b then
              .ok { report with
                twoQubit := report.twoQubit + 1
                swaps := if o.kind.isSwap then report.swaps + 1 else report.swaps }
            else .error (.notAdjacent op o.name a b)
        | _ => .ok report

/-- The first producer of an operand that stands behind its user at `position`. -/
def lateProducer? (k : Kernel) (positions : Std.TreeMap Nat Nat) (position : Nat)
    (o : Operation) : Option Nat :=
  (o.operands.filterMap fun w => (k.wire? w).map (·.producer)).find? fun producer =>
    positions[producer]?.any (position < ·)

/-- Each operation of the entry block stands behind the producers of its operands. -/
def checkOrder (k : Kernel) (positions : Std.TreeMap Nat Nat) :
    List (Nat × Nat) → Except MappingError Unit
  | [] => .ok ()
  | (op, position) :: rest =>
      match (k.op? op).bind (lateProducer? k positions position) with
      | some producer => .error (.outOfOrder op producer)
      | none => checkOrder k positions rest

/-- The report on a kernel that is right for its device. -/
def check (d : Device) (p : Placement) (k : Kernel) :
    Except MappingError ConnectivityReport := do
  if !p.isComplete || !p.isBijective then .error .notBijective
  else
    let report ← k.entry.foldlM (checkOp d k) {}
    checkOrder k (Kernel.positions k.entry) k.entry.zipIdx
    return { report with passed := true }

/-- The kernel checked against the device and the placement among the properties, and the report
left there. -/
def run : Compile Unit := do
  let c ← get
  match c.properties.get? .device, c.properties.get? .placement with
  | none, _ => throw .missingDevice
  | _, none => throw .missingPlacement
  | some d, some p =>
      let report ← Compile.lift (check d p c.kernel)
      set { c with properties := c.properties.insert .connectivity report }

/-- The pass that checks mapped kernels. -/
def pass : Pass where
  name := "connectivity_verification"
  isAnalysis := true
  applies k := k.level == .physical
  run := run

end QubitMapper.Connectivity
