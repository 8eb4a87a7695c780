import QubitMapper.Routing.Error
import QubitMapper.Routing.Frontier

/-!
# Labelling wires

Each allocation of the entry block begins a virtual qubit, which is followed through the operations
that consume it. Operations that cannot be mapped are found on the way: measurements without a
register, operations on no qubit, and operations on more than two that need adjacent qubits.
-/

namespace QubitMapper

/-- The virtual qubit of each wire, and the allocations in the order of their virtual qubits. -/
structure Labelling where
  labels : Labels
  sources : Array Nat

namespace Labelling

/-- The operation is one that can be mapped. -/
def checkOp (op : Nat) (o : Operation) : Except MappingError Unit :=
  match o.kind with
  | .alloc => .ok ()
  | .measure register =>
      if register.getD "" = "" then .error (.unnamedMeasurement op)
      else if o.operands.isEmpty then .error (.noOperands op o.name)
      else .ok ()
  | kind =>
      if o.operands.isEmpty then .error (.noOperands op o.name)
      else if kind.isSupported && !kind.isSink && decide (2 < o.operands.length) then
        .error (.tooManyOperands op o.name o.operands.length)
      else .ok ()

/-- The labels of the operands of an operation passed on to its results. -/
def passOn (labels : Labels) (o : Operation) : Labels :=
  (o.operands.zip o.results).foldl (fun labels (operand, result) =>
    match labels[operand]? with
    | some v => labels.insert result v
    | none => labels) labels

/-- An operation labelled. -/
def step (k : Kernel) (l : Labelling) (op : Nat) : Except MappingError Labelling :=
  match k.op? op with
  | none => .error (.circuit (.opNotFound op))
  | some o => do
      checkOp op o
      if o.kind.isAlloc then
        let labels := match o.results.head? with
          | some w => l.labels.insert w l.sources.size
          | none => l.labels
        return { labels, sources := l.sources.push op }
      else return { l with labels := passOn l.labels o }

/-- The labelling of the entry block of a kernel. -/
def ofKernel (k : Kernel) : Except MappingError Labelling :=
  k.entry.foldlM (step k) ⟨{}, #[]⟩

end Labelling

end QubitMapper
