import QubitMapper.Routing.Frontier

/-!
# Looking ahead

The operations ahead of a layer come level by level: each level holds what becomes ready once the
levels before it are retired. Of them the two-qubit operations that need adjacent qubits are
collected up to a given number. The visits are made on the frontier of the run and noted, and at the
end they are taken back.
-/

namespace QubitMapper

/-- Whether the two qubits of an operation have to be adjacent. -/
def Operation.isConstrained (o : Operation) : Bool :=
  o.kind.isSupported && !o.kind.isMeasure

namespace Lookahead

/-- Whether an operation ready ahead is a two-qubit operation that needs adjacent qubits. -/
def counts (k : Kernel) (r : ReadyOp) : Bool :=
  (k.op? r.op).any fun o => o.isConstrained && o.operands.length == 2

/-- What was collected and noted, continued by the levels behind a level: each is what becomes ready
behind the one before. Every level releases operations that no other level releases, so there are no
more levels than operations. -/
def collect (k : Kernel) (labels : Labels) (capacity : Nat) :
    Nat → Frontier → List ReadyOp → List ReadyOp → List Nat →
      Except CircuitError (Frontier × List ReadyOp × List Nat)
  | 0, f, _, collected, noted => .ok (f, collected, noted)
  | fuel + 1, f, level, collected, noted =>
      if level.isEmpty || decide (capacity ≤ collected.length) then .ok (f, collected, noted)
      else do
        let (f, level, more) ← f.exploreAll k labels (level.map (·.op))
        collect k labels capacity fuel f level
          ((collected ++ level.filter (counts k)).take capacity) (noted ++ more)

/-- The first `capacity` operations ahead of a layer, and the frontier with the visits of the look
ahead taken back. -/
def layer (k : Kernel) (labels : Labels) (f : Frontier) (front : List ReadyOp)
    (capacity : Nat) : Except CircuitError (Frontier × List ReadyOp) := do
  let (f, ops, noted) ← collect k labels capacity (k.ops.size + 1) f front [] []
  let f ← f.rollback noted
  return (f, ops)

end Lookahead

end QubitMapper
