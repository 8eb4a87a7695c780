import Std.Data.TreeMap
import Std.Data.TreeSet
import QubitMapper.Circuit.Kernel.Basic

/-!
# Producers first

The stable topological order of a block: every operation follows the producers of its operands that
are in the block, and among the operations that may come next the one that stood first is taken.
-/

namespace QubitMapper.Kernel

/-- An operation of a block, its position there, and the positions of the producers it waits for. -/
structure Pending where
  position : Nat
  op : Nat
  needs : List Nat

namespace Pending

/-- Whether the producers it waits for have all been taken, by their positions. -/
def isReady (taken : Std.TreeSet Nat) (p : Pending) : Bool := p.needs.all taken.contains

/-- The pending operations in the order in which they become ready, always the first ready one;
nothing if some wait for each other. -/
def schedule : Nat → Std.TreeSet Nat → List Pending → Option (List Nat)
  | 0, _, pending => if pending.isEmpty then some [] else none
  | fuel + 1, taken, pending =>
      match pending.find? (isReady taken) with
      | none => if pending.isEmpty then some [] else none
      | some p =>
          (schedule fuel (taken.insert p.position) (pending.eraseP (isReady taken))).map
            (p.op :: ·)

end Pending

/-- The positions of the operations of a list; of one that comes twice the last one. -/
def positions (order : List Nat) : Std.TreeMap Nat Nat :=
  order.zipIdx.foldl (fun found (op, position) => found.insert op position) {}

/-- The positions of the producers of the operands of an operation, as far as they have one. -/
def producerPositions (k : Kernel) (positions : Std.TreeMap Nat Nat) (op : Nat) :
    Except CircuitError (List Nat) :=
  match k.op? op with
  | none => .ok []
  | some o => do
      let producers ← o.operands.mapM fun w => (·.producer) <$> k.wire w
      return producers.filterMap (positions[·]?)

/-- The operations of a list with what each of them waits for. -/
def pending (k : Kernel) (order : List Nat) : Except CircuitError (List Pending) :=
  let positions := positions order
  order.zipIdx.mapM fun (op, position) => do
    let needs ← k.producerPositions positions op
    return ⟨position, op, needs⟩

/-- The kernel with a block in its stable topological order. -/
def sortBlock (k : Kernel) (b : Nat) : Except CircuitError Kernel := do
  let order ← k.block b
  let pending ← k.pending order
  match Pending.schedule order.length {} pending with
  | none => .error (.cycle b)
  | some sorted => return k.setBlock b sorted

end QubitMapper.Kernel
