import Std.Data.TreeSet
import QubitMapper.Circuit.Kernel.Basic

/-!
# Value semantics

A kernel is in value semantics when every operand is a wire with a live producer, every result
points back at its producer, every wire has at most one user, and the blocks list live operations,
each at most once overall.
-/

namespace QubitMapper.Kernel

/-- An operand is a wire with a live producer. -/
def checkOperand (k : Kernel) (w : Nat) : Except CircuitError Unit :=
  match k.wire? w with
  | none => .error (.wireNotFound w)
  | some wire =>
      if (k.op? wire.producer).isNone then .error (.erasedProducer w wire.producer) else .ok ()

/-- A result of an operation is a wire that points back at it. -/
def checkResult (k : Kernel) (op : Nat) (w : Nat) : Except CircuitError Unit :=
  match k.wire? w with
  | none => .error (.wireNotFound w)
  | some wire => if wire.producer = op then .ok () else .error (.strayResult w)

/-- The operands and results of an operation are in order. -/
def checkOp (k : Kernel) (op : Nat) (o : Operation) : Except CircuitError Unit := do
  o.operands.forM k.checkOperand
  o.results.forM (k.checkResult op)

/-- Each wire has at most one user. -/
def checkUsers : List (Wire × Nat) → Except CircuitError Unit
  | [] => .ok ()
  | (wire, w) :: rest =>
      match wire.users with
      | user :: _ :: _ => .error (.wireConsumed w user)
      | _ => checkUsers rest

/-- Each operation placed in a block is live and was not placed before. -/
def checkPlaced (k : Kernel) (seen : Std.TreeSet Nat) :
    List (Nat × Nat) → Except CircuitError Unit
  | [] => .ok ()
  | (op, b) :: rest =>
      if (k.op? op).isNone then .error (.opNotFound op)
      else if seen.contains op then .error (.placedTwice op b)
      else checkPlaced k (seen.insert op) rest

/-- The operations of all blocks in order, each with its block. -/
def placedOps (k : Kernel) : List (Nat × Nat) :=
  k.blocks.zipIdx.flatMap fun (ops, b) => ops.map (·, b)

/-- The kernel is in value semantics. -/
def verify (k : Kernel) : Except CircuitError Unit := do
  k.liveOps.forM fun (op, o) => k.checkOp op o
  checkUsers k.wires.toList.zipIdx
  k.checkPlaced {} k.placedOps

end QubitMapper.Kernel
