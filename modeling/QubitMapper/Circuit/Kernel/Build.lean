import QubitMapper.Circuit.Kernel.Basic

/-!
# Building kernels

New operations take existing wires and make fresh ones. `apply` and `insert` place the operation in
a block and insist that its operands are unused; `create` leaves it in no block and lets operands be
shared until their users are rewired.
-/

namespace QubitMapper.Kernel

/-! ## Checking operands -/

/-- The operands of a new operation exist, differ from those `seen` before and, where `unused` is
asked for, have no user. The first operand at fault decides the error. -/
def checkOperands (k : Kernel) (name : String) (unused : Bool) (seen : List Nat) :
    List Nat → Except CircuitError Unit
  | [] => .ok ()
  | w :: rest =>
      match k.wire? w with
      | none => .error (.wireNotFound w)
      | some wire =>
          match if unused then wire.users.head? else none with
          | some user => .error (.wireConsumed w user)
          | none =>
              if seen.contains w then .error (.duplicateWire w name)
              else checkOperands k name unused (w :: seen) rest

/-- The number of operands fits the kind. -/
def checkArity (kind : OpKind) (got : Nat) : Except CircuitError Unit :=
  match kind.arity? with
  | none => .ok ()
  | some expected =>
      if expected = got then .ok () else .error (.operandCount kind.name expected got)

/-! ## Adding operations -/

/-- The wires that a new operation of `count` results will produce. -/
def freshWires (k : Kernel) (count : Nat) : List Nat := List.range' k.wires.size count

/-- The kernel with a new operation that is in no block, with unchecked operands. -/
def addOp (k : Kernel) (kind : OpKind) (operands : List Nat) :
    Kernel × Nat × List Nat :=
  let op := k.ops.size
  let count := kind.resultCount operands.length
  let results := k.freshWires count
  let wires := k.wires ++ (List.range count).map fun i => (⟨op, i, []⟩ : Wire)
  let k := { k with wires, ops := k.ops.push (some { kind, operands, results }) }
  (k.addUses op operands, op, results)

/-- The kernel with operations placed at the end of its last block. -/
def placeLast (k : Kernel) (ops : List Nat) : Kernel :=
  match k.blocks with
  | [] => { k with blocks := [ops] }
  | blocks => { k with blocks := blocks.modify (blocks.length - 1) (· ++ ops) }

/-- A new operation that is in no block. Its operands may have users already. -/
def create (k : Kernel) (kind : OpKind) (operands : List Nat) (unused : Bool := false) :
    Except CircuitError (Kernel × Nat × List Nat) := do
  checkArity kind operands.length
  k.checkOperands kind.name unused [] operands
  return k.addOp kind operands

/-- One of the results that come with a new operation. -/
def resultAt (results : List Nat) (i : Nat) : Except CircuitError Nat :=
  match results[i]? with
  | some w => .ok w
  | none => .error (.fault (.noSuchResult i))

/-- A new operation at the end of the last block, on unused operands, with its results. -/
def apply (k : Kernel) (kind : OpKind) (operands : List Nat) :
    Except CircuitError (Kernel × List Nat) := do
  let (k, op, results) ← k.create kind operands true
  return (k.placeLast [op], results)

/-- A new operation at a position of a block, on unused operands. -/
def insert (k : Kernel) (b : Nat) (position : Nat) (kind : OpKind)
    (operands : List Nat) : Except CircuitError (Kernel × Nat × List Nat) := do
  let ops ← k.block b
  if ops.length < position then .error (.insertionPoint position b ops.length)
  else
    let (k, op, results) ← k.create kind operands true
    return (k.setBlock b (ops.insertIdx position op), op, results)

/-- A fresh qubit at the end of the last block. -/
def alloc (k : Kernel) : Kernel × Nat :=
  let (k', op, _) := k.addOp .alloc []
  (k'.placeLast [op], k.wires.size)

/-- The kernel with `n` fresh qubits at the end of the last block, and their wires. -/
def allocMany (k : Kernel) (n : Nat) : Kernel × List Nat :=
  let ops := List.range' k.ops.size n
  let wires := k.freshWires n
  let k := { k with
    ops := k.ops ++ wires.map fun w =>
      some ({ kind := .alloc, operands := [], results := [w] } : Operation)
    wires := k.wires ++ ops.map fun op => (⟨op, 0, []⟩ : Wire) }
  (k.placeLast ops, wires)

/-- The kernel with an empty block at the end. -/
def addBlock (k : Kernel) : Kernel × Nat :=
  ({ k with blocks := k.blocks ++ [[]] }, k.blocks.length)

/-! ## Common operations -/

/-- A gate without parameters. -/
def applyGate (k : Kernel) (name : String) (operands : List Nat) :
    Except CircuitError (Kernel × List Nat) :=
  k.apply (.gate name []) operands

/-- A measurement into a register. -/
def applyMeasure (k : Kernel) (w : Nat) (register : String) :
    Except CircuitError (Kernel × List Nat) :=
  k.apply (.measure (some register)) [w]

end QubitMapper.Kernel
