import QubitMapper.Circuit.Error

/-!
# Kernels

A kernel holds operations connected by single-assignment wires. Operations and wires keep their
position for the life of the kernel: an erased operation leaves a hole. Blocks list operations in
order; an operation may also be in no block.
-/

namespace QubitMapper

/-- What the operands of a kernel refer to. -/
inductive Level where
  | logical
  | physical
  deriving DecidableEq, Repr

/-- A circuit in wire form. -/
structure Kernel where
  name : String
  ops : Array (Option Operation)
  wires : Array Wire
  blocks : List (List Nat)
  level : Level
  /-- Where each virtual qubit ended, once the kernel has been mapped. -/
  mapping : Option (List Nat)

namespace Kernel

/-- A kernel with one empty block. -/
def empty (name : String) : Kernel := ⟨name, #[], #[], [[]], .logical, none⟩

/-! ## Looking things up -/

/-- A live operation. -/
def op? (k : Kernel) (op : Nat) : Option Operation := (k.ops[op]?).join

/-- A wire. -/
def wire? (k : Kernel) (w : Nat) : Option Wire := k.wires[w]?

/-- The operations of a block, in order. -/
def block? (k : Kernel) (b : Nat) : Option (List Nat) := k.blocks[b]?

/-- The operations of a block, or the error that there is no such block. -/
def block (k : Kernel) (b : Nat) : Except CircuitError (List Nat) :=
  match k.block? b with
  | some ops => .ok ops
  | none => .error (.blockNotFound b)

/-- The operations of the entry block, in order; none if there is no block. -/
def entry (k : Kernel) : List Nat := k.blocks.headD []

/-- The live operations with their positions, in order. -/
def liveOps (k : Kernel) : List (Nat × Operation) :=
  k.ops.toList.zipIdx.filterMap fun (slot, op) => slot.map (op, ·)

/-- The number of live operations. -/
def opCount (k : Kernel) : Nat := k.liveOps.length

/-- A wire that the kernel's structure names. -/
def wire (k : Kernel) (w : Nat) : Except CircuitError Wire :=
  match k.wire? w with
  | some wire => .ok wire
  | none => .error (.fault (.danglingWire w))

/-- The consumers of the results of an operation, result by result, each in the order in which it
began to use the wire. An operation that consumes two results comes twice. -/
def users (k : Kernel) (op : Nat) : Except CircuitError (List Nat) :=
  match k.op? op with
  | none => .ok []
  | some o => (o.results.mapM fun w => (·.users) <$> k.wire w).map List.flatten

/-! ## Small changes -/

/-- The kernel with a live operation changed. -/
def modifyOp (k : Kernel) (op : Nat) (f : Operation → Operation) : Kernel :=
  { k with ops := k.ops.modify op (·.map f) }

/-- The kernel with a wire changed. -/
def modifyWire (k : Kernel) (w : Nat) (f : Wire → Wire) : Kernel :=
  { k with wires := k.wires.modify w f }

/-- The kernel with a use of each of `ws` by `op` added. -/
def addUses (k : Kernel) (op : Nat) (ws : List Nat) : Kernel :=
  ws.foldl (fun k w => k.modifyWire w (·.addUser op)) k

/-- The kernel with a use of each of `ws` by `op` taken away. -/
def removeUses (k : Kernel) (op : Nat) (ws : List Nat) : Kernel :=
  ws.foldl (fun k w => k.modifyWire w (·.removeUser op)) k

/-- The kernel with a block replaced. -/
def setBlock (k : Kernel) (b : Nat) (ops : List Nat) : Kernel :=
  { k with blocks := k.blocks.set b ops }

end Kernel

end QubitMapper
