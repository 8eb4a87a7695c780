import QubitMapper.Circuit.Kernel.Basic

/-!
# Editing kernels

Rewiring, erasing and reordering operations that are there. Every change keeps the users of each
wire in step with the operands of the operations, and an error leaves the kernel as it was.
-/

namespace QubitMapper.Kernel

/-- The first of some wires that the kernel does not have. -/
def missingWire? (k : Kernel) (ws : List Nat) : Option Nat :=
  ws.find? fun w => (k.wire? w).isNone

/-- The kernel with the operands of an operation replaced by as many others. -/
def setOperands (k : Kernel) (op : Nat) (operands : List Nat) :
    Except CircuitError Kernel :=
  match k.missingWire? operands with
  | some w => .error (.wireNotFound w)
  | none =>
      match k.op? op with
      | none => .error (.opNotFound op)
      | some o =>
          if o.operands.length ≠ operands.length then
            .error (.operandCount o.name o.operands.length operands.length)
          else
            match k.missingWire? o.operands with
            | some w => .error (.fault (.danglingWire w))
            | none =>
                .ok (((k.modifyOp op ({ · with operands })).removeUses op o.operands).addUses
                  op operands)

/-- The kernel without an operation whose results have no users, and that operation. -/
def erase (k : Kernel) (op : Nat) : Except CircuitError (Kernel × Operation) :=
  match k.op? op with
  | none => .error (.opNotFound op)
  | some o =>
      -- the first result that is used or dangling decides
      match o.results.find? fun w => ((k.wire? w).map (·.users)) ≠ some [] with
      | some w =>
          if (k.wire? w).isSome then .error (.resultsInUse op)
          else .error (.fault (.danglingWire w))
      | none =>
          match k.missingWire? o.operands with
          | some w => .error (.fault (.danglingWire w))
          | none =>
              let k := { k with
                ops := k.ops.setIfInBounds op none
                blocks := k.blocks.map (List.filter (· != op)) }
              .ok (k.removeUses op o.operands, o)

/-- The operations of all blocks but one. -/
def opsElsewhere (k : Kernel) (b : Nat) : List Nat :=
  (k.blocks.eraseIdx b).flatten

/-- Each operation of a new order is live, new to the order and in no other block. -/
def checkOrder (k : Kernel) (b : Nat) (elsewhere seen : List Nat) :
    List Nat → Except CircuitError Unit
  | [] => .ok ()
  | op :: rest =>
      if (k.op? op).isNone then .error (.opNotFound op)
      else if seen.contains op then .error (.listedTwice op b)
      else if elsewhere.contains op then .error (.inOtherBlock op b)
      else checkOrder k b elsewhere (op :: seen) rest

/-- The kernel with a block in a new order. The order lists every operation of the block once and
may add operations that are in no block. -/
def setBlockOrder (k : Kernel) (b : Nat) (order : List Nat) :
    Except CircuitError Kernel := do
  let current ← k.block b
  k.checkOrder b (k.opsElsewhere b) [] order
  match current.find? fun op => !order.contains op with
  | some op => .error (.dropped op b)
  | none => return k.setBlock b order

end QubitMapper.Kernel
