import QubitMapper.Proofs.Kernel.Consistent
import QubitMapper.Proofs.Kernel.Order
import QubitMapper.Proofs.Outcome

/-!
# Kernels changed in place

A call on a kernel hands out another kernel or an error. Here the same calls are written on a kernel
that is held and changed in place, one wire or one list at a time. A step that stops between two
writes leaves the first one made, and one that misses a wire goes wrong there.

On a consistent kernel this does not show. All checks of a call come before its first write, and no
write misses its wire, so that a call ends with the kernel that it hands out or with the kernel as
it was.

## Main results

* `Edit.create_eq`, `Edit.apply_eq`, `Edit.insert_eq`, `Edit.alloc_eq`: new operations, in place.
* `Edit.setOperands_eq`, `Edit.erase_eq`, `Edit.setBlockOrder_eq`, `Edit.sortBlock_eq`: operations
  and blocks changed in place.
-/

namespace QubitMapper

/-- A step on a kernel that is changed in place. -/
abbrev Edit := EStateM CircuitError Kernel

namespace Edit

open Kernel

variable {α : Type} {k : Kernel} {x b : Nat} {kind : OpKind} {ws : List Nat}

/-! ## Small steps -/

/-- A check of the kernel as it stands. -/
def check (f : Kernel → Except CircuitError α) : Edit α := do
  match f (← get) with
  | .ok a => pure a
  | .error e => throw e

/-- A wire changed. -/
def changeWire (f : Wire → Wire) (w : Nat) : Edit Unit := do
  match (← get).wire? w with
  | none => throw (.fault (.danglingWire w))
  | some _ => modify (·.modifyWire w f)

/-- A fresh wire, which is a result of an operation. -/
def newWire (op index : Nat) : Edit Nat := do
  let w := (← get).wires.size
  modify fun k => { k with wires := k.wires.push ⟨op, index, []⟩ }
  return w

/-- An operation put behind those that the kernel has. -/
def pushOp (o : Operation) : Edit Unit := modify fun k => { k with ops := k.ops.push (some o) }

/-! ## Calls -/

/-- A new operation that is in no block, with unchecked operands: its results, the uses of its
operands, and itself. -/
def addOp (kind : OpKind) (operands : List Nat) : Edit (Nat × List Nat) := do
  let op := (← get).ops.size
  let results ← (List.range (kind.resultCount operands.length)).mapM (newWire op)
  operands.forM (changeWire (·.addUser op))
  pushOp { kind, operands, results }
  return (op, results)

/-- A new operation that is in no block. -/
def create (kind : OpKind) (operands : List Nat) (unused : Bool := false) :
    Edit (Nat × List Nat) := do
  check fun _ => checkArity kind operands.length
  check (·.checkOperands kind.name unused [] operands)
  addOp kind operands

/-- A new operation at the end of the last block. -/
def apply (kind : OpKind) (operands : List Nat) : Edit (List Nat) := do
  let (op, results) ← create kind operands true
  modify (·.placeLast [op])
  return results

/-- A new operation at a position of a block. -/
def insert (b position : Nat) (kind : OpKind) (operands : List Nat) : Edit (Nat × List Nat) := do
  let ops ← check (·.block b)
  if ops.length < position then throw (.insertionPoint position b ops.length)
  else
    let (op, results) ← create kind operands true
    modify fun k => { k with blocks := k.blocks.modify b (·.insertIdx position op) }
    return (op, results)

/-- A fresh qubit at the end of the last block. -/
def alloc : Edit Nat := do
  let op := (← get).ops.size
  let w ← newWire op 0
  pushOp { kind := .alloc, operands := [], results := [w] }
  modify (·.placeLast [op])
  return w

/-- The operands of an operation replaced: the operation, and the uses of its old and new
operands. -/
def setOperands (op : Nat) (operands : List Nat) : Edit Unit := do
  match (← get).missingWire? operands with
  | some w => throw (.wireNotFound w)
  | none =>
      match (← get).op? op with
      | none => throw (.opNotFound op)
      | some o =>
          if o.operands.length ≠ operands.length then
            throw (.operandCount o.name o.operands.length operands.length)
          else
            modify (·.modifyOp op ({ · with operands }))
            o.operands.forM (changeWire (·.removeUser op))
            operands.forM (changeWire (·.addUser op))

/-- An operation erased: from its place, from the uses of its operands and from the blocks. -/
def erase (op : Nat) : Edit Operation := do
  let k ← get
  match k.op? op with
  | none => throw (.opNotFound op)
  | some o =>
      match o.results.find? fun w => ((k.wire? w).map (·.users)) ≠ some [] with
      | some w =>
          if (k.wire? w).isSome then throw (.resultsInUse op)
          else throw (.fault (.danglingWire w))
      | none =>
          modify fun k => { k with ops := k.ops.setIfInBounds op none }
          o.operands.forM (changeWire (·.removeUser op))
          modify fun k => { k with blocks := k.blocks.map (List.filter (· != op)) }
          return o

/-- A block put into a new order. -/
def setBlockOrder (b : Nat) (order : List Nat) : Edit Unit := do
  let current ← check (·.block b)
  check fun k => k.checkOrder b (k.opsElsewhere b) [] order
  match current.find? fun op => !order.contains op with
  | some op => throw (.dropped op b)
  | none => modify (·.setBlock b order)

/-- A block put into its stable topological order. -/
def sortBlock (b : Nat) : Edit Unit := do
  let order ← check (·.block b)
  let pending ← check (·.pending order)
  match Pending.schedule order.length {} pending with
  | none => throw (.cycle b)
  | some sorted => modify (·.setBlock b sorted)

/-! ## What the steps do -/

/-- How a step ends that leaves the kernel which a call hands out, or else the kernel as it was. -/
def outcome (k : Kernel) : Except CircuitError (Kernel × α) → EStateM.Result CircuitError Kernel α
  | .ok (k', a) => .ok a k'
  | .error e => .error e k

theorem check_bind {β : Type} (f : Kernel → Except CircuitError α) (rest : α → Edit β)
    (k : Kernel) : (check f >>= rest) k =
      match f k with
      | .ok a => rest a k
      | .error e => .error e k := by
  show EStateM.bind (check f) rest k = _
  unfold EStateM.bind check
  rw [get_bind]
  cases f k <;> rfl

/-- A step that ends like a call is continued from the kernel that the call hands out, or fails with
the kernel as it was. -/
theorem bind_outcome {β : Type} {x : Edit α} {out : Except CircuitError (Kernel × α)}
    (rest : α → Edit β) : x k = outcome k out → (x >>= rest) k =
      match out with
      | .ok (k', a) => rest a k'
      | .error e => .error e k := by
  intro h
  cases out with
  | ok out => exact bind_of_eq h
  | error e => exact bind_of_eq_error h

/-- A step whose answer is not asked for. -/
theorem discard_eq {x : Edit α} {out : Except CircuitError (Kernel × α)} (h : x k = outcome k out) :
    discard x k = outcome k ((·, ()) <$> (·.1) <$> out) := by
  refine (bind_outcome _ h).trans ?_
  cases out <;> rfl

/-- Wires that the kernel has are changed one after the other. -/
theorem changeWires_eq (f : Wire → Wire) (ws : List Nat) : ∀ {k : Kernel},
    (∀ w ∈ ws, w < k.wires.size) →
      forM ws (changeWire f) k = .ok ⟨⟩ (ws.foldl (fun k w => k.modifyWire w f) k) := by
  induction ws with
  | nil => exact fun _ => rfl
  | cons w rest ih =>
      intro k hws
      rw [List.forall_mem_cons] at hws
      obtain ⟨wire, hwire⟩ := exists_wire hws.1
      have hchange : changeWire f w k = .ok ⟨⟩ (k.modifyWire w f) := by
        unfold changeWire
        rw [get_bind, hwire]
        rfl
      have hrest : ∀ v ∈ rest, v < (k.modifyWire w f).wires.size := by
        simpa [Kernel.modifyWire] using hws.2
      rw [List.forM_cons, bind_of_eq hchange, ih hrest]
      rfl

theorem addUses_eq (op : Nat) (hws : ∀ w ∈ ws, w < k.wires.size) :
    ws.forM (changeWire (·.addUser op)) k = .ok ⟨⟩ (k.addUses op ws) :=
  changeWires_eq _ ws hws

theorem removeUses_eq (op : Nat) (hws : ∀ w ∈ ws, w < k.wires.size) :
    ws.forM (changeWire (·.removeUser op)) k = .ok ⟨⟩ (k.removeUses op ws) :=
  changeWires_eq _ ws hws

private theorem newWires_from (op n : Nat) : ∀ (i : Nat) (k : Kernel),
    (List.range' i n).mapM (newWire op) k = .ok (k.freshWires n)
      { k with wires := k.wires ++ (List.range' i n).map fun j => (⟨op, j, []⟩ : Wire) } := by
  induction n with
  | zero =>
      intro i k
      simp [freshWires, pure, EStateM.pure]
  | succ n ih =>
      intro i k
      have hnew : newWire op i k = .ok k.wires.size
        { k with wires := k.wires.push ⟨op, i, []⟩ } := rfl
      rw [List.range'_succ, List.mapM_cons, bind_of_eq hnew, bind_of_eq (ih (i + 1) _)]
      simp [freshWires, List.range'_succ, pure, EStateM.pure]

/-- The results of a new operation are made one after the other. -/
theorem newWires_eq (op n : Nat) (k : Kernel) :
    (List.range n).mapM (newWire op) k = .ok (k.freshWires n)
      { k with wires := k.wires ++ (List.range n).map fun j => (⟨op, j, []⟩ : Wire) } := by
  rw [List.range_eq_range']
  exact newWires_from op n 0 k

/-- Uses are added without a look at the operations. -/
private theorem addUses_withOps (ops : Array (Option Operation)) (op : Nat) (ws : List Nat) :
    ∀ k : Kernel, ({ k with ops := ops } : Kernel).addUses op ws =
      { k.addUses op ws with ops := ops } := by
  induction ws with
  | nil => exact fun _ => rfl
  | cons w rest ih => exact fun k => ih (k.modifyWire w (·.addUser op))

/-- Uses are taken away without a look at the blocks. -/
private theorem removeUses_withBlocks (blocks : List (List Nat)) (op : Nat) (ws : List Nat) :
    ∀ k : Kernel, ({ k with blocks := blocks } : Kernel).removeUses op ws =
      { k.removeUses op ws with blocks := blocks } := by
  induction ws with
  | nil => exact fun _ => rfl
  | cons w rest ih => exact fun k => ih (k.modifyWire w (·.removeUser op))

/-! ## New operations -/

/-- An operation on wires that the kernel has is added write by write. -/
theorem addOp_eq (kind : OpKind) (hws : ∀ w ∈ ws, w < k.wires.size) :
    addOp kind ws k = outcome k (.ok (k.addOp kind ws)) := by
  let n := kind.resultCount ws.length
  let k₁ : Kernel := { k with
    wires := k.wires ++ (List.range n).map fun j => (⟨k.ops.size, j, []⟩ : Wire) }
  let o : Operation := { kind, operands := ws, results := k.freshWires n }
  have hwires : (List.range n).mapM (newWire k.ops.size) k = .ok (k.freshWires n) k₁ :=
    newWires_eq k.ops.size n k
  have hlt : ∀ w ∈ ws, w < k₁.wires.size := by
    intro w hw
    rw [← Array.length_toList, Array.toList_appendList, List.length_append, Array.length_toList]
    exact Nat.lt_add_right _ (hws w hw)
  have hops : (k₁.addUses k.ops.size ws).ops = k.ops := ops_addUses k.ops.size ws
  unfold addOp
  rw [get_bind, bind_of_eq hwires, bind_of_eq (addUses_eq k.ops.size hlt)]
  show EStateM.Result.ok (k.ops.size, k.freshWires n)
    { k₁.addUses k.ops.size ws with ops := (k₁.addUses k.ops.size ws).ops.push (some o) } = _
  rw [hops, ← addUses_withOps]
  rfl

theorem create_eq (kind : OpKind) (ws : List Nat) (unused : Bool) (k : Kernel) :
    create kind ws unused k = outcome k (k.create kind ws unused) := by
  unfold create
  rw [check_bind]
  have hcreate : k.create kind ws unused = (do
    checkArity kind ws.length
    k.checkOperands kind.name unused [] ws
    return k.addOp kind ws) := rfl
  cases harity : checkArity kind ws.length with
  | error e =>
      rw [hcreate, harity]
      rfl
  | ok _ =>
      dsimp only
      rw [check_bind]
      cases hops : k.checkOperands kind.name unused [] ws with
      | error e =>
          rw [hcreate, harity, hops]
          rfl
      | ok _ =>
          rw [harity, hops] at hcreate
          rw [hcreate]
          exact addOp_eq kind (create_eq_ok_iff.mp hcreate).2.1.lt

theorem apply_eq (kind : OpKind) (ws : List Nat) (k : Kernel) :
    apply kind ws k = outcome k (k.apply kind ws) := by
  unfold apply Kernel.apply
  rw [bind_outcome _ (create_eq kind ws true k)]
  cases k.create kind ws true <;> rfl

theorem insert_eq (b position : Nat) (kind : OpKind) (ws : List Nat) (k : Kernel) :
    insert b position kind ws k = outcome k (k.insert b position kind ws) := by
  unfold insert Kernel.insert
  rw [check_bind]
  cases hops : k.block b with
  | error e => rfl
  | ok ops =>
      dsimp only
      show _ = outcome k (if ops.length < position then _ else _)
      by_cases hposition : ops.length < position
      · rw [if_pos hposition, if_pos hposition]
        rfl
      · rw [if_neg hposition, if_neg hposition]
        rw [bind_outcome _ (create_eq kind ws true k)]
        cases hout : k.create kind ws true with
        | error e => rfl
        | ok out =>
            obtain ⟨-, -, rfl⟩ := create_eq_ok_iff.mp hout
            have hblock : (k.addOp kind ws).1.blocks[b]? = some ops := by
              rw [blocks_addOp]
              exact block_eq_ok_iff.mp hops
            show EStateM.Result.ok _ { (k.addOp kind ws).1 with
              blocks := (k.addOp kind ws).1.blocks.modify b (·.insertIdx position k.ops.size) } = _
            rw [List.modify_eq_set_getElem?, hblock]
            rfl

theorem alloc_eq (k : Kernel) :
    alloc k = outcome k (.ok k.alloc) := rfl

/-! ## Changes -/

theorem setOperands_eq (hk : k.Consistent) (x : Nat) (ws : List Nat) :
    setOperands x ws k = outcome k ((·, ()) <$> k.setOperands x ws) := by
  unfold setOperands Kernel.setOperands
  rw [get_bind]
  cases hws : k.missingWire? ws with
  | some w => rfl
  | none =>
      dsimp only
      rw [get_bind]
      cases hx : k.op? x with
      | none => rfl
      | some o =>
          dsimp only
          by_cases hlength : o.operands.length ≠ ws.length
          · rw [if_pos hlength, if_pos hlength]
            rfl
          · have hold : k.missingWire? o.operands = none :=
              missingWire?_eq_none_iff.mpr (operandsOf_of_op? hx ▸ hk.operand x)
            rw [if_neg hlength, if_neg hlength, hold]
            let k₁ := k.modifyOp x ({ · with operands := ws })
            have huses : o.operands.forM (changeWire (·.removeUser x)) k₁ =
                .ok ⟨⟩ (k₁.removeUses x o.operands) :=
              removeUses_eq x (missingWire?_eq_none_iff.mp hold)
            have hnew : ∀ w ∈ ws, w < (k₁.removeUses x o.operands).wires.size := by
              rw [size_wires_removeUses]
              exact missingWire?_eq_none_iff.mp hws
            exact (bind_of_eq huses).trans (addUses_eq x hnew)

theorem erase_eq (hk : k.Consistent) (x : Nat) : erase x k = outcome k (k.erase x) := by
  unfold erase Kernel.erase
  rw [get_bind]
  cases hx : k.op? x with
  | none => rfl
  | some o =>
      dsimp only
      cases hresult : o.results.find? fun w => ((k.wire? w).map (·.users)) ≠ some [] with
      | some w =>
          dsimp only
          split <;> rfl
      | none =>
          have hold : k.missingWire? o.operands = none :=
            missingWire?_eq_none_iff.mpr (operandsOf_of_op? hx ▸ hk.operand x)
          let k₁ : Kernel := { k with ops := k.ops.setIfInBounds x none }
          have huses : o.operands.forM (changeWire (·.removeUser x)) k₁ =
              .ok ⟨⟩ (k₁.removeUses x o.operands) :=
            removeUses_eq x (missingWire?_eq_none_iff.mp hold)
          have hblocks : (k₁.removeUses x o.operands).blocks = k.blocks :=
            blocks_removeUses x o.operands
          dsimp only
          rw [hold]
          refine (bind_of_eq huses).trans ?_
          show EStateM.Result.ok o { k₁.removeUses x o.operands with
            blocks := (k₁.removeUses x o.operands).blocks.map (List.filter (· != x)) } = _
          rw [hblocks, ← removeUses_withBlocks]
          rfl

theorem setBlockOrder_eq (b : Nat) (order : List Nat) (k : Kernel) :
    setBlockOrder b order k = outcome k ((·, ()) <$> k.setBlockOrder b order) := by
  unfold setBlockOrder Kernel.setBlockOrder
  rw [check_bind]
  cases k.block b with
  | error e => rfl
  | ok current =>
      dsimp only
      rw [check_bind]
      cases k.checkOrder b (k.opsElsewhere b) [] order with
      | error e => rfl
      | ok _ =>
          show _ = outcome k ((·, ()) <$>
            match current.find? fun op => !order.contains op with
            | some op => .error (.dropped op b)
            | none => .ok (k.setBlock b order))
          cases current.find? fun op => !order.contains op <;> rfl

theorem sortBlock_eq (b : Nat) (k : Kernel) :
    sortBlock b k = outcome k ((·, ()) <$> k.sortBlock b) := by
  unfold sortBlock Kernel.sortBlock
  rw [check_bind]
  cases k.block b with
  | error e => rfl
  | ok order =>
      dsimp only
      rw [check_bind]
      show _ = outcome k ((·, ()) <$> do
        let pending ← k.pending order
        match Pending.schedule order.length {} pending with
        | none => .error (.cycle b)
        | some sorted => return k.setBlock b sorted)
      cases k.pending order with
      | error e => rfl
      | ok pending =>
          dsimp only
          show _ = outcome k ((·, ()) <$>
            match Pending.schedule order.length {} pending with
            | none => .error (.cycle b)
            | some sorted => .ok (k.setBlock b sorted))
          cases Pending.schedule order.length {} pending <;> rfl

end Edit

end QubitMapper
