import QubitMapper.Circuit.Kernel.Build
import QubitMapper.Circuit.Kernel.Edit
import QubitMapper.Routing.Cost
import QubitMapper.Routing.Error
import QubitMapper.Routing.Lookahead

/-!
# Routing

The router retires operations as they become ready. A two-qubit operation needs its qubits adjacent;
when every ready operation is blocked, a swap is inserted and the operations are tried again. The
swap is the first cheapest one next to a blocked operation. After too many swaps without progress
the oldest blocked operation is forced: one of its qubits walks along a shortest path to the other.

A retired operation is rewired onto the wires that are on its physical qubits. Swaps, and
allocations for qubits that a sink has left empty, are new operations in no block; they are listed
with the retired ones in the order of emission.

A run keeps its state when it fails, because the kernel and the placement stay as they then are.
-/

namespace QubitMapper

/-- What was counted in a run. -/
structure RoutingStats where
  swaps : Nat := 0
  rounds : Nat := 0
  releases : Nat := 0
  unmapped : Nat := 0
  deriving DecidableEq, Repr

/-- What a run is about: the device, the qubits on the wires of the kernel, and the options. -/
structure RoutingTask where
  device : Device
  labels : Labels
  options : Options

/-- The state of a run. -/
structure Router where
  kernel : Kernel
  placement : Placement
  frontier : Frontier
  /-- The operations that are ready, oldest first. -/
  front : List ReadyOp
  /-- The physical qubits of blocked operations. -/
  involved : List Nat
  /-- The weight of each physical qubit. -/
  decay : Array Float
  /-- The wire on each physical qubit; none while the qubit is empty. -/
  onQubit : Array (Option Nat)
  /-- The operations retired or made so far, in order. -/
  emitted : Array Nat
  stats : RoutingStats

/-- A step of a run. -/
abbrev Route := EStateM MappingError Router

namespace Router

/-- The state before a run. -/
def start (k : Kernel) (p : Placement) (d : Device) : Router where
  kernel := k
  placement := p
  frontier := .initial
  front := []
  involved := []
  decay := Array.replicate d.numQubits 1.0
  onQubit := Array.replicate d.numQubits none
  emitted := #[]
  stats := {}

/-! ## Small steps -/

/-- A step of the circuit that may fail. -/
def liftCircuit {α : Type} : Except CircuitError α → Route α
  | .ok a => pure a
  | .error e => throw (.circuit e)

/-- The number of the place of a virtual qubit. -/
def placeOf (v : Nat) : Route Nat := do
  match (← get).placement.slot? v with
  | some p => pure p
  | none => throw (.fault (.noSuchQubit v))

/-- What two physical qubits hold exchanged. -/
def swapPlaces (c : Nat × Nat) : Route Unit := do
  let s ← get
  match s.placement.missed? c.1 c.2 with
  | some q => throw (.fault (.noSuchQubit q))
  | none => set { s with placement := s.placement.swap c.1 c.2 }

/-- The weight of a physical qubit. -/
def weightOf (q : Nat) : Route Float := do
  match (← get).decay[q]? with
  | some weight => pure weight
  | none => throw (.fault (.noSuchQubit q))

/-- A wire put on a physical qubit, or the qubit left empty. -/
def setWire (p : Nat) (w : Option Nat) : Route Unit := do
  if p < (← get).onQubit.size then
    modify fun s => { s with onQubit := s.onQubit.setIfInBounds p w }
  else throw (.fault (.noSuchQubit p))

/-- The physical qubits of an operation written down. -/
def setPhysical (op : Nat) (ps : List Nat) : Route Unit :=
  modify fun s => { s with kernel := s.kernel.modifyOp op ({ · with physical := ps }) }

/-- An operation listed as emitted. -/
def emit (op : Nat) : Route Unit := modify fun s => { s with emitted := s.emitted.push op }

/-- A new operation in no block, with its results. -/
def createOp (kind : OpKind) (operands : List Nat) : Route (Nat × List Nat) := do
  let (k, op, results) ← liftCircuit ((← get).kernel.create kind operands)
  modify fun s => { s with kernel := k }
  return (op, results)

/-- The wire on a physical qubit; an empty qubit gets a fresh one. -/
def occupy (p : Nat) : Route Nat := do
  match (← get).onQubit[p]? with
  | none => throw (.fault (.noSuchQubit p))
  | some (some w) => return w
  | some none =>
      let (op, results) ← createOp .alloc []
      setPhysical op [p]
      emit op
      let w ← liftCircuit (Kernel.resultAt results 0)
      setWire p (some w)
      return w

/-- The consumers of a retired operation visited, and what becomes ready. -/
def visit (task : RoutingTask) (op : Nat) : Route (List ReadyOp) := do
  let s ← get
  let (frontier, released) ← liftCircuit (s.frontier.visit s.kernel task.labels op)
  modify fun s => { s with frontier }
  return released

/-! ## Retiring operations -/

/-- Whether an operation on some physical qubits has to wait for two of them to be adjacent. -/
def isBlocked (d : Device) (o : Operation) : List Nat → Bool
  | [a, b] => o.isConstrained && !d.isAdjacent a b
  | _ => false

/-- The physical qubits of an operation take the wires that it produces; a sink leaves them
empty. -/
def settle (o : Operation) (ps : List Nat) : Route Unit :=
  if o.kind.isSink then ps.forM (setWire · none)
  else (o.results.zip ps).forM fun (w, p) => setWire p (some w)

/-- An operation retired, unless it is blocked. -/
def retire (task : RoutingTask) (r : ReadyOp) : Route Bool := do
  let ps ← r.qubits.mapM placeOf
  match (← get).kernel.op? r.op with
  | none => throw (.circuit (.opNotFound r.op))
  | some o =>
      if isBlocked task.device o ps then return false
      else
        let ws ← ps.mapM occupy
        let k ← liftCircuit ((← get).kernel.setOperands r.op ws)
        modify fun s => { s with kernel := k }
        setPhysical r.op ps
        emit r.op
        settle o ps
        return true

/-- The qubits of a blocked operation noted, if there is a way between them. -/
def noteBlocked (d : Device) (r : ReadyOp) : Route Unit := do
  let ps ← r.qubits.mapM placeOf
  match ps with
  | [a, b] => if (d.distance? a b).isNone then throw (.unroutable a b)
  | _ => pure ()
  modify fun s => { s with involved := s.involved ++ ps }

/-- A layer tried in order: the next layer, and whether any operation was retired. An operation that
is retired makes room for those it releases; a blocked one stays. -/
def retireLayer (task : RoutingTask) : List ReadyOp → Route (List ReadyOp × Bool)
  | [] => return ([], false)
  | r :: rest => do
      if ← retire task r then
        let released ← visit task r.op
        let (next, _) ← retireLayer task rest
        return (released ++ next, true)
      else
        noteBlocked task.device r
        let (next, progress) ← retireLayer task rest
        return (r :: next, progress)

/-! ## Choosing swaps -/

/-- The swaps of an involved qubit with a neighbor, in ascending order. -/
def candidates (d : Device) (involved : List Nat) : List (Nat × Nat) :=
  ((List.range d.numQubits).filter involved.contains).flatMap fun a =>
    (d.neighbors a).map (a, ·)

/-- The operations that are looked at ahead. -/
def lookAhead (task : RoutingTask) : Route (List ReadyOp) := do
  if task.options.lookaheadSize = 0 then return []
  else
    let s ← get
    let (frontier, ahead) ← liftCircuit
      (Lookahead.layer s.kernel task.labels s.frontier s.front task.options.lookaheadSize)
    modify fun s => { s with frontier }
    return ahead

/-- The cost of the placement as it stands, for a swap of two qubits. -/
def swapCost (task : RoutingTask) (ahead : List ReadyOp) (c : Nat × Nat) : Route Float := do
  let weight := Cost.greater (← weightOf c.1) (← weightOf c.2)
  let s ← get
  return weight * Cost.layers task.device s.placement s.front ahead task.options.lookaheadWeight

/-- The cost of a swap, taken while the swap is made and before it is made again. -/
def trySwap (task : RoutingTask) (ahead : List ReadyOp) (c : Nat × Nat) : Route Float := do
  swapPlaces c
  let cost ← swapCost task ahead c
  swapPlaces c
  return cost

/-- The first virtual qubit of a two-qubit operation that judging the candidates would miss. -/
def strayQubit? (s : Router) (ahead : List ReadyOp) (cs : List (Nat × Nat)) : Option Nat :=
  if cs.isEmpty then none
  else
    let vs := (s.front ++ ahead).flatMap fun r => if r.qubits.length = 2 then r.qubits else []
    vs.find? (s.placement.virtualCount ≤ ·)

/-- The first cheapest swap. -/
def chooseSwap (task : RoutingTask) : Route (Nat × Nat) := do
  let cs := candidates task.device (← get).involved
  let ahead ← lookAhead task
  match strayQubit? (← get) ahead cs with
  | some q => throw (.fault (.noSuchQubit q))
  | none =>
      let costs ← cs.mapM (trySwap task ahead)
      match firstCheapest (·.2) (cs.zip costs) with
      | some (c, _) => return c
      | none => throw .noCandidate

/-! ## Inserting swaps -/

/-- Two physical qubits exchanged by a new swap. -/
def insertSwap (a b : Nat) : Route Unit := do
  let wa ← occupy a
  let wb ← occupy b
  swapPlaces (a, b)
  let (op, results) ← createOp .swap [wa, wb]
  setPhysical op [a, b]
  setWire a (some (← liftCircuit (Kernel.resultAt results 0)))
  setWire b (some (← liftCircuit (Kernel.resultAt results 1)))
  emit op
  modify fun s => { s with stats := { s.stats with swaps := s.stats.swaps + 1 } }

/-- The weight of a physical qubit raised. -/
def raiseWeight (step : Float) (q : Nat) : Route Unit := do
  let weight ← weightOf q
  modify fun s => { s with decay := s.decay.setIfInBounds q (weight + step) }

/-- The weights of two swapped qubits raised, or all weights started afresh. -/
def updateDecay (options : Options) (searches a b : Nat) : Route Unit := do
  if options.decayPeriod = 0 then throw (.fault .zeroPeriod)
  else if searches % options.decayPeriod = 0 then
    modify fun s => { s with decay := Array.replicate s.decay.size 1.0 }
  else
    raiseWeight options.decayStep a
    raiseWeight options.decayStep b

/-- The swaps that walk the first qubit of a path next to the last. -/
def walkSwaps : List Nat → List (Nat × Nat)
  | a :: b :: c :: rest => (a, b) :: walkSwaps (b :: c :: rest)
  | _ => []

/-- The oldest blocked operation brought together along a shortest path. -/
def release (task : RoutingTask) : Route Unit := do
  match (← get).front.head?.map (·.qubits) with
  | some [v, w] =>
      let a ← placeOf v
      let b ← placeOf w
      match task.device.shortestPath? a b with
      | none => throw (.unroutable a b)
      | some path =>
          (walkSwaps path).forM fun (a, b) => insertSwap a b
          modify fun s => { s with
            decay := Array.replicate s.decay.size 1.0
            involved := []
            stats := { s.stats with releases := s.stats.releases + 1 } }
  | _ => pure ()

/-! ## The run -/

/-- An allocation of the circuit placed: its wire stands on the qubit where its virtual qubit is. -/
def placeSource (task : RoutingTask) (source : Nat) : Route Unit := do
  match ((← get).kernel.op? source).bind (·.results.head?) with
  | none => throw (.circuit (.opNotFound source))
  | some w =>
      match task.labels[w]? with
      | none => throw (.unlabelledWire w)
      | some v =>
          let p ← placeOf v
          let released ← visit task source
          modify fun s => { s with front := s.front ++ released }
          setWire p (some w)
          setPhysical source [p]
          emit source

/-- The front layer tried once. -/
def round (task : RoutingTask) : Route Bool := do
  let s ← get
  set { s with front := [], stats := { s.stats with rounds := s.stats.rounds + 1 } }
  let (next, progress) ← retireLayer task s.front
  modify fun s => { s with front := next }
  return progress

/-- How a run stands between two turns. -/
structure Tally where
  /-- The searches for a swap so far. -/
  searches : Nat := 0
  /-- The swaps since an operation was last retired or forced. -/
  stalled : Nat := 0

/-- A way made for a blocked layer: after too many swaps without progress the oldest operation is
brought together, before that the first cheapest swap is inserted. -/
def unblock (task : RoutingTask) (t : Tally) : Route Tally := do
  if task.options.releaseAfter ≤ t.stalled then
    release task
    return { t with stalled := 0 }
  else
    let (a, b) ← chooseSwap task
    insertSwap a b
    modify fun s => { s with involved := [] }
    updateDecay task.options (t.searches + 1) a b
    return ⟨t.searches + 1, t.stalled + 1⟩

/-- One turn of a run: the front layer is tried, and unblocked if nothing of it was retired. An
empty layer begins the measurement phase, and after that ends the run. -/
def turn (task : RoutingTask) (t : Tally) : Route (Option Tally) := do
  let s ← get
  if s.front.isEmpty then
    if s.frontier.measuring then return none
    else
      let (frontier, front) := s.frontier.enterMeasurement
      set { s with frontier, front }
      return some t
  else if ← round task then return some { t with stalled := 0 }
  else return some (← unblock task t)

/-- Turns until the run ends. -/
def turns (task : RoutingTask) : Nat → Tally → Route Unit
  | 0, _ => throw (.fault .endless)
  | fuel + 1, t => do
      match ← turn task t with
      | none => return
      | some t => turns task fuel t

/-- The number of operations of the entry block without physical qubits. -/
def unmappedCount (k : Kernel) : Nat :=
  (k.entry.filterMap k.op?).countP fun o => !o.isMapped

/-- A bound on the number of turns: each operation is retired once, and before that there are at
most `releaseAfter` swaps, one release and one more turn. The measurement phase and the end take a
turn each. -/
def fuel (task : RoutingTask) (k : Kernel) : Nat :=
  (k.ops.size + 1) * (task.options.releaseAfter + 2) + 2

/-- A run from the allocations of the circuit. -/
def route (task : RoutingTask) (sources : List Nat) : Route Unit := do
  sources.forM (placeSource task)
  turns task (fuel task (← get).kernel) {}
  modify fun s => { s with stats := { s.stats with unmapped := unmappedCount s.kernel } }

end Router

end QubitMapper
