import QubitMapper.Circuit.Kernel.Check
import QubitMapper.Circuit.Kernel.Order
import QubitMapper.Pass.Basic
import QubitMapper.Pass.Labelling

/-!
# The mapping pass

The allocations of a kernel start on the physical qubits of the same number, and fresh qubits fill
up the device, so that routing works on a placement of all qubits. The entry block is then put into
the order of emission, and the fresh qubits at the end that nothing uses are taken out again.
-/

namespace QubitMapper

/-- A device to map onto, and how. -/
structure Target where
  spec : Spec
  options : Options := {}

namespace Mapping

/-- What a kernel must be before it is touched: in value semantics and of one block. -/
def checkKernel (k : Kernel) : Except MappingError Unit := do
  k.verify.mapError .circuit
  if 1 < k.blocks.length then .error (.multipleBlocks k.blocks.length)

/-- The device for a number of qubits. -/
def buildDevice (files : FileReader) (spec : Spec) (sources : Nat) :
    Except MappingError Device := do
  let device ← (spec.build files sources).mapError .device
  if device.numQubits < sources then
    .error (.placement (.tooFewQubits sources device.numQubits))
  else return device

/-- The position behind the last allocation of the entry block. -/
def ancillaPosition (k : Kernel) : Nat :=
  let isAlloc := fun op => (k.op? op).any (·.kind.isAlloc)
  k.entry.length - (k.entry.reverse.takeWhile (!isAlloc ·)).length

/-- Fresh qubits allocated at a position of the entry block, one for each of `count` virtual
qubits, labelled and listed as sources. -/
def insertAncillas (l : Labelling) (position : Nat) : Nat → Compile Labelling
  | 0 => return l
  | count + 1 => do
      let (k, op, results) ← Compile.liftCircuit ((← get).kernel.insert 0 position .alloc [])
      Compile.setKernel k
      let w ← Compile.liftCircuit (Kernel.resultAt results 0)
      let labels := l.labels.insert w l.sources.size
      insertAncillas ⟨labels, l.sources.push op⟩ (position + 1) count

/-- The kernel routed, with what the run leaves. -/
def route (task : RoutingTask) (sources : List Nat) (p : Placement) : Compile Router := do
  match Router.route task sources (Router.start (← get).kernel p task.device) with
  | .ok _ router => do
      Compile.setKernel router.kernel
      return router
  | .error e router => do
      Compile.setKernel router.kernel
      throw e

/-- The entry block in the order of emission, with what was not reached behind it. -/
def reorder (emitted : Array Nat) : Compile Unit := do
  let k := (← get).kernel
  let leftovers := k.entry.filter fun op => !emitted.contains op
  let k ← Compile.liftCircuit (k.setBlockOrder 0 (emitted.toList ++ leftovers))
  Compile.setKernel k
  Compile.setKernel (← Compile.liftCircuit (k.sortBlock 0))

/-- Allocations erased from the first on, up to one that is used. -/
def prune : List Nat → Compile Unit
  | [] => return
  | op :: rest => do
      let k := (← get).kernel
      let users ← Compile.liftCircuit (k.users op)
      if users.isEmpty then
        let (k, _) ← Compile.liftCircuit (k.erase op)
        Compile.setKernel k
        prune rest

/-- The results of a run published on the kernel and in the properties. -/
def publish (device : Device) (router : Router) (count : Nat) : Compile Unit := do
  let assignment := Assignment.freeze router.placement count
  modify fun c => {
    kernel := { c.kernel with level := .physical, mapping := some assignment.places }
    properties :=
      (((c.properties.insert .assignment assignment).insert .placement
        router.placement).insert .device device).insert .stats router.stats }

/-- A kernel mapped onto a device. -/
def run (files : FileReader) (target : Target) : Compile Unit := do
  Compile.lift (target.options.validate.mapError .options)
  let k := (← get).kernel
  Compile.lift (checkKernel k)
  let l ← Compile.lift (Labelling.ofKernel k)
  let count := l.sources.size
  let device ← Compile.lift (buildDevice files target.spec count)
  let l ← insertAncillas l (ancillaPosition k) (device.numQubits - count)
  let placement ← Compile.lift
    ((Placement.identity device.numQubits device.numQubits).mapError .placement)
  let task : RoutingTask := ⟨device, l.labels, target.options⟩
  let router ← route task l.sources.toList placement
  reorder router.emitted
  prune (l.sources.toList.drop count).reverse
  publish device router count

/-- The pass that maps logical kernels. -/
def pass (files : FileReader) (target : Target) : Pass where
  name := "mapping"
  isAnalysis := false
  applies k := k.level == .logical
  run := run files target

end Mapping

end QubitMapper
