import QubitMapper.Pass.Slots
import QubitMapper.Placement.Assignment
import QubitMapper.Routing.Router

/-!
# Passes

A pass works on a kernel and on the properties that passes leave for each other. A pass that fails
leaves both as they then are.
-/

namespace QubitMapper

/-- What a check of a mapped kernel counted. -/
structure ConnectivityReport where
  passed : Bool := false
  twoQubit : Nat := 0
  swaps : Nat := 0
  measurements : Nat := 0
  deriving DecidableEq, Repr

/-- The names of the properties. -/
inductive Property where
  /-- The device that the kernel was mapped onto. -/
  | device
  /-- Where all virtual qubits are at the end, spare ones included. -/
  | placement
  /-- Where the program's own qubits are at the end. -/
  | assignment
  | stats
  | connectivity
  deriving DecidableEq, Repr

/-- The type of a property. -/
abbrev Property.Value : Property → Type
  | device => Device
  | placement => Placement
  | assignment => Assignment
  | stats => RoutingStats
  | connectivity => ConnectivityReport

/-- The properties of a kernel under compilation. -/
abbrev Properties := Slots Property.Value

/-- A kernel under compilation. -/
structure Compilation where
  kernel : Kernel
  properties : Properties

/-- A step of a compilation. It keeps its state when it fails. -/
abbrev Compile := EStateM MappingError Compilation

namespace Compile

/-- A step that may fail. -/
def lift {α : Type} : Except MappingError α → Compile α
  | .ok a => pure a
  | .error e => throw e

/-- A step of the circuit that may fail. -/
def liftCircuit {α : Type} (r : Except CircuitError α) : Compile α :=
  lift (r.mapError .circuit)

/-- The kernel replaced. -/
def setKernel (k : Kernel) : Compile Unit := modify ({ · with kernel := k })

end Compile

/-- A pass over a kernel. -/
structure Pass where
  name : String
  /-- Whether the pass only looks at the kernel. -/
  isAnalysis : Bool
  /-- Whether the pass has something to do. -/
  applies : Kernel → Bool
  run : Compile Unit

/-- The passes that apply run in order, each on what the one before it left. -/
def runPasses : List Pass → Compile Unit
  | [] => return
  | pass :: rest => do
      if pass.applies (← get).kernel then pass.run
      runPasses rest

end QubitMapper
