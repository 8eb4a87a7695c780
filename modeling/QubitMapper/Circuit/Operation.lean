/-!
# Operations

A circuit is made of operations that consume and produce *wires*. A wire carries one qubit between
the operation that produces it and the one that consumes it.

Everything is named by a number. Operations, wires and blocks are named by their position in the
kernel that holds them, block 0 being the entry block. *Virtual* qubits are the qubits of a circuit,
numbered by allocation; *physical* qubits are those of a device.
-/

namespace QubitMapper

/-- An operation as it is named in texts. -/
def opLabel (op : Nat) : String := s!"op{op}"

/-- A wire as it is named in texts. -/
def wireLabel (w : Nat) : String := s!"%{w}"

/-- A block as it is named in texts. -/
def blockLabel (b : Nat) : String := s!"^bb{b}"

/-- A qubit of a circuit as it is named in texts. -/
def virtualLabel (v : Nat) : String := s!"v{v}"

/-- A qubit of a device as it is named in texts. -/
def physicalLabel (p : Nat) : String := s!"p{p}"

/-- What an operation does. -/
inductive OpKind where
  /-- Brings a fresh qubit into being. -/
  | alloc
  /-- A unitary gate with its numeric parameters. -/
  | gate (name : String) (params : List Float)
  /-- A measurement in the computational basis; the register takes the result. -/
  | measure (register : Option String)
  /-- Puts a qubit into the ground state. -/
  | reset
  /-- Exchanges two qubits. -/
  | swap
  /-- Ends the life of a qubit: consumes its wire and produces none. -/
  | sink
  /-- Something that mapping must leave alone. -/
  | unknown (name : String)

namespace OpKind

/-- The name shown for an operation of this kind. -/
def name : OpKind → String
  | alloc => "alloc"
  | gate name _ => name
  | measure _ => "measure"
  | reset => "reset"
  | swap => "swap"
  | sink => "sink"
  | unknown name => name

/-- Whether mapping knows how to place operations of this kind. -/
def isSupported : OpKind → Bool
  | unknown _ => false
  | _ => true

/-- Whether this is a measurement. -/
def isMeasure : OpKind → Bool
  | measure _ => true
  | _ => false

/-- Whether this is a sink. -/
def isSink : OpKind → Bool
  | sink => true
  | _ => false

/-- Whether this is an allocation. -/
def isAlloc : OpKind → Bool
  | alloc => true
  | _ => false

/-- Whether this is a swap. -/
def isSwap : OpKind → Bool
  | swap => true
  | _ => false

/-- The number of operands, where the kind fixes it. -/
def arity? : OpKind → Option Nat
  | alloc => some 0
  | reset => some 1
  | sink => some 1
  | swap => some 2
  | _ => none

/-- The number of wires that an operation with `n` operands produces. -/
def resultCount (kind : OpKind) (n : Nat) : Nat :=
  match kind with
  | sink => 0
  | alloc => 1
  | _ => n

end OpKind

/-- An operation: its kind, the wires it consumes and produces, and the physical qubit of each
operand once it has been mapped. Result `i` carries the qubit of operand `i`. -/
structure Operation where
  kind : OpKind
  operands : List Nat
  results : List Nat
  physical : List Nat := []

namespace Operation

/-- The name shown for the operation. -/
def name (o : Operation) : String := o.kind.name

/-- Whether the operation has been given physical qubits. -/
def isMapped (o : Operation) : Bool := !o.physical.isEmpty

end Operation

/-- A wire: the operation that produces it, at which of its results, and the operations that
consume it in the order in which they began to. -/
structure Wire where
  producer : Nat
  index : Nat
  users : List Nat
  deriving DecidableEq

namespace Wire

/-- The wire with one more user. -/
def addUser (wire : Wire) (op : Nat) : Wire := { wire with users := wire.users ++ [op] }

/-- The wire with one occurrence of a user less. -/
def removeUser (wire : Wire) (op : Nat) : Wire := { wire with users := wire.users.erase op }

end Wire

end QubitMapper
