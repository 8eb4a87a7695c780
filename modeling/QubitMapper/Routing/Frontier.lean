import Std.Data.TreeMap
import QubitMapper.Circuit.Kernel.Basic

/-!
# The frontier

An operation is ready once it has been reached through each of its operands. Retiring an operation
visits the consumers of its results and counts each visit; the visit that makes the count equal to
the number of operands releases the consumer. Measurements are held back until the measurement phase
begins. Looking ahead visits as well, but records what it counted, so that it can be taken back.
-/

namespace QubitMapper

/-- The virtual qubit that each wire of a kernel carries. -/
abbrev Labels := Std.TreeMap Nat Nat

/-- An operation that is ready, with the virtual qubits of its operands. -/
structure ReadyOp where
  op : Nat
  qubits : List Nat
  deriving DecidableEq, Repr

/-- How often operations have been reached, and the measurements held back. -/
structure Frontier where
  visits : Std.TreeMap Nat Nat
  deferred : List ReadyOp
  measuring : Bool

/-- What a visit is for: a retired operation, or a look ahead. -/
inductive VisitMode where
  | retire
  | explore
  deriving DecidableEq, Repr

namespace Frontier

/-- The frontier before any visit. -/
def initial : Frontier := ⟨{}, [], false⟩

/-- How often an operation has been reached. -/
def count (f : Frontier) (op : Nat) : Nat := f.visits.getD op 0

/-- One operation reached once more, and what that releases. -/
def reach (k : Kernel) (labels : Labels) (mode : VisitMode) (f : Frontier) (op : Nat) :
    Frontier × List ReadyOp :=
  let count := f.count op + 1
  let f := { f with visits := f.visits.insert op count }
  match k.op? op with
  | none => (f, [])
  | some o =>
      if count ≠ o.operands.length then (f, [])
      else
        match o.operands.mapM (labels[·]?) with
        | none => (f, [])
        | some qubits =>
            if f.measuring || !o.kind.isMeasure then (f, [⟨op, qubits⟩])
            else if mode = .retire ∧ f.deferred.all (·.op != op) then
              ({ f with deferred := f.deferred ++ [⟨op, qubits⟩] }, [])
            else (f, [])

/-- Operations reached in order, and what they release. -/
def reachAll (k : Kernel) (labels : Labels) (mode : VisitMode) (f : Frontier) :
    List Nat → Frontier × List ReadyOp
  | [] => (f, [])
  | op :: rest =>
      let (f, released) := f.reach k labels mode op
      let (f, more) := reachAll k labels mode f rest
      (f, released ++ more)

/-- The consumers of a retired operation visited. -/
def visit (k : Kernel) (labels : Labels) (f : Frontier) (op : Nat) :
    Except CircuitError (Frontier × List ReadyOp) :=
  (f.reachAll k labels .retire ·) <$> k.users op

/-- The consumers of an operation visited for a look ahead, with the visits to take back. -/
def explore (k : Kernel) (labels : Labels) (f : Frontier) (op : Nat) :
    Except CircuitError (Frontier × List ReadyOp × List Nat) := do
  let users ← k.users op
  let (f, released) := f.reachAll k labels .explore users
  return (f, released, users)

/-- The consumers of some operations visited for a look ahead, with all visits to take back. -/
def exploreAll (k : Kernel) (labels : Labels) (f : Frontier) :
    List Nat → Except CircuitError (Frontier × List ReadyOp × List Nat)
  | [] => .ok (f, [], [])
  | op :: rest => do
      let (f, released, noted) ← f.explore k labels op
      let (f, more, notedMore) ← exploreAll k labels f rest
      return (f, released ++ more, noted ++ notedMore)

/-- Visits taken back. An operation that was never reached is passed over; one whose visits are all
taken back has none to give. -/
def rollback (f : Frontier) : List Nat → Except CircuitError Frontier
  | [] => .ok f
  | op :: rest =>
      match f.visits[op]? with
      | none => rollback f rest
      | some 0 => .error (.fault (.uncounted op))
      | some (n + 1) => rollback { f with visits := f.visits.insert op n } rest

/-- The measurement phase begun, and the measurements held back so far in the order in which they
became ready. -/
def enterMeasurement (f : Frontier) : Frontier × List ReadyOp :=
  ({ f with measuring := true, deferred := [] }, f.deferred)

end Frontier

end QubitMapper
