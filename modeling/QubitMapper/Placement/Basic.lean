import QubitMapper.Circuit.Operation

/-!
# Placements

A placement says where each virtual qubit is, and which virtual qubit each physical qubit holds. The
two tables are inverse to each other: seeding fills one empty entry of each, and a swap exchanges
what two physical qubits hold.
-/

namespace QubitMapper

/-- Why qubits cannot be placed. -/
inductive PlacementError where
  | tooFewQubits (required available : Nat)
  | outOfRange (v p : Nat)
  | taken (v p : Nat)
  deriving DecidableEq, Repr

/-- The wording of an error. -/
def PlacementError.message : PlacementError → String
  | tooFewQubits required available =>
      s!"Circuit requires {required} qubits but target only has {available}"
  | outOfRange v p =>
      s!"Invalid pass configuration: cannot place {virtualLabel v} on {physicalLabel p}: " ++
        "out of range"
  | taken v p =>
      s!"Invalid pass configuration: cannot place {virtualLabel v} on {physicalLabel p}: " ++
        "already assigned"

/-- Where virtual qubits are. -/
structure Placement where
  /-- The physical qubit of each virtual qubit. -/
  places : Array (Option Nat)
  /-- The virtual qubit that each physical qubit holds. -/
  holders : Array (Option Nat)
  deriving DecidableEq, Repr

namespace Placement

/-! ## Making placements -/

/-- The placement of `virtual` qubits on `physical` ones where nothing is placed yet. -/
def empty (virtual physical : Nat) : Except PlacementError Placement :=
  if physical < virtual then .error (.tooFewQubits virtual physical)
  else .ok ⟨Array.replicate virtual none, Array.replicate physical none⟩

/-- The placement of each virtual qubit on the physical qubit of the same number. -/
def identity (virtual physical : Nat) : Except PlacementError Placement :=
  if physical < virtual then .error (.tooFewQubits virtual physical)
  else
    .ok ⟨(Array.range virtual).map some,
      (Array.range physical).map fun p => if p < virtual then some p else none⟩

/-! ## Looking things up -/

/-- The number of virtual qubits. -/
def virtualCount (p : Placement) : Nat := p.places.size

/-- The number of physical qubits. -/
def physicalCount (p : Placement) : Nat := p.holders.size

/-- The physical qubit that holds a virtual qubit. -/
def physical? (p : Placement) (v : Nat) : Option Nat := (p.places[v]?).join

/-- The virtual qubit that a physical qubit holds. -/
def virtual? (p : Placement) (q : Nat) : Option Nat := (p.holders[q]?).join

/-- The number that stands for the place of a qubit that is nowhere. -/
def nowhere : Nat := UInt32.size - 1

/-- The number of the place of a virtual qubit of the placement. -/
def slot? (p : Placement) (v : Nat) : Option Nat := (p.places[v]?).map (·.getD nowhere)

/-- The numbers of the places of the first `n` virtual qubits. -/
def firstSlots (p : Placement) (n : Nat) : List Nat :=
  (p.places.toList.take n).map (·.getD nowhere)

/-! ## Changing placements -/

/-- The placement with a virtual qubit placed on an empty physical qubit. -/
def assign (p : Placement) (v q : Nat) : Except PlacementError Placement :=
  match p.places[v]?, p.holders[q]? with
  | some none, some none =>
      .ok ⟨p.places.setIfInBounds v (some q), p.holders.setIfInBounds q (some v)⟩
  | some _, some _ => .error (.taken v q)
  | _, _ => .error (.outOfRange v q)

/-- A table of places with a virtual qubit, if there is one, moved to a place. -/
def moveTo (places : Array (Option Nat)) (q : Nat) : Option Nat → Array (Option Nat)
  | none => places
  | some v => places.setIfInBounds v (some q)

/-- The placement with what two physical qubits hold exchanged. A qubit that holds nothing takes
part as well. -/
def swap (p : Placement) (a b : Nat) : Placement :=
  let va := p.virtual? a
  let vb := p.virtual? b
  ⟨moveTo (moveTo p.places b va) a vb,
    (p.holders.setIfInBounds a vb).setIfInBounds b va⟩

/-- The first qubit that a swap would miss: one of the two physical qubits, or a virtual qubit that
they hold. -/
def missed? (p : Placement) (a b : Nat) : Option Nat :=
  ([a, b].find? (p.physicalCount ≤ ·)).or
    (([a, b].filterMap p.virtual?).find? (p.virtualCount ≤ ·))

/-! ## Checking placements -/

/-- Whether every virtual qubit is placed. -/
def isComplete (p : Placement) : Bool := p.places.all Option.isSome

/-- Whether every entry of one table is answered by the other one. -/
def answers (table other : Array (Option Nat)) : Bool :=
  table.toList.zipIdx.all fun (entry, i) =>
    match entry with
    | none => true
    | some j => other[j]? == some (some i)

/-- Whether the two tables agree with each other. -/
def isBijective (p : Placement) : Bool :=
  answers p.places p.holders && answers p.holders p.places

end Placement

end QubitMapper
