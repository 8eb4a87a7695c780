import QubitMapper.Device.Basic
import QubitMapper.Text.Unsigned

/-!
# Common devices

Paths, rings, stars and grids of a given size. The size is checked before any edge is listed.
-/

namespace QubitMapper.Device

/-- The edges of a path: each qubit with the next. -/
def pathEdges (count : Nat) : List (Nat × Nat) :=
  (List.range (count - 1)).map fun i => (i, i + 1)

/-- The edges of a ring: a path closed from its last qubit to qubit 0. -/
def ringEdges (count : Nat) : List (Nat × Nat) :=
  pathEdges count ++ if 1 < count then [(count - 1, 0)] else []

/-- The edges of a star: its centre with each other qubit. -/
def starEdges (count centre : Nat) : List (Nat × Nat) :=
  ((List.range count).filter (· != centre)).map (centre, ·)

/-- The edges of a grid numbered row by row: each qubit with the one to its right and the one
below. -/
def gridEdges (width height : Nat) : List (Nat × Nat) :=
  (List.range (width * height)).flatMap fun q =>
    (if q % width + 1 < width then [(q, q + 1)] else []) ++
      if q / width + 1 < height then [(q, q + width)] else []

/-- Qubits in a line. -/
def path (count : Nat) : Except DeviceError Device := do
  checkCount count
  ofEdges count (pathEdges count)

/-- Qubits in a closed line. -/
def ring (count : Nat) : Except DeviceError Device := do
  checkCount count
  ofEdges count (ringEdges count)

/-- Qubits around a centre. -/
def star (count centre : Nat) : Except DeviceError Device := do
  if 0 < count ∧ count ≤ centre then .error (.centreOutside centre count)
  else
    checkCount count
    ofEdges count (starEdges count centre)

/-- Qubits in rows and columns. -/
def grid (width height : Nat) : Except DeviceError Device :=
  if maxQubits < width * height then .error (.gridTooLarge width height)
  else ofEdges (width * height) (gridEdges width height)

end QubitMapper.Device
