import QubitMapper.Device.Basic

/-!
# Devices as text

The size, the edges in the order in which they were listed, and the table of distances.
-/

namespace QubitMapper.Device

/-- An edge with a blank in front. -/
def edgeText (e : Edge) : String := s!" ({e.1}, {e.2})"

/-- The distances from a qubit, a dash where there is no way. -/
def distanceRow (d : Device) (a : Nat) : String :=
  let cells := (List.range d.numQubits).map fun b =>
    match d.distance? a b with
    | some n => toString n
    | none => "-"
  "  " ++ String.intercalate " " cells ++ "\n"

/-- The text of a device. -/
def text (d : Device) : String :=
  s!"Device: {d.numQubits} qubits, {d.edges.length} edges\n" ++
    "Edges:" ++ String.join (d.edges.map edgeText) ++ "\n" ++
    "Distances:\n" ++ String.join ((List.range d.numQubits).map d.distanceRow)

end QubitMapper.Device
