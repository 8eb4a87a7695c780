import QubitMapper.Device.Topology
import QubitMapper.Proofs.Outcome

/-!
# Common devices in 32-bit words

Sizes and qubits are 32-bit words. The edges of a device are listed here as words, with every sum,
difference and product checked, and a grid cell by cell in rows. No operation leaves the words,
whatever the sizes asked for: a size that is too large is refused before anything is computed from
it.

## Main results

* `Device.Words.path_eq`, `Device.Words.ring_eq`, `Device.Words.grid_eq`: in words the devices, and
  the errors, are the same.
-/

namespace QubitMapper.Device

/-! ## Sizes are checked once -/

theorem checkCount_bind (count : Nat) (listed : List (Nat × Nat)) :
    (do checkCount count; ofEdges count listed) = ofEdges count listed := by
  unfold checkCount ofEdges
  by_cases hpos : count = 0
  · simp [hpos, bind, Except.bind]
  · by_cases hle : maxQubits < count
    · simp [hpos, hle, bind, Except.bind]
    · simp only [hpos, hle, ↓reduceIte, bind, Except.bind]

theorem path_eq_ofEdges (count : Nat) : path count = ofEdges count (pathEdges count) :=
  checkCount_bind count _

theorem ring_eq_ofEdges (count : Nat) : ring count = ofEdges count (ringEdges count) :=
  checkCount_bind count _

theorem star_eq_ofEdges {count centre : Nat} (h : ¬ (0 < count ∧ count ≤ centre)) :
    star count centre = ofEdges count (starEdges count centre) := by
  unfold star
  rw [if_neg h]
  exact checkCount_bind count _

/-! ## Cells of a grid -/

/-- The edges from a cell of a grid. -/
def cellEdges (width height row col : Nat) : List (Nat × Nat) :=
  let q := row * width + col
  (if col + 1 < width then [(q, q + 1)] else []) ++
    if row + 1 < height then [(q, q + width)] else []

/-- The numbers of the cells of a grid, row by row. -/
theorem range_mul (width height : Nat) : List.range (width * height) =
    (List.range height).flatMap fun row => (List.range width).map (row * width + ·) := by
  induction height with
  | zero => simp
  | succ height ih =>
      rw [Nat.mul_succ, List.range_add, ih, List.range_succ, List.flatMap_append,
        List.flatMap_singleton, Nat.mul_comm]

/-- A cell in a column of a grid is found again from its number. -/
theorem cell_div_mod (row : Nat) {width col : Nat} (hcol : col < width) :
    (row * width + col) / width = row ∧ (row * width + col) % width = col :=
  (Nat.div_mod_unique (Nat.zero_lt_of_lt hcol)).mpr
    ⟨by rw [Nat.add_comm, Nat.mul_comm], hcol⟩

/-- The edges of a grid, cell by cell. -/
theorem gridEdges_eq (width height : Nat) : gridEdges width height =
    (List.range height).flatMap fun row => (List.range width).flatMap
      (cellEdges width height row) := by
  unfold gridEdges
  rw [range_mul, List.flatMap_assoc]
  refine List.flatMap_congr fun row _ => ?_
  rw [List.flatMap_map]
  refine List.flatMap_congr fun col hcol => ?_
  obtain ⟨hdiv, hmod⟩ := cell_div_mod row (List.mem_range.mp hcol)
  rw [hdiv, hmod]
  rfl

/-! ## Words -/

namespace Words

/-- A result that is a word. -/
def word? (n : Nat) : Option Nat := if n < Text.limit32 then some n else none

/-- A sum of words, if it is a word. -/
def add? (a b : Nat) : Option Nat := word? (a + b)

/-- A product of words, if it is a word. -/
def mul? (a b : Nat) : Option Nat := word? (a * b)

/-- A difference of words, if it is a word. -/
def sub? (a b : Nat) : Option Nat := if b ≤ a then some (a - b) else none

/-- The edges of a path: each qubit but the first with the one before it. -/
def pathEdges? (count : Nat) : Option (List (Nat × Nat)) :=
  (List.range' 1 (count - 1)).mapM fun i => do return (← sub? i 1, i)

/-- The edges of a ring: those of a path, and one from its last qubit. -/
def ringEdges? (count : Nat) : Option (List (Nat × Nat)) := do
  let edges ← pathEdges? count
  if 1 < count then return edges ++ [(← sub? count 1, 0)] else return edges

/-- The edges from a cell of a grid. -/
def cellEdges? (width height row col : Nat) : Option (List (Nat × Nat)) := do
  let q ← add? (← mul? row width) col
  let right ← if (← add? col 1) < width then (fun r => [(q, r)]) <$> add? q 1 else some []
  let down ← if (← add? row 1) < height then (fun r => [(q, r)]) <$> add? q width else some []
  return right ++ down

/-- The edges of a grid, row by row. -/
def gridEdges? (width height : Nat) : Option (List (Nat × Nat)) := do
  let rows ← (List.range height).mapM fun row =>
    List.flatten <$> (List.range width).mapM (cellEdges? width height row)
  return rows.flatten

/-- Qubits in a line; nothing if a word overflows. -/
def path (count : Nat) : Option (Except DeviceError Device) :=
  ofEdges count <$> pathEdges? count

/-- Qubits in a closed line; nothing if a word overflows. -/
def ring (count : Nat) : Option (Except DeviceError Device) :=
  ofEdges count <$> ringEdges? count

/-- Qubits in rows and columns; nothing if a word overflows. A grid of more cells than words can
count is too large like any other. -/
def grid (width height : Nat) : Option (Except DeviceError Device) :=
  match (mul? width height).filter (· ≤ maxQubits) with
  | none => some (.error (.gridTooLarge width height))
  | some count => ofEdges count <$> gridEdges? width height

/-! ## No operation leaves the words -/

theorem word?_of_lt {n : Nat} (h : n < Text.limit32) : word? n = some n := if_pos h

theorem sub?_of_le {a b : Nat} (h : b ≤ a) : sub? a b = some (a - b) := if_pos h

/-- Where each step gives a result, so do all of them. -/
theorem mapM_eq_map {α β : Type} {f : α → Option β} {g : α → β} {l : List α}
    (h : ∀ a ∈ l, f a = some (g a)) : l.mapM f = some (l.map g) :=
  mapM_eq_some_iff.mpr (List.forall₂_map_right_iff.mpr (List.forall₂_same.mpr h))

theorem pathEdges?_eq (count : Nat) : pathEdges? count = some (pathEdges count) := by
  have hstep : ∀ i ∈ List.range' 1 (count - 1),
      (do return (← sub? i 1, i) : Option (Nat × Nat)) = some (i - 1, i) := by
    intro i hi
    have hpos : 1 ≤ i := (List.mem_range'_1.mp hi).1
    rw [sub?_of_le hpos]
    rfl
  unfold pathEdges? pathEdges
  rw [mapM_eq_map hstep, List.range'_eq_map_range, List.map_map]
  congr 1
  refine List.map_congr_left fun i _ => ?_
  simp [Nat.add_comm]

theorem ringEdges?_eq (count : Nat) : ringEdges? count = some (ringEdges count) := by
  unfold ringEdges? ringEdges
  rw [pathEdges?_eq]
  by_cases h : 1 < count
  · simp [h, sub?_of_le (Nat.le_of_lt h)]
  · simp [h]

/-- The numbers that come up at a cell of a grid with few cells. -/
theorem cell_lt {width height row col : Nat} (hsize : width * height ≤ maxQubits)
    (hrow : row < height) (hcol : col < width) :
    row * width + col < width * height ∧ width ≤ maxQubits ∧ height ≤ maxQubits := by
  have hnext : (row + 1) * width ≤ height * width := Nat.mul_le_mul_right width hrow
  rw [Nat.succ_mul, Nat.mul_comm height] at hnext
  have hwidth : width ≤ width * height := Nat.le_mul_of_pos_right width (by omega)
  have hheight : height ≤ width * height := Nat.le_mul_of_pos_left height (by omega)
  omega

theorem cellEdges?_eq {width height row col : Nat} (hsize : width * height ≤ maxQubits)
    (hrow : row < height) (hcol : col < width) :
    cellEdges? width height row col = some (cellEdges width height row col) := by
  obtain ⟨hcell, hwidth, hheight⟩ := cell_lt hsize hrow hcol
  have hlimit : 2 * maxQubits < Text.limit32 := by decide
  have hrow' : word? (row * width) = some (row * width) := word?_of_lt (by omega)
  have hq : word? (row * width + col) = some (row * width + col) := word?_of_lt (by omega)
  have hcol' : word? (col + 1) = some (col + 1) := word?_of_lt (by omega)
  have hrow'' : word? (row + 1) = some (row + 1) := word?_of_lt (by omega)
  have hright : word? (row * width + col + 1) = some (row * width + col + 1) :=
    word?_of_lt (by omega)
  have hdown : word? (row * width + col + width) = some (row * width + col + width) :=
    word?_of_lt (by omega)
  simp only [cellEdges?, cellEdges, add?, mul?, hrow', hq, hcol', hrow'', hright, hdown, bind,
    Option.bind_some]
  split <;> split <;> rfl

theorem gridEdges?_eq {width height : Nat} (hsize : width * height ≤ maxQubits) :
    gridEdges? width height = some (gridEdges width height) := by
  have hrows : ∀ row ∈ List.range height,
      List.flatten <$> (List.range width).mapM (cellEdges? width height row) =
        some ((List.range width).flatMap (cellEdges width height row)) := by
    intro row hrow
    rw [mapM_eq_map fun col hcol =>
      cellEdges?_eq hsize (List.mem_range.mp hrow) (List.mem_range.mp hcol)]
    rfl
  unfold gridEdges?
  rw [mapM_eq_map hrows, gridEdges_eq]
  rfl

theorem path_eq (count : Nat) : path count = some (Device.path count) := by
  rw [path, pathEdges?_eq, path_eq_ofEdges]
  rfl

theorem ring_eq (count : Nat) : ring count = some (Device.ring count) := by
  rw [ring, ringEdges?_eq, ring_eq_ofEdges]
  rfl

/-- A grid is refused for its size before a cell is looked at, and else no word overflows. -/
theorem grid_eq (width height : Nat) : grid width height = some (Device.grid width height) := by
  have hlimit : maxQubits < Text.limit32 := by decide
  have hcount : (mul? width height).filter (· ≤ maxQubits) =
      if width * height ≤ maxQubits then some (width * height) else none := by
    unfold mul? word?
    by_cases hsize : width * height ≤ maxQubits
    · have hword : width * height < Text.limit32 := by omega
      simp [Option.filter, hsize, hword]
    · by_cases hword : width * height < Text.limit32 <;> simp [Option.filter, hsize, hword]
  unfold grid Device.grid
  rw [hcount]
  by_cases hsize : width * height ≤ maxQubits
  · rw [if_pos hsize, if_neg (Nat.not_lt.mpr hsize)]
    dsimp only
    rw [gridEdges?_eq hsize]
    rfl
  · rw [if_neg hsize, if_pos (Nat.lt_of_not_le hsize)]

end Words

end QubitMapper.Device
