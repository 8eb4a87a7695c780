import Mathlib.Data.Nat.Dist
import QubitMapper.Proofs.Device.Listed
import QubitMapper.Proofs.Device.Words

/-!
# Distances on common devices

The distance from a qubit is known once there is a guess that is zero there, grows by at most one
along an edge, and falls along some edge from every other qubit. The closed forms for paths, rings,
stars and grids are such guesses.

## Main results

* `Device.Gauge.distance?_eq`: a guess like this is the distance.
* `Device.distance?_path`, `Device.distance?_ring`, `Device.distance?_star`,
  `Device.distance?_grid`: the distances on common devices.
* `Device.topologies_metric`: when there are such devices, and what their distances are.
-/

namespace QubitMapper.Device

variable {d : Device} {a b q r : Nat}

/-! ## Guessing distances -/

/-- A guess for the distances from a qubit: it is zero there, at most one more at a neighbor, and
from every other qubit some neighbor is nearer. -/
structure Gauge (d : Device) (a : Nat) (f : Nat → Nat) : Prop where
  source : f a = 0
  step : ∀ q r, d.isAdjacent q r = true → f r ≤ f q + 1
  nearer : ∀ r < d.numQubits, r ≠ a → ∃ q, d.isAdjacent q r = true ∧ f q < f r

namespace Gauge

variable {f : Nat → Nat}

/-- No walk is shorter than the guess. -/
theorem le_of_hops (hf : d.Gauge a f) {k : Nat} (h : d.Hops a b k) : f b ≤ k := by
  induction h with
  | stay => exact Nat.le_of_eq hf.source
  | go _ hadj ih =>
      have := hf.step _ _ hadj
      omega

/-- There is a walk as long as the guess. -/
theorem hops (hf : d.Gauge a f) : ∀ k, ∀ r < d.numQubits, f r = k → d.Hops a r k := by
  intro k
  induction k with
  | zero =>
      intro r hr hzero
      by_cases hsource : r = a
      · rw [hsource]
        exact .stay
      · obtain ⟨q, -, hlt⟩ := hf.nearer r hr hsource
        omega
  | succ k ih =>
      intro r hr hsucc
      have hne : r ≠ a := by
        rintro rfl
        have := hf.source
        omega
      obtain ⟨q, hadj, hlt⟩ := hf.nearer r hr hne
      have hstep := hf.step q r hadj
      exact .go (ih q (isAdjacent_lt hadj).1 (by omega)) hadj

/-- The guess is the distance. -/
theorem distance?_eq (hf : d.Gauge a f) (ha : a < d.numQubits) (hb : b < d.numQubits) :
    d.distance? a b = some (f b) :=
  distance?_eq_some_iff.mpr ⟨ha, hf.hops _ b hb rfl, fun _ h => hf.le_of_hops h⟩

end Gauge

/-- A device on which all distances are known is connected. -/
theorem isConnected_of_distances {f : Nat → Nat → Nat} (h : ∀ a b, a < d.numQubits →
    b < d.numQubits → d.distance? a b = some (f a b)) : d.isConnected = true :=
  isConnected_iff.mpr fun a b ha hb => by rw [h a b ha hb]; rfl

/-! ## Paths -/

variable {count : Nat}

theorem mem_pathEdges : (q, r) ∈ pathEdges count ↔ q + 1 = r ∧ r < count := by
  simp only [pathEdges, List.mem_map, List.mem_range, Prod.mk.injEq]
  constructor
  · rintro ⟨i, hi, rfl, rfl⟩
    omega
  · rintro ⟨rfl, hr⟩
    exact ⟨q, by omega, rfl, rfl⟩

theorem exists_path_eq_ok_iff : (∃ d, path count = .ok d) ↔ 0 < count ∧ count ≤ maxQubits := by
  rw [path_eq_ofEdges, exists_ofEdges_eq_ok_iff]
  refine and_congr_right fun _ => and_iff_left fun ⟨q, r⟩ hp => ?_
  obtain ⟨hnext, hr⟩ := mem_pathEdges.mp hp
  dsimp only
  omega

theorem isAdjacent_path (h : path count = .ok d) :
    d.isAdjacent q r = true ↔ (q + 1 = r ∧ r < count) ∨ (r + 1 = q ∧ q < count) := by
  rw [path_eq_ofEdges] at h
  rw [isAdjacent_ofEdges h, mem_pathEdges, mem_pathEdges]

theorem gauge_path (h : path count = .ok d) (ha : a < count) : d.Gauge a (Nat.dist a) := by
  have hn : d.numQubits = count := numQubits_ofEdges (path_eq_ofEdges count ▸ h)
  refine ⟨Nat.dist_self a, fun q r hadj => ?_, fun r hr hne => ?_⟩
  · rw [isAdjacent_path h] at hadj
    unfold Nat.dist
    omega
  · simp only [isAdjacent_path h, Nat.dist]
    rcases Nat.lt_or_gt_of_ne hne with hlt | hgt
    · exact ⟨r + 1, by omega, by omega⟩
    · exact ⟨r - 1, by omega, by omega⟩

/-- On a path the distance is the difference. -/
theorem distance?_path (h : path count = .ok d) (ha : a < count) (hb : b < count) :
    d.distance? a b = some (Nat.dist a b) := by
  have hn : d.numQubits = count := numQubits_ofEdges (path_eq_ofEdges count ▸ h)
  exact (gauge_path h ha).distance?_eq (by omega) (by omega)

/-! ## Rings -/

theorem mem_ringEdges : (q, r) ∈ ringEdges count ↔
    (q + 1 = r ∧ r < count) ∨ (1 < count ∧ q + 1 = count ∧ r = 0) := by
  rw [ringEdges, List.mem_append, mem_pathEdges]
  refine or_congr_right ?_
  split
  · simp only [List.mem_singleton, Prod.mk.injEq]
    omega
  · simp only [List.not_mem_nil, false_iff]
    omega

theorem exists_ring_eq_ok_iff : (∃ d, ring count = .ok d) ↔ 0 < count ∧ count ≤ maxQubits := by
  rw [ring_eq_ofEdges, exists_ofEdges_eq_ok_iff]
  refine and_congr_right fun _ => and_iff_left fun ⟨q, r⟩ hp => ?_
  have := mem_ringEdges.mp hp
  dsimp only
  omega

theorem isAdjacent_ring (h : ring count = .ok d) : d.isAdjacent q r = true ↔
    ((q + 1 = r ∧ r < count) ∨ (1 < count ∧ q + 1 = count ∧ r = 0)) ∨
      ((r + 1 = q ∧ q < count) ∨ (1 < count ∧ r + 1 = count ∧ q = 0)) := by
  rw [ring_eq_ofEdges] at h
  rw [isAdjacent_ofEdges h, mem_ringEdges, mem_ringEdges]

/-- The shorter way round a ring. -/
def arc (count a b : Nat) : Nat := min (Nat.dist a b) (count - Nat.dist a b)

theorem gauge_ring (h : ring count = .ok d) (ha : a < count) : d.Gauge a (arc count a) := by
  have hn : d.numQubits = count := numQubits_ofEdges (ring_eq_ofEdges count ▸ h)
  refine ⟨by simp [arc, Nat.dist_self], fun q r hadj => ?_, fun r hr hne => ?_⟩
  · rw [isAdjacent_ring h] at hadj
    unfold arc Nat.dist
    omega
  · simp only [isAdjacent_ring h, arc, Nat.dist]
    -- towards the source if it is at most half the ring away, and else away from it
    rcases Nat.lt_or_gt_of_ne hne with hlt | hgt
    · by_cases hhalf : 2 * (a - r) ≤ count
      · exact ⟨r + 1, by omega, by omega⟩
      · by_cases hzero : r = 0
        · exact ⟨count - 1, by omega, by omega⟩
        · exact ⟨r - 1, by omega, by omega⟩
    · by_cases hhalf : 2 * (r - a) ≤ count
      · exact ⟨r - 1, by omega, by omega⟩
      · by_cases hlast : r + 1 = count
        · exact ⟨0, by omega, by omega⟩
        · exact ⟨r + 1, by omega, by omega⟩

/-- On a ring the distance is the shorter of the two ways round. -/
theorem distance?_ring (h : ring count = .ok d) (ha : a < count) (hb : b < count) :
    d.distance? a b = some (arc count a b) := by
  have hn : d.numQubits = count := numQubits_ofEdges (ring_eq_ofEdges count ▸ h)
  exact (gauge_ring h ha).distance?_eq (by omega) (by omega)

/-! ## Stars -/

variable {centre : Nat}

theorem mem_starEdges : (q, r) ∈ starEdges count centre ↔ q = centre ∧ r < count ∧ r ≠ centre := by
  simp only [starEdges, List.mem_map, List.mem_filter, List.mem_range, bne_iff_ne, Prod.mk.injEq]
  constructor
  · rintro ⟨i, ⟨hi, hne⟩, rfl, rfl⟩
    exact ⟨rfl, hi, hne⟩
  · rintro ⟨rfl, hr, hne⟩
    exact ⟨r, ⟨hr, hne⟩, rfl, rfl⟩

/-- A star that is built has its centre among its qubits. -/
theorem ofEdges_of_star (h : star count centre = .ok d) :
    centre < count ∧ ofEdges count (starEdges count centre) = .ok d := by
  by_cases houtside : 0 < count ∧ count ≤ centre
  · rw [star, if_pos houtside] at h
    cases h
  · rw [star_eq_ofEdges houtside] at h
    obtain ⟨hpos, -⟩ := exists_ofEdges_eq_ok_iff.mp ⟨d, h⟩
    exact ⟨by omega, h⟩

theorem exists_star_eq_ok_iff : (∃ d, star count centre = .ok d) ↔
    centre < count ∧ count ≤ maxQubits := by
  have hproper : centre < count → Edge.AllProper count (starEdges count centre) := by
    rintro hcentre ⟨q, r⟩ hp
    obtain ⟨rfl, hr, hne⟩ := mem_starEdges.mp hp
    exact ⟨hcentre, hr, Ne.symm hne⟩
  constructor
  · rintro ⟨d, h⟩
    obtain ⟨hcentre, h⟩ := ofEdges_of_star h
    exact ⟨hcentre, (exists_ofEdges_eq_ok_iff.mp ⟨d, h⟩).2.1⟩
  · rintro ⟨hcentre, hle⟩
    rw [star_eq_ofEdges (by omega), exists_ofEdges_eq_ok_iff]
    exact ⟨by omega, hle, hproper hcentre⟩

theorem isAdjacent_star (h : star count centre = .ok d) : d.isAdjacent q r = true ↔
    (q = centre ∧ r < count ∧ r ≠ centre) ∨ (r = centre ∧ q < count ∧ q ≠ centre) := by
  rw [isAdjacent_ofEdges (ofEdges_of_star h).2, mem_starEdges, mem_starEdges]

/-- The number of edges between two qubits of a star. -/
def spokes (centre a b : Nat) : Nat :=
  if a = b then 0 else if a = centre ∨ b = centre then 1 else 2

theorem gauge_star (h : star count centre = .ok d) (ha : a < count) :
    d.Gauge a (spokes centre a) := by
  obtain ⟨hcentre, hedges⟩ := ofEdges_of_star h
  have hn : d.numQubits = count := numQubits_ofEdges hedges
  refine ⟨if_pos rfl, fun q r hadj => ?_, fun r hr hne => ?_⟩
  · rw [isAdjacent_star h] at hadj
    unfold spokes
    grind
  · simp only [isAdjacent_star h]
    by_cases hends : a = centre ∨ r = centre
    · refine ⟨a, by omega, ?_⟩
      simp [spokes, Ne.symm hne, hends]
    · rw [not_or] at hends
      refine ⟨centre, by omega, ?_⟩
      simp [spokes, Ne.symm hne, hends]

/-- On a star the distance goes through the centre, unless one of the qubits is there. -/
theorem distance?_star (h : star count centre = .ok d) (ha : a < count) (hb : b < count) :
    d.distance? a b = some (spokes centre a b) := by
  have hn : d.numQubits = count := numQubits_ofEdges (ofEdges_of_star h).2
  exact (gauge_star h ha).distance?_eq (by omega) (by omega)

/-! ## Grids -/

variable {width height : Nat}

/-- The row of a qubit of a grid. -/
theorem row_lt (hq : q < width * height) : q / width < height ∧ q % width < width := by
  have hwidth : 0 < width := Nat.pos_of_mul_pos_right (Nat.zero_lt_of_lt hq)
  exact ⟨Nat.div_lt_of_lt_mul hq, Nat.mod_lt q hwidth⟩

theorem lt_of_row (hwidth : 0 < width) (hrow : q / width < height) : q < width * height := by
  rw [Nat.mul_comm]
  exact (Nat.div_lt_iff_lt_mul hwidth).mp hrow

/-- There is a qubit in every cell. -/
theorem exists_cell {row col : Nat} (hrow : row < height) (hcol : col < width) :
    ∃ q < width * height, q / width = row ∧ q % width = col := by
  have hcell := cell_div_mod row hcol
  exact ⟨row * width + col, lt_of_row (Nat.zero_lt_of_lt hcol) (by omega), hcell⟩

/-- Qubits of a grid in the same cell are the same. -/
theorem eq_of_cell (hrow : q / width = r / width) (hcol : q % width = r % width) : q = r := by
  rw [← Nat.div_add_mod q width, ← Nat.div_add_mod r width, hrow, hcol]

/-- The cell to the right. -/
theorem cell_right (h : q % width + 1 < width) :
    (q + 1) / width = q / width ∧ (q + 1) % width = q % width + 1 := by
  have hdivmod := Nat.div_add_mod q width
  exact (Nat.div_mod_unique (Nat.zero_lt_of_lt h)).mpr ⟨by omega, h⟩

/-- The cell below. -/
theorem cell_below (hwidth : 0 < width) :
    (q + width) / width = q / width + 1 ∧ (q + width) % width = q % width :=
  ⟨Nat.add_div_right q hwidth, Nat.add_mod_right q width⟩

/-- The edges of a grid go to the right and down. -/
theorem mem_gridEdges : (q, r) ∈ gridEdges width height ↔
    q < width * height ∧ r < width * height ∧
      ((q / width = r / width ∧ q % width + 1 = r % width) ∨
        (q % width = r % width ∧ q / width + 1 = r / width)) := by
  have hstep : (q, r) ∈ gridEdges width height ↔ q < width * height ∧
      ((q % width + 1 < width ∧ r = q + 1) ∨ (q / width + 1 < height ∧ r = q + width)) := by
    simp only [gridEdges, List.mem_flatMap, List.mem_range, List.mem_append,
      List.mem_ite_nil_right, List.mem_singleton, Prod.mk.injEq]
    constructor
    · rintro ⟨i, hi, ⟨hright, rfl, rfl⟩ | ⟨hbelow, rfl, rfl⟩⟩
      · exact ⟨hi, .inl ⟨hright, rfl⟩⟩
      · exact ⟨hi, .inr ⟨hbelow, rfl⟩⟩
    · rintro ⟨hq, ⟨hright, rfl⟩ | ⟨hbelow, rfl⟩⟩
      · exact ⟨q, hq, .inl ⟨hright, rfl, rfl⟩⟩
      · exact ⟨q, hq, .inr ⟨hbelow, rfl, rfl⟩⟩
  rw [hstep]
  refine and_congr_right fun hq => ?_
  obtain ⟨hrow, hcol⟩ := row_lt hq
  have hwidth : 0 < width := Nat.zero_lt_of_lt hcol
  constructor
  · rintro (⟨hright, rfl⟩ | ⟨hbelow, rfl⟩)
    · obtain ⟨hdiv, hmod⟩ := cell_right hright
      exact ⟨lt_of_row hwidth (by omega), .inl ⟨hdiv.symm, hmod.symm⟩⟩
    · obtain ⟨hdiv, hmod⟩ := cell_below (q := q) hwidth
      exact ⟨lt_of_row hwidth (by omega), .inr ⟨hmod.symm, hdiv.symm⟩⟩
  · rintro ⟨hr, ⟨hrows, hcols⟩ | ⟨hcols, hrows⟩⟩
    · obtain ⟨-, hlast⟩ := row_lt hr
      have hright : q % width + 1 < width := by omega
      obtain ⟨hdiv, hmod⟩ := cell_right hright
      exact .inl ⟨hright, eq_of_cell (hrows.symm.trans hdiv.symm) (hcols.symm.trans hmod.symm)⟩
    · obtain ⟨hlast, -⟩ := row_lt hr
      obtain ⟨hdiv, hmod⟩ := cell_below (q := q) hwidth
      exact .inr ⟨by omega, eq_of_cell (hrows.symm.trans hdiv.symm) (hcols.symm.trans hmod.symm)⟩

theorem ofEdges_of_grid (h : grid width height = .ok d) :
    ofEdges (width * height) (gridEdges width height) = .ok d := by
  unfold grid at h
  split at h
  · cases h
  · exact h

theorem exists_grid_eq_ok_iff : (∃ d, grid width height = .ok d) ↔
    0 < width * height ∧ width * height ≤ maxQubits := by
  have hproper : Edge.AllProper (width * height) (gridEdges width height) := by
    rintro ⟨q, r⟩ hp
    obtain ⟨hq, hr, hcells⟩ := mem_gridEdges.mp hp
    refine ⟨hq, hr, fun heq => ?_⟩
    simp only at heq
    rw [heq] at hcells
    omega
  constructor
  · rintro ⟨d, h⟩
    obtain ⟨hpos, hle, -⟩ := exists_ofEdges_eq_ok_iff.mp ⟨d, ofEdges_of_grid h⟩
    exact ⟨hpos, hle⟩
  · rintro ⟨hpos, hle⟩
    unfold grid
    rw [if_neg (Nat.not_lt.mpr hle)]
    exact exists_ofEdges_eq_ok_iff.mpr ⟨hpos, hle, hproper⟩

theorem isAdjacent_grid (h : grid width height = .ok d) : d.isAdjacent q r = true ↔
    q < width * height ∧ r < width * height ∧
      ((q / width = r / width ∧
          (q % width + 1 = r % width ∨ r % width + 1 = q % width)) ∨
        (q % width = r % width ∧
          (q / width + 1 = r / width ∨ r / width + 1 = q / width))) := by
  rw [isAdjacent_ofEdges (ofEdges_of_grid h), mem_gridEdges, mem_gridEdges]
  omega

/-- The rows and the columns between two qubits of a grid. -/
def blocks (width a b : Nat) : Nat :=
  Nat.dist (a / width) (b / width) + Nat.dist (a % width) (b % width)

/-- Some cell beside a cell is nearer to another one: a step within the row if the row is the same,
and else a step within the column. -/
theorem exists_nearer_cell {row col row' col' : Nat} (hrow : row < height) (hcol : col < width)
    (hrow' : row' < height) (hcol' : col' < width) (hne : ¬ (row = row' ∧ col = col')) :
    ∃ row₁ < height, ∃ col₁ < width,
      ((row₁ = row ∧ (col₁ + 1 = col ∨ col + 1 = col₁)) ∨
        (col₁ = col ∧ (row₁ + 1 = row ∨ row + 1 = row₁))) ∧
      Nat.dist row' row₁ + Nat.dist col' col₁ < Nat.dist row' row + Nat.dist col' col := by
  unfold Nat.dist
  by_cases hrows : row = row'
  · have hcols : col ≠ col' := fun hcols => hne ⟨hrows, hcols⟩
    rcases Nat.lt_or_gt_of_ne hcols with hlt | hgt
    · exact ⟨row, hrow, col + 1, by omega, by omega, by omega⟩
    · exact ⟨row, hrow, col - 1, by omega, by omega, by omega⟩
  · rcases Nat.lt_or_gt_of_ne hrows with hlt | hgt
    · exact ⟨row + 1, by omega, col, hcol, by omega, by omega⟩
    · exact ⟨row - 1, by omega, col, hcol, by omega, by omega⟩

theorem gauge_grid (h : grid width height = .ok d) (ha : a < width * height) :
    d.Gauge a (blocks width a) := by
  have hn : d.numQubits = width * height := numQubits_ofEdges (ofEdges_of_grid h)
  refine ⟨by simp [blocks, Nat.dist_self], fun q r hadj => ?_, fun r hr hne => ?_⟩
  · rw [isAdjacent_grid h] at hadj
    unfold blocks Nat.dist
    omega
  · rw [hn] at hr
    obtain ⟨hrow, hcol⟩ := row_lt hr
    obtain ⟨hrow', hcol'⟩ := row_lt ha
    obtain ⟨row₁, hrow₁, col₁, hcol₁, hbeside, hnearer⟩ :=
      exists_nearer_cell hrow hcol hrow' hcol' fun ⟨hrows, hcols⟩ => hne (eq_of_cell hrows hcols)
    obtain ⟨q, hq, rfl, rfl⟩ := exists_cell hrow₁ hcol₁
    exact ⟨q, (isAdjacent_grid h).mpr ⟨hq, hr, hbeside⟩, hnearer⟩

/-- On a grid the distance counts rows and columns. -/
theorem distance?_grid (h : grid width height = .ok d) (ha : a < width * height)
    (hb : b < width * height) : d.distance? a b = some (blocks width a b) := by
  have hn : d.numQubits = width * height := numQubits_ofEdges (ofEdges_of_grid h)
  exact (gauge_grid h ha).distance?_eq (by omega) (by omega)

/-! ## All of them -/

/-- The common devices: the sizes for which there are such devices, and their distances. A path has
the difference of two qubits, a ring the shorter way round, a star nothing, one edge or two, a grid
the rows and columns between two cells. So they are all connected. No sum, product or difference of
32-bit words overflows on the way to a device or an error, whatever is asked for. -/
theorem topologies_metric :
    (∀ n, ((∃ d, path n = .ok d) ↔ 0 < n ∧ n ≤ maxQubits) ∧ ∀ d, path n = .ok d →
      d.isConnected = true ∧ ∀ i j, i < n → j < n → d.distance? i j = some (Nat.dist i j)) ∧
    (∀ n, ((∃ d, ring n = .ok d) ↔ 0 < n ∧ n ≤ maxQubits) ∧ ∀ d, ring n = .ok d →
      d.isConnected = true ∧ ∀ i j, i < n → j < n →
        d.distance? i j = some (min (Nat.dist i j) (n - Nat.dist i j))) ∧
    (∀ n c, ((∃ d, star n c = .ok d) ↔ c < n ∧ n ≤ maxQubits) ∧ ∀ d, star n c = .ok d →
      d.isConnected = true ∧ ∀ i j, i < n → j < n →
        d.distance? i j = some (if i = j then 0 else if i = c ∨ j = c then 1 else 2)) ∧
    (∀ w h, ((∃ d, grid w h = .ok d) ↔ 0 < w * h ∧ w * h ≤ maxQubits) ∧ ∀ d, grid w h = .ok d →
      d.isConnected = true ∧ ∀ row col row' col', row < h → col < w → row' < h → col' < w →
        d.distance? (row * w + col) (row' * w + col') =
          some (Nat.dist row row' + Nat.dist col col')) ∧
    (∀ n, Words.path n = some (path n) ∧ Words.ring n = some (ring n)) ∧
    ∀ w h, Words.grid w h = some (grid w h) := by
  refine ⟨fun n => ⟨exists_path_eq_ok_iff, fun d hd => ?_⟩,
    fun n => ⟨exists_ring_eq_ok_iff, fun d hd => ?_⟩,
    fun n c => ⟨exists_star_eq_ok_iff, fun d hd => ?_⟩,
    fun w h => ⟨exists_grid_eq_ok_iff, fun d hd => ?_⟩,
    fun n => ⟨Words.path_eq n, Words.ring_eq n⟩, Words.grid_eq⟩
  · have hn : d.numQubits = n := numQubits_ofEdges (path_eq_ofEdges n ▸ hd)
    have hdistance : ∀ i j, i < n → j < n → d.distance? i j = some (Nat.dist i j) :=
      fun i j => distance?_path hd
    exact ⟨isConnected_of_distances (by rwa [hn]), hdistance⟩
  · have hn : d.numQubits = n := numQubits_ofEdges (ring_eq_ofEdges n ▸ hd)
    have hdistance : ∀ i j, i < n → j < n → d.distance? i j = some (arc n i j) :=
      fun i j => distance?_ring hd
    exact ⟨isConnected_of_distances (by rwa [hn]), hdistance⟩
  · have hn : d.numQubits = n := numQubits_ofEdges (ofEdges_of_star hd).2
    have hdistance : ∀ i j, i < n → j < n → d.distance? i j = some (spokes c i j) :=
      fun i j => distance?_star hd
    exact ⟨isConnected_of_distances (by rwa [hn]), hdistance⟩
  · have hn : d.numQubits = w * h := numQubits_ofEdges (ofEdges_of_grid hd)
    have hdistance : ∀ a b, a < w * h → b < w * h → d.distance? a b = some (blocks w a b) :=
      fun a b => distance?_grid hd
    refine ⟨isConnected_of_distances (by rwa [hn]), fun row col row' col' hrow hcol hrow' hcol' => ?_⟩
    obtain ⟨hdiv, hmod⟩ := cell_div_mod row hcol
    obtain ⟨hdiv', hmod'⟩ := cell_div_mod row' hcol'
    have hwidth : 0 < w := Nat.zero_lt_of_lt hcol
    rw [hdistance _ _ (lt_of_row hwidth (by omega)) (lt_of_row hwidth (by omega)), blocks, hdiv,
      hmod, hdiv', hmod']

/-- The way across a grid, round a ring of odd size and through the centre of a star. -/
theorem topologies_metric_small :
    (∃ d, grid 4 3 = .ok d ∧ d.isConnected = true ∧ d.distance? (0 * 4 + 3) (2 * 4 + 0) = some 5) ∧
    (∃ d, ring 7 = .ok d ∧ d.distance? 1 6 = some 2) ∧
    (∃ d, star 4 2 = .ok d ∧ d.distance? 0 3 = some 2 ∧ d.distance? 0 2 = some 1) := by
  obtain ⟨-, hring, hstar, hgrid, -⟩ := topologies_metric
  obtain ⟨d, hd⟩ := (hgrid 4 3).1.mpr (by decide)
  obtain ⟨d₁, hd₁⟩ := (hring 7).1.mpr (by decide)
  obtain ⟨d₂, hd₂⟩ := (hstar 4 2).1.mpr (by decide)
  obtain ⟨hconnected, hdistance⟩ := (hgrid 4 3).2 d hd
  obtain ⟨-, hdistance₁⟩ := (hring 7).2 d₁ hd₁
  obtain ⟨-, hdistance₂⟩ := (hstar 4 2).2 d₂ hd₂
  exact ⟨⟨d, hd, hconnected, hdistance 0 3 2 0 (by decide) (by decide) (by decide) (by decide)⟩,
    ⟨d₁, hd₁, hdistance₁ 1 6 (by decide) (by decide)⟩,
    ⟨d₂, hd₂, hdistance₂ 0 3 (by decide) (by decide), hdistance₂ 0 2 (by decide) (by decide)⟩⟩

end QubitMapper.Device
