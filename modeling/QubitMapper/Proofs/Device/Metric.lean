import Mathlib.Data.List.Sort
import QubitMapper.Device.Basic
import QubitMapper.Proofs.Device.Search

/-!
# Adjacency, connection and shortest paths

A device is an undirected graph without loops. Its precomputed searches answer questions about walks
in this graph: two qubits have a distance exactly when a walk joins them, and the stored path
between them is a simple path along edges.

## Main results

* `Device.mem_neighbors`: the neighbors of a qubit are the other ends of its edges.
* `Device.sortedLT_neighbors`: they are listed in ascending order, each once.
* `Device.isAdjacent_comm`, `Device.isAdjacent_ne`, `Device.isAdjacent_lt`.
* `Device.distance?_eq_some_iff`: the distance is the length of a shortest walk.
* `Device.distance?_isSome_iff`: there is a distance exactly between joined qubits.
* `Device.isConnected_iff`: every two qubits of a connected device have a distance.
* `Device.shortestPath?_spec`: a stored path is a simple path along edges.
-/

namespace QubitMapper

/-! ## Neighbors -/

private theorem count_neighborsIn_foldl (edges : List Edge) (q r : Nat) :
    ∀ table : Array (List Nat), (∀ e ∈ edges, e.1 < table.size ∧ e.2 < table.size ∧ e.1 ≠ e.2) →
      (neighborsIn (edges.foldl
        (fun table (a, b) => (table.modify a (b :: ·)).modify b (a :: ·)) table) q).count r =
        (neighborsIn table q).count r + edges.count (q, r) + edges.count (r, q) := by
  induction edges with
  | nil => simp
  | cons e rest ih =>
      obtain ⟨a, b⟩ := e
      intro table hlt
      obtain ⟨ha, hb, hne⟩ := hlt (a, b) (by simp)
      simp only at ha hb hne
      rw [List.foldl_cons, ih _ (fun e he => by simpa using hlt e (by simp [he]))]
      have hstep : (neighborsIn ((table.modify a (b :: ·)).modify b (a :: ·)) q).count r =
          (neighborsIn table q).count r + (if (a, b) = (q, r) then 1 else 0) +
            if (a, b) = (r, q) then 1 else 0 := by
        unfold neighborsIn
        rw [Array.getElem?_modify, Array.getElem?_modify]
        by_cases hqa : a = q
        · subst hqa
          have : ¬ b = a := fun h => hne h.symm
          simp [this, Array.getElem?_eq_getElem ha, List.count_cons]
        · by_cases hqb : b = q
          · subst hqb
            simp [hqa, Array.getElem?_eq_getElem hb, List.count_cons]
          · simp [hqa, hqb]
      rw [hstep, List.count_cons, List.count_cons]
      simp only [beq_iff_eq]
      omega

/-- The neighbors of a qubit in the table of some edges, put in order. -/
private theorem neighborsIn_adjacency (count : Nat) (edges : List Edge) (q : Nat) :
    neighborsIn (adjacency count edges) q = (neighborsIn (edges.foldl
      (fun table (a, b) => (table.modify a (b :: ·)).modify b (a :: ·))
        (Array.replicate count [])) q).mergeSort := by
  unfold neighborsIn adjacency
  rw [Array.getElem?_map]
  generalize (edges.foldl _ _ : Array (List Nat))[q]? = slot
  cases slot <;> simp

namespace Device

variable (d : Device)

/-- A qubit is as often a neighbor of another one as there are edges between the two. -/
theorem count_neighbors (q r : Nat) :
    (d.neighbors q).count r = d.edges.count (q, r) + d.edges.count (r, q) := by
  have hempty : neighborsIn (Array.replicate d.numQubits []) q = [] := by
    unfold neighborsIn
    rw [Array.getElem?_replicate]
    split <;> rfl
  unfold neighbors
  rw [d.neighborTable_eq, neighborsIn_adjacency, (List.mergeSort_perm _ _).count_eq,
    count_neighborsIn_foldl, hempty, List.count_nil, Nat.zero_add]
  intro e he
  have := d.proper.2 e he
  simp only [Array.size_replicate]
  omega

/-- The neighbors of a qubit are the other ends of its edges. -/
theorem mem_neighbors (q r : Nat) :
    r ∈ d.neighbors q ↔ (q, r) ∈ d.edges ∨ (r, q) ∈ d.edges := by
  rw [← List.count_pos_iff, count_neighbors, ← List.count_pos_iff, ← List.count_pos_iff]
  omega

/-- The neighbors of a qubit are listed in ascending order, each once. -/
theorem sortedLT_neighbors (q : Nat) : (d.neighbors q).SortedLT := by
  have hle : (d.neighbors q).SortedLE := by
    unfold neighbors
    rw [d.neighborTable_eq, neighborsIn_adjacency]
    exact List.sortedLE_mergeSort
  refine hle.sortedLT_of_nodup (List.nodup_iff_count_le_one.mpr fun r => ?_)
  rw [count_neighbors]
  -- an edge is listed from its lower qubit alone
  have hone : ∀ e, d.edges.count e ≤ 1 := List.nodup_iff_count_le_one.mp d.proper.1
  have hlow : ∀ a b, 0 < d.edges.count (a, b) → a < b := fun a b h =>
    (d.proper.2 _ (List.count_pos_iff.mp h)).1
  have h₁ := hone (q, r)
  have h₂ := hone (r, q)
  have h₃ := hlow q r
  have h₄ := hlow r q
  omega

theorem isAdjacent_iff (a b : Nat) :
    d.isAdjacent a b = true ↔ (a, b) ∈ d.edges ∨ (b, a) ∈ d.edges := by
  simp [isAdjacent, mem_neighbors]

/-- Edges have no direction. -/
theorem isAdjacent_comm (a b : Nat) : d.isAdjacent a b = d.isAdjacent b a := by
  rw [Bool.eq_iff_iff, isAdjacent_iff, isAdjacent_iff]
  exact or_comm

variable {d} {a b c : Nat}

/-- An edge joins qubits of the device. -/
theorem isAdjacent_lt (h : d.isAdjacent a b = true) : a < d.numQubits ∧ b < d.numQubits := by
  rcases (d.isAdjacent_iff a b).mp h with h | h <;> have := d.proper.2 _ h <;> simp only at this <;>
    omega

/-- There are no loops. -/
theorem isAdjacent_ne (h : d.isAdjacent a b = true) : a ≠ b := by
  rcases (d.isAdjacent_iff a b).mp h with h | h <;> have := d.proper.2 _ h <;> simp only at this <;>
    omega

/-! ## Joined qubits -/

/-- A walk of a number of hops along the edges of a device. -/
def Hops (d : Device) (a b k : Nat) : Prop := Walk (fun a b => d.isAdjacent a b = true) a b k

/-- Some walk along the edges joins two qubits. -/
def Joined (d : Device) (a b : Nat) : Prop := ∃ k, d.Hops a b k

theorem Joined.refl (d : Device) (a : Nat) : d.Joined a a := ⟨0, .stay⟩

theorem Joined.step (h : d.Joined a b) (hadj : d.isAdjacent b c = true) : d.Joined a c := by
  obtain ⟨k, hw⟩ := h
  exact ⟨k + 1, .go hw hadj⟩

theorem Joined.trans (hab : d.Joined a b) (hbc : d.Joined b c) : d.Joined a c := by
  obtain ⟨k, hw⟩ := hbc
  induction hw with
  | stay => exact hab
  | go _ hadj ih => exact ih.step hadj

theorem Joined.symm (h : d.Joined a b) : d.Joined b a := by
  obtain ⟨k, hw⟩ := h
  induction hw with
  | stay => exact .refl d a
  | go _ hadj ih => exact ((Joined.refl d _).step (by rw [isAdjacent_comm]; exact hadj)).trans ih

/-! ## Distances and paths -/

private theorem size_searches : d.searches.size = d.numQubits := by
  rw [d.searches_eq, searchAll, Array.size_map, Array.size_range, d.neighborTable_eq, adjacency,
    Array.size_map]
  have hfold : ∀ (edges : List Edge) (table : Array (List Nat)), (edges.foldl
      (fun table (a, b) => (table.modify a (b :: ·)).modify b (a :: ·)) table).size =
      table.size := by
    intro edges
    induction edges with
    | nil => intro table; rfl
    | cons e rest ih => intro table; rw [List.foldl_cons, ih]; simp
  rw [hfold, Array.size_replicate]

/-- The search from a qubit of the device, among its neighbors. -/
theorem search?_eq (ha : a < d.numQubits) :
    d.search? a = some (Search.run d.numQubits d.neighbors a) := by
  have hsize : d.neighborTable.size = d.numQubits := by
    have := d.size_searches
    rwa [d.searches_eq, searchAll, Array.size_map, Array.size_range] at this
  unfold search?
  rw [d.searches_eq, searchAll, hsize, Array.getElem?_map, Array.getElem?_eq_getElem (by simpa)]
  simp [Thunk.get]
  rfl

/-- It is the tree of the shortest hops. -/
theorem search?_spec (ha : a < d.numQubits) :
    ∃ s, d.search? a = some s ∧ Search.Tree d.neighbors d.numQubits a s :=
  ⟨_, search?_eq ha, Search.run_tree ha⟩

private theorem search?_eq_none (ha : d.numQubits ≤ a) : d.search? a = none := by
  unfold search?
  rw [Array.getElem?_eq_none (by rw [size_searches]; exact ha)]
  rfl

private theorem neighbors_lt (q : Nat) : ∀ r ∈ d.neighbors q, r < d.numQubits := by
  intro r hr
  have : d.isAdjacent q r = true := by simpa [isAdjacent] using hr
  exact (isAdjacent_lt this).2

private theorem hops_iff {k : Nat} :
    d.Hops a b k ↔ Walk (fun a b => b ∈ d.neighbors a) a b k := by
  simp [Hops, isAdjacent]

/-- The distance of two qubits of the device is the length of a shortest walk between them. -/
theorem distance?_eq_some_iff {k : Nat} :
    d.distance? a b = some k ↔
      a < d.numQubits ∧ d.Hops a b k ∧ ∀ k', d.Hops a b k' → k ≤ k' := by
  by_cases ha : a < d.numQubits
  · obtain ⟨s, hs, htree⟩ := search?_spec ha
    simp only [distance?, hs, Option.bind_some, Option.map_eq_some_iff, ha, true_and, hops_iff]
    constructor
    · rintro ⟨hop, hhop, rfl⟩
      refine ⟨htree.walk_of_hop hop.distance b hop.via hhop, ?_⟩
      intro k' hw
      obtain ⟨h, hh, hle⟩ := htree.hop_of_walk neighbors_lt hw
      rw [hhop] at hh
      cases hh
      exact hle
    · rintro ⟨hw, hmin⟩
      obtain ⟨h, hh, hle⟩ := htree.hop_of_walk neighbors_lt hw
      exact ⟨h, hh, Nat.le_antisymm hle (hmin _ (htree.walk_of_hop _ b h.via hh))⟩
  · simp [distance?, search?_eq_none (Nat.le_of_not_lt ha), ha]

/-- There is a distance exactly between joined qubits. -/
theorem distance?_isSome_iff (ha : a < d.numQubits) :
    (d.distance? a b).isSome ↔ d.Joined a b := by
  constructor
  · intro h
    obtain ⟨k, hk⟩ := Option.isSome_iff_exists.mp h
    exact ⟨k, (distance?_eq_some_iff.mp hk).2.1⟩
  · rintro ⟨k, hw⟩
    obtain ⟨s, hs, htree⟩ := search?_spec ha
    obtain ⟨h, hh, -⟩ := htree.hop_of_walk neighbors_lt (hops_iff.mp hw)
    simp [distance?, hs, hh]

/-- Two qubits that are not adjacent are two steps or more from each other. -/
theorem two_le_of_distance?_eq_some {k : Nat} (h : d.distance? a b = some k) (hne : a ≠ b)
    (hapart : d.isAdjacent a b = false) : 2 ≤ k := by
  obtain ⟨-, hw, -⟩ := distance?_eq_some_iff.mp h
  cases hw with
  | stay => exact absurd rfl hne
  | go hw hadj =>
      cases hw with
      | stay =>
          rw [hapart] at hadj
          cases hadj
      | go => exact Nat.le_add_left 2 _

/-- In a connected device every two qubits have a distance. -/
theorem isConnected_iff : d.isConnected = true ↔
    ∀ a b, a < d.numQubits → b < d.numQubits → (d.distance? a b).isSome := by
  unfold isConnected
  rw [List.all_eq_true]
  simp only [List.mem_range]
  constructor
  · intro h a b ha hb
    have hfrom := h a ha
    have hto := h b hb
    rw [distance?_isSome_iff d.pos] at hfrom hto
    exact (distance?_isSome_iff ha).mpr (hfrom.symm.trans hto)
  · exact fun h q hq => h 0 q d.pos hq

/-- A stored path runs between its two ends along edges and comes to no qubit twice. -/
theorem shortestPath?_spec {path : List Nat} (h : d.shortestPath? a b = some path) :
    path.head? = some a ∧ path.getLast? = some b ∧
      path.IsChain (fun a b => d.isAdjacent a b = true) ∧ path.Nodup ∧
      path.length ≤ d.numQubits := by
  by_cases ha : a < d.numQubits
  · obtain ⟨s, hs, htree⟩ := search?_spec ha
    simp only [shortestPath?, hs, Option.bind_some, Option.map_eq_some_iff] at h
    obtain ⟨hop, hhop, hpath⟩ := h
    obtain ⟨path', heq, hhead, hlast, hchain, hdist⟩ :=
      htree.pathTo_spec hop.distance b hop.via [] hhop
    rw [List.append_nil, hpath] at heq
    subst heq
    have hlen : path.length = hop.distance + 1 := by simpa using congrArg List.length hdist
    have hlt := htree.distance_lt hhop
    refine ⟨hhead, hlast, ?_, Search.nodup_of_distances hdist, by omega⟩
    simpa [isAdjacent] using hchain
  · simp [shortestPath?, search?_eq_none (Nat.le_of_not_lt ha)] at h

/-- There is a stored path wherever there is a distance. -/
theorem shortestPath?_isSome : (d.shortestPath? a b).isSome = (d.distance? a b).isSome := by
  unfold shortestPath? distance?
  cases d.search? a with
  | none => rfl
  | some s => simp

/-! ## A device to compute with -/

theorem adjacency_line : adjacency 3 [(0, 1), (1, 2)] = #[[1], [0, 2], [1]] := by
  simp [adjacency, List.mergeSort, Array.replicate]

/-- Three qubits in a line. -/
def line : Device where
  numQubits := 3
  edges := [(0, 1), (1, 2)]
  neighborTable := #[[1], [0, 2], [1]]
  searches := searchAll #[[1], [0, 2], [1]]
  pos := by decide
  le := by decide
  proper := by simp [Edge.Proper]
  neighborTable_eq := adjacency_line.symm
  searches_eq := rfl

end Device

end QubitMapper
