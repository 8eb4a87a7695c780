import Mathlib.Combinatorics.SimpleGraph.Connectivity.Connected
import Mathlib.SetTheory.Cardinal.Finite
import QubitMapper.Proofs.Device.Listed
import QubitMapper.Proofs.Device.Queue

/-!
# The graph of a device

The qubits of a device are the vertices of a graph, joined where they are adjacent. Distances are
the metric of this graph, a device is connected if the graph has one component, and for a device
built from a list of edges the graph is that of the list.

## Main results

* `Device.distance?_eq_some_iff_isLeast`: a distance is the length of a shortest walk.
* `Device.isConnected_iff_card`: a connected device has one component.
* `Device.ofEdges_graph_metric`: what a device built from listed edges answers.
-/

namespace QubitMapper

/-- The graph of some listed pairs of qubits; a pair has no direction. -/
def listedGraph (count : Nat) (listed : List (Nat × Nat)) : SimpleGraph (Fin count) :=
  SimpleGraph.fromRel fun a b => (a.val, b.val) ∈ listed

namespace Device

variable {d : Device}

/-- The graph in which the qubits of a device are joined. -/
def graph (d : Device) : SimpleGraph (Fin d.numQubits) where
  Adj a b := d.isAdjacent a b = true
  symm := ⟨fun a b h => by rwa [isAdjacent_comm]⟩
  loopless := ⟨fun _ h => isAdjacent_ne h rfl⟩

/-- The graph of a device that is built from a list of edges is that of the list. -/
theorem listedGraph_eq {listed : List (Nat × Nat)} (h : ofEdges d.numQubits listed = .ok d) :
    listedGraph d.numQubits listed = d.graph := by
  ext a b
  rw [listedGraph, SimpleGraph.fromRel_adj, ← isAdjacent_ofEdges h]
  constructor
  · exact fun ⟨_, hadj⟩ => hadj
  · exact fun hadj => ⟨fun heq => isAdjacent_ne hadj (congrArg Fin.val heq), hadj⟩

/-! ## Walks -/

theorem exists_walk_of_hops {a : Fin d.numQubits} {b k : Nat} (h : d.Hops a b k) :
    ∀ hb : b < d.numQubits, ∃ w : d.graph.Walk a ⟨b, hb⟩, w.length = k := by
  induction h with
  | stay => exact fun _ => ⟨.nil, rfl⟩
  | @go b c k _ hadj ih =>
      intro hc
      obtain ⟨w, hw⟩ := ih (isAdjacent_lt hadj).1
      have hlast : d.graph.Adj ⟨b, (isAdjacent_lt hadj).1⟩ ⟨c, hc⟩ := hadj
      exact ⟨w.concat hlast, by rw [SimpleGraph.Walk.length_concat, hw]⟩

theorem hops_of_walk {a b : Fin d.numQubits} (w : d.graph.Walk a b) : d.Hops a b w.length := by
  induction w using SimpleGraph.Walk.concatRec with
  | Hnil => exact .stay
  | Hconcat w hadj ih =>
      rw [SimpleGraph.Walk.length_concat]
      exact .go ih hadj

/-- Hops along the edges of a device are a walk in its graph. -/
theorem hops_iff_exists_walk {a b : Fin d.numQubits} {k : Nat} :
    d.Hops a b k ↔ ∃ w : d.graph.Walk a b, w.length = k := by
  constructor
  · exact fun h => exists_walk_of_hops h b.isLt
  · rintro ⟨w, rfl⟩
    exact hops_of_walk w

theorem joined_iff_reachable {a b : Fin d.numQubits} :
    d.Joined a b ↔ d.graph.Reachable a b := by
  simp only [Joined, hops_iff_exists_walk]
  exact ⟨fun ⟨_, w, _⟩ => ⟨w⟩, fun ⟨w⟩ => ⟨_, w, rfl⟩⟩

/-! ## Distances -/

/-- The distance of two qubits is the length of a shortest walk between them. -/
theorem distance?_eq_some_iff_isLeast {a b : Fin d.numQubits} {k : Nat} :
    d.distance? a b = some k ↔ IsLeast {n | ∃ w : d.graph.Walk a b, w.length = n} k := by
  simp only [distance?_eq_some_iff, hops_iff_exists_walk, a.isLt, true_and]
  rfl

/-- A distance is between two qubits of the device. -/
theorem lt_of_distance?_eq_some {a b k : Nat} (h : d.distance? a b = some k) :
    a < d.numQubits ∧ b < d.numQubits := by
  obtain ⟨ha, hw, -⟩ := distance?_eq_some_iff.mp h
  refine ⟨ha, ?_⟩
  cases hw with
  | stay => exact ha
  | go _ hadj => exact (isAdjacent_lt hadj).2

/-- There is no distance if there is no walk, or no such qubit. -/
theorem distance?_eq_none_iff {a b : Nat} : d.distance? a b = none ↔
    ∀ (ha : a < d.numQubits) (hb : b < d.numQubits), IsEmpty (d.graph.Walk ⟨a, ha⟩ ⟨b, hb⟩) := by
  rw [← Option.not_isSome_iff_eq_none]
  constructor
  · intro h ha hb
    rw [distance?_isSome_iff ha] at h
    exact ⟨fun w => h ⟨_, hops_of_walk w⟩⟩
  · intro h hsome
    obtain ⟨k, hk⟩ := Option.isSome_iff_exists.mp hsome
    obtain ⟨ha, hb⟩ := lt_of_distance?_eq_some hk
    obtain ⟨w, -⟩ := exists_walk_of_hops (a := ⟨a, ha⟩) (distance?_eq_some_iff.mp hk).2.1 hb
    exact (h ha hb).false w

/-- Adjacent qubits are those that are one hop apart. -/
theorem isAdjacent_iff_distance? {a b : Nat} :
    d.isAdjacent a b = true ↔ d.distance? a b = some 1 := by
  rw [distance?_eq_some_iff]
  constructor
  · intro hadj
    refine ⟨(isAdjacent_lt hadj).1, .go .stay hadj, fun k hw => ?_⟩
    cases hw with
    | stay => exact absurd rfl (isAdjacent_ne hadj)
    | go => omega
  · rintro ⟨-, hw, -⟩
    cases hw with
    | go hw hadj =>
        cases hw
        exact hadj

/-! ## Connection -/

/-- A connected device has one component. -/
theorem isConnected_iff_card :
    d.isConnected = true ↔ Nat.card d.graph.ConnectedComponent = 1 := by
  rw [isConnected_iff, Nat.card_eq_one_iff_unique]
  constructor
  · intro h
    refine ⟨⟨fun u v => ?_⟩, ⟨d.graph.connectedComponentMk ⟨0, d.pos⟩⟩⟩
    induction u, v using SimpleGraph.ConnectedComponent.ind₂ with
    | h a b =>
      have := (distance?_isSome_iff a.isLt).mp (h a b a.isLt b.isLt)
      exact SimpleGraph.ConnectedComponent.sound (joined_iff_reachable.mp this)
  · rintro ⟨hone, -⟩ a b ha hb
    have : d.graph.Reachable ⟨a, ha⟩ ⟨b, hb⟩ :=
      SimpleGraph.ConnectedComponent.exact (hone.allEq _ _)
    exact (distance?_isSome_iff ha).mpr (joined_iff_reachable.mpr this)

/-! ## Listed edges -/

/-- An edge of a device as a pair without direction. -/
theorem mem_edges_iff {a b : Nat} :
    s(a, b) ∈ d.edges.map (fun e => s(e.1, e.2)) ↔ d.isAdjacent a b = true := by
  rw [isAdjacent_iff, List.mem_map]
  constructor
  · rintro ⟨e, he, heq⟩
    rcases Sym2.eq_iff.mp heq with ⟨rfl, rfl⟩ | ⟨rfl, rfl⟩
    · exact .inl he
    · exact .inr he
  · rintro (he | he)
    · exact ⟨_, he, rfl⟩
    · exact ⟨_, he, Sym2.eq_swap⟩

/-- No edge is listed in both directions, nor twice in one. -/
theorem nodup_edges : (d.edges.map fun e => s(e.1, e.2)).Nodup := by
  refine (List.nodup_map_iff_inj_on d.proper.1).mpr fun e he f hf heq => ?_
  have hle := (d.proper.2 e he).1
  have hlf := (d.proper.2 f hf).1
  rcases Sym2.eq_iff.mp heq with ⟨h₁, h₂⟩ | ⟨h₁, h₂⟩
  · exact Prod.ext h₁ h₂
  · omega

/-- What a device built from listed edges answers about their graph. A distance is the length of a
shortest walk, and there is none where there is no walk or no qubit. Adjacent qubits are the listed
pairs, and those at distance one. Neighbors are in ascending order and mutual. Each edge is kept
once. The device is connected if every two qubits have a distance, that is, if the graph has one
component. Halving the neighbors of a qubit finds the adjacent ones, and a queue fills in the
distances. -/
theorem ofEdges_graph_metric (count : Nat) (listed : List (Nat × Nat)) (d : Device)
    (h : ofEdges count listed = .ok d) :
    let G := listedGraph count listed
    (0 < count ∧ count ≤ maxQubits ∧ d.numQubits = count) ∧
    (∀ (a b : Fin count) (k : Nat), d.distance? a b = some k ↔
      IsLeast {n | ∃ w : G.Walk a b, w.length = n} k) ∧
    (∀ a b : Nat, d.distance? a b = none ↔
      ∀ (ha : a < count) (hb : b < count), IsEmpty (G.Walk ⟨a, ha⟩ ⟨b, hb⟩)) ∧
    (∀ a b : Nat, (d.isAdjacent a b = true ↔ (a, b) ∈ listed ∨ (b, a) ∈ listed) ∧
      (d.isAdjacent a b = true ↔ d.distance? a b = some 1)) ∧
    (∀ a : Nat, (d.neighbors a).SortedLT ∧
      ∀ b, (b ∈ d.neighbors a ↔ d.isAdjacent a b = true) ∧
        (b ∈ d.neighbors a ↔ a ∈ d.neighbors b)) ∧
    (d.edges.map fun e => s(e.1, e.2)).Nodup ∧
    (∀ a b : Nat, s(a, b) ∈ d.edges.map (fun e => s(e.1, e.2)) ↔
      (a, b) ∈ listed ∨ (b, a) ∈ listed) ∧
    (d.isConnected = true ↔ ∀ a b, a < count → b < count → (d.distance? a b).isSome) ∧
    (d.isConnected = true ↔ Nat.card G.ConnectedComponent = 1) ∧
    (∀ a b : Nat, d.isAdjacent a b = bisect (d.neighbors a) b 0 (d.neighbors a).length) ∧
    ∀ a < count, ∃ rows, Search.Rows.fill d.neighbors count a = some rows ∧
      ∀ b, d.distance? a b = (rows.distance[b]?).join := by
  obtain rfl : d.numQubits = count := numQubits_ofEdges h
  intro G
  have hG : G = d.graph := listedGraph_eq h
  have hmem : ∀ a b, b ∈ d.neighbors a ↔ d.isAdjacent a b = true := by
    intro a b
    rw [isAdjacent_iff, mem_neighbors]
  rw [hG]
  refine ⟨⟨d.pos, d.le, rfl⟩, fun a b k => distance?_eq_some_iff_isLeast,
    fun a b => distance?_eq_none_iff, fun a b => ⟨isAdjacent_ofEdges h, isAdjacent_iff_distance?⟩,
    fun a => ⟨d.sortedLT_neighbors a, fun b => ⟨hmem a b, ?_⟩⟩, nodup_edges, fun a b => ?_,
    isConnected_iff, isConnected_iff_card, fun _ _ => isAdjacent_eq_bisect,
    fun _ => exists_rows⟩
  · rw [hmem, hmem, isAdjacent_comm]
  · rw [mem_edges_iff, isAdjacent_ofEdges h]

/-- One edge, listed in both directions. -/
def bothWays : List (Nat × Nat) := [(1, 0), (0, 1)]

/-- The edge that is listed in both directions joins two of three qubits and leaves the third alone.
-/
theorem ofEdges_graph_metric_bothWays :
    ∃ d, ofEdges 3 bothWays = .ok d ∧ d.edges = [(0, 1)] ∧
      IsLeast {n | ∃ w : (listedGraph 3 bothWays).Walk 0 1, w.length = n} 1 ∧
      IsEmpty ((listedGraph 3 bothWays).Walk 0 2) ∧
      Nat.card (listedGraph 3 bothWays).ConnectedComponent ≠ 1 := by
  have hcomputed : (do
      let d ← (ofEdges 3 bothWays).toOption
      return (d.edges, d.distance? 0 1, d.distance? 0 2, d.isConnected)) =
        some ([(0, 1)], some 1, none, false) := by
    decide +kernel
  simp only [bind, pure, Option.bind_eq_some_iff, Except.toOption_eq_some, Option.some.injEq,
    Prod.mk.injEq] at hcomputed
  obtain ⟨d, hd, hedges, hnear, hfar, hconnected⟩ := hcomputed
  obtain ⟨-, hdistance, hnone, -, -, -, -, -, hcard, -⟩ := ofEdges_graph_metric 3 bothWays d hd
  refine ⟨d, hd, hedges, (hdistance 0 1 1).mp hnear, (hnone 0 2).mp hfar (by decide) (by decide), ?_⟩
  rw [Ne, ← hcard, hconnected]
  exact Bool.false_ne_true

end Device

end QubitMapper
