import QubitMapper.Device.Error
import QubitMapper.Device.Search

/-!
# Devices

A device is an undirected graph of physical qubits. Distances and shortest paths come from one
breadth-first search a qubit, made when it is first asked for.

## Main results

* `Device.ofEdges`: the checked construction from a list of edges.
-/

namespace QubitMapper

/-- An edge of a device, the lower qubit first. -/
abbrev Edge := Nat × Nat

namespace Edge

/-- The edge between two qubits. -/
def between (a b : Nat) : Edge := if a ≤ b then (a, b) else (b, a)

/-- The edges of a device on `count` qubits in the order in which they are first listed. Repeated
edges are dropped; edges to missing qubits and loops are errors. -/
def collect (count : Nat) (seen : List Edge) :
    List (Nat × Nat) → Except DeviceError (List Edge)
  | [] => .ok []
  | (a, b) :: rest =>
      if count ≤ a ∨ count ≤ b then .error (.edgeOutside a b count)
      else if a = b then .error (.selfLoop a)
      else
        let e := between a b
        if seen.contains e then collect count seen rest
        else (e :: ·) <$> collect count (e :: seen) rest

/-- Edges between distinct qubits of a device, the lower first, each once. -/
def Proper (count : Nat) (edges : List Edge) : Prop :=
  edges.Nodup ∧ ∀ e ∈ edges, e.1 < e.2 ∧ e.2 < count

private theorem collect_proper_aux {count : Nat} {listed : List (Nat × Nat)} :
    ∀ {seen edges : List Edge}, collect count seen listed = .ok edges →
      Proper count edges ∧ ∀ e ∈ edges, e ∉ seen := by
  induction listed with
  | nil =>
      intro seen edges h
      cases h
      simp [Proper]
  | cons p rest ih =>
      obtain ⟨a, b⟩ := p
      intro seen edges h
      simp only [collect] at h
      split at h
      · cases h
      split at h
      · cases h
      rename_i hrange hne
      split at h
      · exact ih h
      rename_i hseen
      cases hr : collect count (between a b :: seen) rest with
      | error e => simp [hr, Functor.map, Except.map] at h
      | ok tail =>
          simp only [hr, Functor.map, Except.map, Except.ok.injEq] at h
          subst h
          obtain ⟨⟨hnodup, hlt⟩, hnew⟩ := ih hr
          have hseen' : between a b ∉ seen := by simpa using hseen
          refine ⟨⟨?_, ?_⟩, ?_⟩
          · rw [List.nodup_cons]
            exact ⟨fun hm => hnew _ hm (by simp), hnodup⟩
          · intro e he
            rcases List.mem_cons.mp he with rfl | he
            · simp only [between]
              split <;> simp only <;> omega
            · exact hlt e he
          · intro e he
            rcases List.mem_cons.mp he with rfl | he
            · exact hseen'
            · exact fun hs => hnew e he (by simp [hs])

/-- Collected edges are proper. -/
theorem collect_proper {count : Nat} {listed : List (Nat × Nat)} {edges : List Edge}
    (h : collect count [] listed = .ok edges) : Proper count edges :=
  (collect_proper_aux h).1

end Edge

/-- The neighbors of each of `count` qubits, in ascending order. -/
def adjacency (count : Nat) (edges : List Edge) : Array (List Nat) :=
  (edges.foldl (fun table (a, b) => (table.modify a (b :: ·)).modify b (a :: ·))
    (Array.replicate count [])).map (·.mergeSort)

/-- The neighbors of a qubit in a table; none outside it. -/
def neighborsIn (table : Array (List Nat)) (q : Nat) :
    List Nat :=
  (table[q]?).getD []

/-- The searches from all qubits, each made when it is first looked at. -/
def searchAll (table : Array (List Nat)) : Array (Thunk Search) :=
  (Array.range table.size).map fun source =>
    Thunk.mk fun _ => Search.run table.size (neighborsIn table) source

/-- A device: its edges, and what is worked out from them. -/
structure Device where
  numQubits : Nat
  edges : List Edge
  neighborTable : Array (List Nat)
  searches : Array (Thunk Search)
  pos : 0 < numQubits
  le : numQubits ≤ maxQubits
  proper : Edge.Proper numQubits edges
  neighborTable_eq : neighborTable = adjacency numQubits edges
  searches_eq : searches = searchAll neighborTable

namespace Device

/-! ## Construction -/

/-- The number of qubits is one that a device can have. -/
def checkCount (count : Nat) : Except DeviceError Unit :=
  if count = 0 then .error .empty
  else if maxQubits < count then .error (.tooLarge count)
  else .ok ()

/-- The device with the listed edges. -/
def ofEdges (count : Nat) (listed : List (Nat × Nat)) : Except DeviceError Device :=
  if hpos : count = 0 then .error .empty
  else if hle : maxQubits < count then .error (.tooLarge count)
  else
    match h : Edge.collect count [] listed with
    | .error e => .error e
    | .ok edges =>
        .ok {
          numQubits := count
          edges
          neighborTable := adjacency count edges
          searches := searchAll (adjacency count edges)
          pos := Nat.pos_of_ne_zero hpos
          le := Nat.le_of_not_lt hle
          proper := Edge.collect_proper h
          neighborTable_eq := rfl
          searches_eq := rfl }

/-! ## Looking things up -/

/-- The neighbors of a qubit, in ascending order; none outside the device. -/
def neighbors (d : Device) (q : Nat) : List Nat :=
  neighborsIn d.neighborTable q

/-- Whether two qubits share an edge. -/
def isAdjacent (d : Device) (a b : Nat) : Bool := (d.neighbors a).contains b

/-- The search from a qubit. -/
def search? (d : Device) (source : Nat) : Option Search :=
  d.searches[source]?.map Thunk.get

/-- The number of hops between two qubits of the device, if they are connected. -/
def distance? (d : Device) (a b : Nat) : Option Nat :=
  (d.search? a).bind fun s => (s.hop? b).map (·.distance)

/-- A shortest path between two qubits, with both ends. -/
def shortestPath? (d : Device) (a b : Nat) : Option (List Nat) :=
  (d.search? a).bind fun s => (s.hop? b).map fun hop => s.pathTo hop.distance b []

/-- Whether every qubit can be reached from every other. By `isConnected_iff_card` this is the case
exactly if the graph of the device has one connected component. -/
def isConnected (d : Device) : Bool :=
  (List.range d.numQubits).all fun q => (d.distance? 0 q).isSome

end Device

end QubitMapper
