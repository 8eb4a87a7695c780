import QubitMapper.Proofs.Device.Queue
import QubitMapper.Proofs.Device.Topology

/-!
# Shortest paths

The search from a source remembers for each qubit the one before it. Going back from a qubit, one
remembered qubit at a time, comes to the source after as many steps as the distance says, because
each step goes to a qubit that is one hop nearer. What is passed on the way is the stored path.

## Main results

* `Search.Rooted.retraced_pathTo`: a path read off the search is the way back, turned round.
* `Device.shortestPath?_retraces`: a stored path is a shortest one, and retraced to its end.
-/

namespace QubitMapper

/-- Going back from a qubit to a source, from each qubit to the one before it, ends at the source
and passes the qubits of a path, which is given in the order from the source. -/
inductive Retraced (before? : Nat → Option Nat) (source : Nat) : Nat → List Nat → Prop
  | stop : Retraced before? source source [source]
  | back {q p : Nat} {path : List Nat} : q ≠ source → before? q = some p →
      Retraced before? source p path → Retraced before? source q (path ++ [q])

/-- There is only one way back. -/
theorem Retraced.unique {before? : Nat → Option Nat} {source q : Nat} {path path' : List Nat}
    (h : Retraced before? source q path) (h' : Retraced before? source q path') : path = path' := by
  induction h generalizing path' with
  | stop =>
      cases h' with
      | stop => rfl
      | back hne => exact absurd rfl hne
  | back hne hbefore _ ih =>
      cases h' with
      | stop => exact absurd rfl hne
      | back _ hbefore' hpath' =>
          cases hbefore.symm.trans hbefore'
          rw [ih hpath']

/-- On the way back nothing is asked about the source. -/
theorem Retraced.congr {before? before?' : Nat → Option Nat} {source q : Nat} {path : List Nat}
    (h : Retraced before? source q path) (heq : ∀ r, r ≠ source → before? r = before?' r) :
    Retraced before?' source q path := by
  induction h with
  | stop => exact .stop
  | back hne hbefore _ ih => exact .back hne ((heq _ hne).symm.trans hbefore) ih

namespace Search

variable {neighbors : Nat → List Nat} {count source : Nat} {s : Search}

/-- The qubit before another one, if the search has found it. -/
def before? (s : Search) (q : Nat) : Option Nat := (s.hop? q).map (·.via)

/-- A path read off rooted hops is the way back to the source. -/
theorem Rooted.retraced_pathTo (hs : Rooted neighbors count source s) :
    ∀ (k q via : Nat) (rest : List Nat), s.hop? q = some ⟨k, via⟩ →
      ∃ path, s.pathTo k q rest = path ++ rest ∧ Retraced s.before? source q path ∧
        path.length = k + 1 := by
  intro k
  induction k with
  | zero =>
      intro q via rest hq
      obtain rfl := hs.zero q _ hq rfl
      exact ⟨[q], rfl, .stop, rfl⟩
  | succ k ih =>
      intro q via rest hq
      obtain ⟨-, before, hvia⟩ := hs.step q k via hq
      obtain ⟨path, heq, hback, hlength⟩ := ih via before (q :: rest) hvia
      -- the source itself is no hop away
      have hne : q ≠ source := by
        rintro rfl
        cases hq.symm.trans hs.root
      have hbefore : s.before? q = some via := by rw [before?, hq]; rfl
      refine ⟨path ++ [q], ?_, .back hne hbefore hback, by simp [hlength]⟩
      simp [pathTo, hq, heq]

end Search

namespace Device

/-- The qubit before another one on the way from a source. -/
def before? (d : Device) (source q : Nat) : Option Nat :=
  (d.search? source).bind fun s => s.before? q

/-- There is a stored path between two qubits exactly if they have a distance. It leads from the one
to the other along edges, comes to no qubit twice and is as short as their distance says. Going back
from its end, from each qubit to the one stored before it, stops at its start and has then passed
the qubits of the path and no others; the same holds of the row that a queue fills. -/
theorem shortestPath?_retraces (d : Device) (a b : Nat) :
    (d.shortestPath? a b = none ↔ d.distance? a b = none) ∧
    ∀ k, d.distance? a b = some k → ∃ path, d.shortestPath? a b = some path ∧
      path.head? = some a ∧ path.getLast? = some b ∧ path.length = k + 1 ∧ path.Nodup ∧
      path.IsChain (fun q r => d.isAdjacent q r = true) ∧
      (∀ path', Retraced (d.before? a) a b path' ↔ path' = path) ∧
      ∃ rows, Search.Rows.fill d.neighbors d.numQubits a = some rows ∧
        ∀ path', Retraced (fun q => (rows.before[q]?).join) a b path' ↔ path' = path := by
  refine ⟨?_, fun k hk => ?_⟩
  · rw [← Option.not_isSome_iff_eq_none, ← Option.not_isSome_iff_eq_none, shortestPath?_isSome]
  · have ha := (distance?_eq_some_iff.mp hk).1
    have hs := search?_eq ha
    have htree : Search.Tree d.neighbors d.numQubits a (Search.run d.numQubits d.neighbors a) :=
      Search.run_tree ha
    obtain ⟨hop, hhop, rfl⟩ : ∃ hop, (Search.run d.numQubits d.neighbors a).hop? b = some hop ∧
        hop.distance = k := by
      rwa [distance?, hs, Option.bind_some, Option.map_eq_some_iff] at hk
    obtain ⟨path, heq, hback, hlength⟩ := htree.retraced_pathTo hop.distance b hop.via [] hhop
    have hpath : d.shortestPath? a b = some path := by
      simp [shortestPath?, hs, hhop, heq]
    have hretraced : Retraced (d.before? a) a b path := by
      refine hback.congr fun q _ => ?_
      rw [before?, hs, Option.bind_some]
    have hrow : Retraced (fun q => ((Search.run d.numQubits d.neighbors a).rows.before[q]?).join)
        a b path := hback.congr fun q hne => (htree.before_rows hne).symm
    have honly {before? : Nat → Option Nat} (h : Retraced before? a b path) :
        ∀ path', Retraced before? a b path' ↔ path' = path :=
      fun path' => ⟨fun h' => h'.unique h, fun heq => heq ▸ h⟩
    obtain ⟨hhead, hlast, hchain, hnodup, -⟩ := shortestPath?_spec hpath
    exact ⟨path, hpath, hhead, hlast, hlength, hnodup, hchain, honly hretraced, _,
      Search.Rows.fill_eq ha, honly hrow⟩

/-- On a ring of six the shorter way from 0 to 4 leads through the seam. -/
theorem shortestPath?_retraces_seam : ∃ d path, ring 6 = .ok d ∧ d.distance? 0 4 = some 2 ∧
    d.shortestPath? 0 4 = some path ∧ path.length = 3 ∧ path.head? = some 0 ∧
    path.getLast? = some 4 ∧ Retraced (d.before? 0) 0 4 path := by
  obtain ⟨d, hd⟩ := exists_ring_eq_ok_iff.mpr (show 0 < 6 ∧ 6 ≤ maxQubits by decide)
  have hdistance : d.distance? 0 4 = some 2 := distance?_ring hd (by decide) (by decide)
  obtain ⟨path, hpath, hhead, hlast, hlength, -, -, hback, -⟩ :=
    (shortestPath?_retraces d 0 4).2 2 hdistance
  exact ⟨d, path, hd, hdistance, hpath, hlength, hhead, hlast, (hback path).mpr rfl⟩

end Device

end QubitMapper
