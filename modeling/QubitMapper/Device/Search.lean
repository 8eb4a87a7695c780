import QubitMapper.Circuit.Operation

/-!
# Breadth-first search

A search from one qubit finds the other qubits level by level. Each qubit keeps the number of hops
to the source and the qubit before it on the way, which is the first one that reached it: the qubits
of a level are taken in the order in which they were found, their neighbors in ascending order.
-/

namespace QubitMapper

/-- How a qubit was found: its distance from the source and the qubit before it. -/
structure Hop where
  distance : Nat
  via : Nat
  deriving DecidableEq, Repr

/-- How each qubit was found by a search, if it was. -/
abbrev Search := Array (Option Hop)

namespace Search

/-- How a qubit was found. -/
def hop? (s : Search) (q : Nat) : Option Hop := (s[q]?).join

/-- The qubits among some candidates that are new at a distance, with the search that knows them.
A candidate comes with the qubit that it is reached from. -/
def discover (distance : Nat) : List (Nat × Nat) → Search →
    Search × List Nat
  | [], s => (s, [])
  | (via, q) :: rest, s =>
      match s[q]? with
      | some none =>
          let (s, found) := discover distance rest (s.setIfInBounds q (some ⟨distance, via⟩))
          (s, q :: found)
      | _ => discover distance rest s

/-- The neighbors of the qubits of a level, in order, each with the qubit that it is reached
from. -/
def candidates (neighbors : Nat → List Nat) (level : List Nat) :
    List (Nat × Nat) :=
  level.flatMap fun via => (neighbors via).map (via, ·)

/-- The search continued from a level, at most `fuel` levels deep. -/
def levels (neighbors : Nat → List Nat) :
    Nat → Nat → List Nat → Search → Search
  | 0, _, _, s => s
  | _, _, [], s => s
  | fuel + 1, distance, level, s =>
      let (s, found) := discover (distance + 1) (candidates neighbors level) s
      levels neighbors fuel (distance + 1) found s

/-- The search from a source among `count` qubits. -/
def run (count : Nat) (neighbors : Nat → List Nat)
    (source : Nat) : Search :=
  levels neighbors count 0 [source]
    ((Array.replicate count none).setIfInBounds source (some ⟨0, source⟩))

/-- The way to a qubit that is `distance` hops from the source, put in front of a path. -/
def pathTo (s : Search) : Nat → Nat → List Nat → List Nat
  | 0, q, path => q :: path
  | distance + 1, q, path =>
      pathTo s distance (((s.hop? q).map (·.via)).getD q) (q :: path)

end Search

end QubitMapper
