import QubitMapper.Proofs.Kernel.Calls
import QubitMapper.Proofs.Kernel.Tally

/-!
# The stable topological order of a block

A block of a kernel can be sorted exactly if none of its operations feeds itself, at once or through
others. The order is then the one in which each operation stands behind those that feed it and is,
of all that might stand in its place, the one that stood first in the block. There is only one such
order, so that a block which is sorted stays as it is.

## Main results

* `StableSort.unique`: there is at most one stable order.
* `Greedy.stableSort`: a greedy run that leaves nothing over makes it.
* `Kernel.Built.sortBlock_stable`: what sorting makes of a block of a kernel that calls have made.
-/

namespace QubitMapper

open Relation

variable {feeds : Nat → Nat → Prop} {order sorted other : List Nat} {x y : Nat}

/-- A list has the elements of an order, each behind those that feed it, and each the first in the
order of all that might stand in its place. -/
structure StableSort (feeds : Nat → Nat → Prop) (order sorted : List Nat) : Prop where
  perm : sorted.Perm order
  inOrder : InOrder feeds [] sorted
  first : ∀ i x : Nat, sorted[i]? = some x → ∀ y ∈ order, y ∉ sorted.take i →
    MayCome feeds (sorted.take i) y → order.idxOf x ≤ order.idxOf y

namespace StableSort

/-- Where two stable orders agree up to a place, the element at it is not behind the other's. -/
private theorem idxOf_le (h : StableSort feeds order sorted) (h' : StableSort feeds order other)
    (hnodup : order.Nodup) {i : Nat} (htake : sorted.take i = other.take i)
    (hx : sorted[i]? = some x) (hy : other[i]? = some y) : order.idxOf x ≤ order.idxOf y := by
  refine h.first i x hx y (h'.perm.mem_iff.mp (List.mem_of_getElem? hy)) ?_ ?_
  · rw [htake]
    intro hmem
    obtain ⟨j, hj⟩ := List.mem_iff_getElem?.mp hmem
    rw [List.getElem?_take] at hj
    split at hj
    · rename_i hlt
      have hlt' := (List.getElem?_eq_some_iff.mp hj).1
      have := (List.getElem?_inj hlt' (h'.perm.nodup_iff.mpr hnodup)).mp (hj.trans hy.symm)
      omega
    · cases hj
  · rw [htake]
    exact h'.inOrder i y hy

/-- There is at most one stable order. -/
theorem unique (h : StableSort feeds order sorted) (h' : StableSort feeds order other)
    (hnodup : order.Nodup) : sorted = other := by
  have hlength : sorted.length = other.length := h.perm.length_eq.trans h'.perm.length_eq.symm
  have htake (i : Nat) : sorted.take i = other.take i := by
    induction i with
    | zero => rfl
    | succ i ih =>
        rw [List.take_add_one, List.take_add_one, ih]
        congr 1
        by_cases hi : i < sorted.length
        · have hx := List.getElem?_eq_getElem hi
          have hy := List.getElem?_eq_getElem (hlength ▸ hi)
          have heq := Nat.le_antisymm (h.idxOf_le h' hnodup ih hx hy)
            (h'.idxOf_le h hnodup ih.symm hy hx)
          have hmem := h.perm.mem_iff.mp (List.mem_of_getElem? hx)
          rw [hx, hy, List.idxOf_inj hmem |>.mp heq]
        · rw [List.getElem?_eq_none (Nat.le_of_not_lt hi),
            List.getElem?_eq_none (hlength ▸ Nat.le_of_not_lt hi)]
  have := htake sorted.length
  rwa [List.take_length, hlength, List.take_length] at this

end StableSort

/-- A greedy run over an order without repetitions that leaves nothing over is stable. -/
theorem Greedy.stableSort (h : Greedy feeds [] order sorted []) (hnodup : order.Nodup) :
    StableSort feeds order sorted where
  perm := by simpa using h.perm
  inOrder := h.mayCome
  first i x hx y hy hnot hmay := by
    have hpairwise : order.Pairwise fun a b => order.idxOf a < order.idxOf b := by
      rw [List.pairwise_iff_getElem]
      intro i j hi hj hlt
      rwa [hnodup.idxOf_getElem, hnodup.idxOf_getElem]
    rcases h.first hpairwise i x hx y hy hnot hmay with rfl | hlt
    · exact Nat.le_refl _
    · exact hlt.le

namespace Kernel

variable {k : Kernel} {b : Nat}

/-- In a rearranged block the same operations feed each other. -/
theorem feeds_setBlock (hperm : sorted.Perm order) :
    (k.setBlock b sorted).Feeds sorted = k.Feeds order := by
  funext y x
  simp only [Feeds, hperm.mem_iff]
  rfl

/-- What sorting makes of a block of a kernel that calls have made. It fails, and leaves the kernel
as it is, exactly if an operation of the block feeds itself, at once or through others of the block.
If none does, it puts the block into its one stable order, and sorting again changes nothing, as it
does not in any block with producers first. Counting for each operation the different producers that
it still waits for never goes below zero and comes to the same order. -/
theorem Built.sortBlock_stable (hk : k.Built) (hblock : k.block? b = some order) :
    (k.sortBlock b = .error (.cycle b) ↔ ∃ x, TransGen (k.Feeds order) x x) ∧
    ((∃ x, TransGen (k.Feeds order) x x) → k.call (.sort b) = k) ∧
    ((¬ ∃ x, TransGen (k.Feeds order) x x) → ∃ sorted,
      k.sortBlock b = .ok (k.setBlock b sorted) ∧
      (k.setBlock b sorted).block? b = some sorted ∧
      StableSort (k.Feeds order) order sorted ∧
      (∀ other, StableSort (k.Feeds order) order other → other = sorted) ∧
      (k.setBlock b sorted).sortBlock b = .ok (k.setBlock b sorted)) ∧
    (InOrder (k.Feeds order) [] order → k.sortBlock b = .ok k) ∧
    ∃ ps is, k.pending order = .ok ps ∧ Pending.counted ps = some is ∧
      k.sortBlock b = if is.length = order.length then
        .ok (k.setBlock b (is.filterMap (order[·]?))) else .error (.cycle b) := by
  have hcoherent := hk.coherent
  have hnodup : order.Nodup :=
    (List.nodup_append.mp ((flatten_perm hblock).nodup_iff.mp hcoherent.placed)).1
  have hwires : ∀ x ∈ order, ∀ w ∈ k.operandsOf x, ∃ wire, k.wire? w = some wire :=
    fun x _ w hw => exists_wire (hcoherent.operand x w hw)
  obtain ⟨sorted, left, hgreedy, hsort⟩ := sortBlock_greedy hblock hnodup hwires
  have hleft := hgreedy.left_eq_nil_iff fun y x hfeeds => ⟨hfeeds.1, hfeeds.2.1⟩
  have hcycle : k.sortBlock b = .error (.cycle b) ↔ ∃ x, TransGen (k.Feeds order) x x := by
    rw [← not_iff_not, ← hleft, hsort]
    cases left <;> simp
  refine ⟨hcycle, fun h => call_of_error (hcycle.mpr h), fun hnone => ?_,
    sortBlock_eq_of_inOrder hblock hnodup hwires, ?_⟩
  · obtain rfl := hleft.mpr hnone
    have hstable := hgreedy.stableSort hnodup
    have hlt := (List.getElem?_eq_some_iff.mp hblock).1
    have hset : (k.setBlock b sorted).block? b = some sorted := by
      simp [block?, Kernel.setBlock, hlt]
    refine ⟨sorted, hsort, hset, hstable, fun other h => h.unique hstable hnodup, ?_⟩
    refine sortBlock_eq_of_inOrder hset (hstable.perm.nodup_iff.mpr hnodup) (fun x hx w hw => ?_) ?_
    · exact hwires x (hstable.perm.mem_iff.mp hx) w hw
    · rw [feeds_setBlock hstable.perm]
      exact hstable.inOrder
  · obtain ⟨ps, hps, -⟩ := exists_pending hnodup hwires
    obtain ⟨is, hcounted, hsorted⟩ := sortBlock_counted hblock hps
    exact ⟨ps, is, hps, hcounted, hsorted⟩

/-- A reversed block in which an operation consumes both results of another one, and an operation
that is made to consume its own result. -/
theorem Built.sortBlock_stable_reversed :
    let k := (Kernel.empty "pair").calls [.alloc, .alloc, .apply (.gate "cx" []) [0, 1],
      .apply (.gate "cx" []) [2, 3], .setBlockOrder 0 [3, 2, 1, 0]]
    let k' := (Kernel.empty "loop").calls [.alloc, .apply (.gate "h" []) [0], .setOperands 1 [1]]
    k.block? 0 = some [3, 2, 1, 0] ∧
      StableSort (k.Feeds [3, 2, 1, 0]) [3, 2, 1, 0] [1, 0, 2, 3] ∧
      k.sortBlock 0 = .ok (k.setBlock 0 [1, 0, 2, 3]) ∧
      k'.block? 0 = some [0, 1] ∧ k'.sortBlock 0 = .error (.cycle 0) := by
  intro k k'
  have hblock : k.block? 0 = some [3, 2, 1, 0] := by decide +kernel
  have hblock' : k'.block? 0 = some [0, 1] := by decide +kernel
  have hk : k.Built := (Built.empty "pair").calls _
  have hk' : k'.Built := (Built.empty "loop").calls _
  obtain ⟨-, hkept, hstable, -⟩ := Built.sortBlock_stable hk hblock
  obtain ⟨hcycle, -⟩ := Built.sortBlock_stable hk' hblock'
  have hcall : (k.call (.sort 0)).block? 0 = some [1, 0, 2, 3] := by decide +kernel
  have hnone : ¬ ∃ x, TransGen (k.Feeds [3, 2, 1, 0]) x x := by
    intro h
    rw [hkept h, hblock] at hcall
    exact absurd hcall (by decide)
  obtain ⟨sorted, hsort, hset, hsorted, -⟩ := hstable hnone
  rw [call_of_ok (show (Call.sort 0).run k = _ from hsort), hset] at hcall
  cases hcall
  have hself : k'.Feeds [0, 1] 1 1 :=
    ⟨by decide, by decide, 1, by decide +kernel, _, rfl, by decide +kernel⟩
  exact ⟨hblock, hsorted, hsort, hblock', hcycle.mpr ⟨1, .single hself⟩⟩

end Kernel

end QubitMapper
