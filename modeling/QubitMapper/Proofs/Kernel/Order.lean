import Mathlib.Data.List.Enum
import Mathlib.Data.List.Nodup
import QubitMapper.Circuit.Kernel.Edit
import QubitMapper.Circuit.Kernel.Order
import QubitMapper.Proofs.Kernel.Greedy
import QubitMapper.Proofs.Kernel.Lookup
import QubitMapper.Proofs.Outcome

/-!
# Orders with producers first

Sorting a block takes its operations greedily: each once the producers of its operands that are in
the block have been taken, and the first of those that may come. In an order that lists every
operation once and behind the producers of its operands it finds nothing to change.

## Main results

* `Kernel.setBlockOrder_eq_ok_iff`: when a block can be put into a new order.
* `Kernel.sortBlock_perm`: sorting rearranges the block.
* `Kernel.sortBlock_greedy`: sorting is a greedy run over the block.
* `Kernel.sortBlock_eq_of_inOrder`, `Kernel.sortBlock_eq_self`: a block with producers first is
  sorted.
-/

namespace QubitMapper.Kernel

/-- Every operation of an order stands behind the producers of its operands. -/
def ProducersFirst (k : Kernel) (order : List Nat) : Prop :=
  ∀ i x : Nat, order[i]? = some x → ∀ w ∈ k.operandsOf x,
    ∃ wire, k.wire? w = some wire ∧ wire.producer ∈ order.take i

variable {k : Kernel} {order : List Nat} {i x : Nat}

theorem block_eq_ok_iff {b : Nat} {ops : List Nat} :
    k.block b = .ok ops ↔ k.blocks[b]? = some ops := by
  unfold block block?
  cases k.blocks[b]? <;> simp

/-! ## Positions -/

private theorem foldl_positions (l : List Nat) :
    ∀ {n : Nat} {found : Std.TreeMap Nat Nat},
      ((l.zipIdx n).foldl (fun found (op, position) => found.insert op position) found)[x]? =
        some i → found[x]? = some i ∨ n ≤ i ∧ l[i - n]? = some x := by
  induction l with
  | nil => exact fun h => .inl h
  | cons y rest ih =>
      intro n found h
      rw [List.zipIdx_cons, List.foldl_cons] at h
      rcases ih h with h | ⟨hle, h⟩
      · rw [Std.TreeMap.getElem?_insert] at h
        split at h
        · rename_i heq
          rw [Nat.compare_eq_eq] at heq
          cases h
          exact .inr ⟨Nat.le_refl _, by rw [Nat.sub_self, heq]; rfl⟩
        · exact .inl h
      · obtain ⟨j, rfl⟩ := Nat.exists_eq_add_of_le hle
        refine .inr ⟨by omega, ?_⟩
        rw [Nat.add_sub_cancel_left] at h
        rw [Nat.add_assoc, Nat.add_sub_cancel_left, Nat.add_comm 1 j]
        exact h

/-- The beginning of an order has producers first, too. -/
theorem ProducersFirst.of_append {later : List Nat} (h : k.ProducersFirst (order ++ later)) :
    k.ProducersFirst order := by
  intro i x hi w hw
  have hlt := (List.getElem?_eq_some_iff.mp hi).1
  have := h i x (by rw [List.getElem?_append_left hlt, hi]) w hw
  rwa [List.take_append_of_le_length (Nat.le_of_lt hlt)] at this

/-- A position that is found is one of the operation. -/
theorem getElem?_of_positions (h : (positions order)[x]? = some i) : order[i]? = some x := by
  rcases foldl_positions order h with h | ⟨-, h⟩
  · simp at h
  · exact h

private theorem isSome_foldl_positions (l : List Nat) :
    ∀ {n : Nat} {found : Std.TreeMap Nat Nat}, x ∈ l ∨ (found[x]?).isSome →
      (((l.zipIdx n).foldl (fun found (op, position) => found.insert op position) found)[x]?).isSome
      := by
  induction l with
  | nil => exact fun h => h.resolve_left (List.not_mem_nil)
  | cons y rest ih =>
      intro n found h
      rw [List.zipIdx_cons, List.foldl_cons]
      apply ih
      rw [Std.TreeMap.getElem?_insert]
      split
      · exact .inr rfl
      · rename_i hne
        rcases h with h | h
        · rcases List.mem_cons.mp h with rfl | h
          · exact absurd Std.ReflCmp.compare_self hne
          · exact .inl h
        · exact .inr h

/-- In an order without repetitions the position of each operation is found. -/
theorem positions_eq_some_iff (hnodup : order.Nodup) :
    (positions order)[x]? = some i ↔ order[i]? = some x := by
  refine ⟨getElem?_of_positions, fun hi => ?_⟩
  have hmem : x ∈ order := List.mem_of_getElem? hi
  obtain ⟨j, hj⟩ := Option.isSome_iff_exists.mp
    (isSome_foldl_positions order (.inl hmem))
  have hposition : (positions order)[x]? = some j := hj
  have hlt := (List.getElem?_eq_some_iff.mp hi).1
  have heq : i = j :=
    (List.getElem?_inj hlt hnodup).mp (hi.trans (getElem?_of_positions hposition).symm)
  rw [hposition, heq]

/-- Producers are found at earlier positions. -/
theorem ProducersFirst.position_lt (h : k.ProducersFirst order) (hnodup : order.Nodup)
    (hi : order[i]? = some x) {w j : Nat} {wire : Wire} (hw : w ∈ k.operandsOf x)
    (hwire : k.wire? w = some wire) (hj : (positions order)[wire.producer]? = some j) : j < i := by
  obtain ⟨wire', hwire', hmem⟩ := h i x hi w hw
  cases hwire.symm.trans hwire'
  obtain ⟨l, hl⟩ := List.mem_iff_getElem?.mp hmem
  rw [List.getElem?_take] at hl
  split at hl
  · rename_i hli
    have hjl := (List.getElem?_eq_some_iff.mp hl).1
    have heq : l = j := (List.getElem?_inj hjl hnodup).mp (hl.trans (getElem?_of_positions hj).symm)
    exact heq ▸ hli
  · cases hl

/-! ## Sorting -/

/-- One operation of an order produces an operand of another one. -/
def Feeds (k : Kernel) (order : List Nat) (y x : Nat) : Prop :=
  y ∈ order ∧ x ∈ order ∧ ∃ w ∈ k.operandsOf x, ∃ wire, k.wire? w = some wire ∧ wire.producer = y

/-- In an order with producers first each operation may come where it stands. -/
theorem ProducersFirst.inOrder (h : k.ProducersFirst order) :
    InOrder (k.Feeds order) [] order := by
  rintro i x hi y ⟨-, -, w, hw, wire, hwire, rfl⟩
  obtain ⟨wire', hwire', hmem⟩ := h i x hi w hw
  cases hwire.symm.trans hwire'
  exact hmem

private theorem producerPositions_spec (hnodup : order.Nodup) (hx : x ∈ order)
    (hwires : ∀ w ∈ k.operandsOf x, ∃ wire, k.wire? w = some wire) :
    ∃ needs, k.producerPositions (positions order) x = .ok needs ∧
      ∀ j : Nat, j ∈ needs ↔ ∃ y, order[j]? = some y ∧ k.Feeds order y x := by
  unfold producerPositions
  cases ho : k.op? x with
  | none =>
      have hnone : k.operandsOf x = [] := by simp [operandsOf, ho]
      exact ⟨[], rfl, by simp [Feeds, hnone]⟩
  | some o =>
      have hoperands : k.operandsOf x = o.operands := operandsOf_of_op? ho
      obtain ⟨producers, hmap, hall⟩ : ∃ producers,
          (o.operands.mapM fun w => (·.producer) <$> k.wire w) = .ok producers ∧
            List.Forall₂ (fun w y => ∃ wire, k.wire? w = some wire ∧ wire.producer = y)
              o.operands producers := by
        apply exists_mapM_eq_ok
        intro w hw
        obtain ⟨wire, hwire⟩ := hwires w (hoperands ▸ hw)
        exact ⟨wire.producer, by rw [Kernel.wire, hwire]; rfl, wire, hwire, rfl⟩
      refine ⟨producers.filterMap ((positions order)[·]?), ?_, fun j => ?_⟩
      · simp [hmap, bind, Except.bind, pure, Except.pure]
      · simp only [List.mem_filterMap, positions_eq_some_iff hnodup]
        constructor
        · rintro ⟨y, hy, hj⟩
          obtain ⟨w, hw, hwire⟩ := forall₂_mem_right hall hy
          exact ⟨y, hj, List.mem_of_getElem? hj, hx, w, hoperands ▸ hw, hwire⟩
        · rintro ⟨y, hj, -, -, w, hw, wire, hwire, rfl⟩
          obtain ⟨y, hy, wire', hwire', rfl⟩ := forall₂_mem_left hall (hoperands ▸ hw)
          cases hwire.symm.trans hwire'
          exact ⟨_, hy, hj⟩

/-- Each operation of an order waits for those of the order that produce its operands. -/
theorem exists_pending (hnodup : order.Nodup)
    (hwires : ∀ x ∈ order, ∀ w ∈ k.operandsOf x, ∃ wire, k.wire? w = some wire) :
    ∃ ps, k.pending order = .ok ps ∧ ∀ p ∈ ps, p.Stands (k.Feeds order) order := by
  obtain ⟨ps, hps, hall⟩ : ∃ ps, k.pending order = .ok ps ∧
      List.Forall₂ (fun _ p => p.Stands (k.Feeds order) order) order.zipIdx ps := by
    apply exists_mapM_eq_ok
    rintro ⟨x, i⟩ hentry
    rw [List.mk_mem_zipIdx_iff_getElem?] at hentry
    have hx : x ∈ order := List.mem_of_getElem? hentry
    obtain ⟨needs, hneeds, hspec⟩ := producerPositions_spec hnodup hx (hwires x hx)
    exact ⟨⟨i, x, needs⟩, by simp only [hneeds]; rfl, hentry, hspec⟩
  exact ⟨ps, hps, fun p hp => (forall₂_mem_right hall hp).elim fun _ h => h.2⟩

private theorem forall₂_pending {ps : List Pending} (h : k.pending order = .ok ps) :
    List.Forall₂ (fun entry p => p.op = entry.1 ∧ p.position = entry.2) order.zipIdx ps := by
  refine (mapM_eq_ok_iff.mp h).imp fun entry p hp => ?_
  obtain ⟨needs, -, hp⟩ := Except.bind_eq_ok.mp hp
  cases hp
  exact ⟨rfl, rfl⟩

/-- The operations of an order are pending at their positions. -/
theorem getElem?_of_pending {ps : List Pending} (h : k.pending order = .ok ps) {p : Pending}
    (hp : ps[i]? = some p) : p.position = i ∧ order[i]? = some p.op := by
  obtain ⟨⟨x, j⟩, hentry, rfl, rfl⟩ := forall₂_getElem? (forall₂_pending h).flip hp
  simp only [List.getElem?_zipIdx, Option.map_eq_some_iff, Prod.mk.injEq] at hentry
  obtain ⟨x, hx, rfl, hj⟩ := hentry
  exact ⟨by omega, hx⟩

theorem length_pending {ps : List Pending} (h : k.pending order = .ok ps) :
    ps.length = order.length := by
  rw [← (forall₂_pending h).length_eq, List.length_zipIdx]

private theorem pending_ops {ps : List Pending} (h : k.pending order = .ok ps) :
    ps.map (·.op) = order := by
  have hmap : order.zipIdx.map (·.1) = ps.map (·.op) := by
    rw [← List.forall₂_eq_eq_eq, List.forall₂_map_left_iff, List.forall₂_map_right_iff]
    exact (forall₂_pending h).imp fun entry p hp => hp.1.symm
  rw [← hmap, List.zipIdx_map_fst]

/-- Sorting a block is a greedy run over its operations; it fails if the run leaves some over. -/
theorem sortBlock_greedy {b : Nat} (hblock : k.blocks[b]? = some order) (hnodup : order.Nodup)
    (hwires : ∀ x ∈ order, ∀ w ∈ k.operandsOf x, ∃ wire, k.wire? w = some wire) :
    ∃ sorted left, Greedy (k.Feeds order) [] order sorted left ∧ k.sortBlock b =
      if left.isEmpty then .ok (k.setBlock b sorted) else .error (.cycle b) := by
  obtain ⟨ps, hps, hstands⟩ := exists_pending hnodup hwires
  have hops := pending_ops hps
  have htaken : Pending.Takes order {} [] := fun j y _ => by simp
  obtain ⟨sorted, left, hgreedy, hschedule⟩ := Pending.schedule_greedy hnodup
    (fun y x hfeeds => hfeeds.1) order.length hstands htaken (length_pending hps).le
  rw [hops] at hgreedy
  refine ⟨sorted, left, hgreedy, ?_⟩
  simp only [sortBlock, Kernel.block, Kernel.block?, hblock, bind, Except.bind, hps, hschedule]
  cases left <;> rfl

/-- A block in which each operation may come where it stands is sorted. -/
theorem sortBlock_eq_of_inOrder {b : Nat} (hblock : k.blocks[b]? = some order)
    (hnodup : order.Nodup)
    (hwires : ∀ x ∈ order, ∀ w ∈ k.operandsOf x, ∃ wire, k.wire? w = some wire)
    (h : InOrder (k.Feeds order) [] order) : k.sortBlock b = .ok k := by
  obtain ⟨sorted, left, hgreedy, hsort⟩ := sortBlock_greedy hblock hnodup hwires
  obtain ⟨rfl, rfl⟩ := hgreedy.eq_of_inOrder h
  have hset : k.setBlock b sorted = k := by
    obtain ⟨hlt, hget⟩ := List.getElem?_eq_some_iff.mp hblock
    rw [setBlock, ← hget, List.set_getElem_self hlt]
  rw [hsort, hset]
  rfl

/-- A block that has producers first is sorted. -/
theorem sortBlock_eq_self {b : Nat} (hblock : k.blocks[b]? = some order)
    (h : k.ProducersFirst order) (hnodup : order.Nodup) : k.sortBlock b = .ok k := by
  refine sortBlock_eq_of_inOrder hblock hnodup (fun x hx w hw => ?_) h.inOrder
  obtain ⟨i, hi⟩ := List.mem_iff_getElem?.mp hx
  obtain ⟨wire, hwire, -⟩ := h i x hi w hw
  exact ⟨wire, hwire⟩

/-- A schedule takes every pending operation once. -/
private theorem schedule_perm (fuel : Nat) :
    ∀ {taken : Std.TreeSet Nat} {ps : List Pending} {sorted : List Nat},
      Pending.schedule fuel taken ps = some sorted → sorted.Perm (ps.map (·.op)) := by
  induction fuel with
  | zero =>
      intro taken ps sorted h
      simp only [Pending.schedule, List.isEmpty_iff, Option.ite_none_right_eq_some,
        Option.some.injEq] at h
      obtain ⟨rfl, rfl⟩ := h
      exact .refl _
  | succ fuel ih =>
      intro taken ps sorted h
      unfold Pending.schedule at h
      split at h
      · simp only [List.isEmpty_iff, Option.ite_none_right_eq_some, Option.some.injEq] at h
        obtain ⟨rfl, rfl⟩ := h
        exact .refl _
      · rename_i p hfind
        obtain ⟨rest, hrest, rfl⟩ := Option.map_eq_some_iff.mp h
        obtain ⟨before, after, rfl, -, -, herase⟩ := Pending.exists_of_find? hfind
        rw [herase] at hrest
        have hperm := (ih hrest).cons p.op
        refine hperm.trans ?_
        rw [← List.map_cons]
        exact (List.perm_middle.symm).map _

/-- Sorting a block rearranges it and changes nothing else. -/
theorem sortBlock_perm {b : Nat} {k' : Kernel} (h : k.sortBlock b = .ok k') :
    ∃ order sorted, k.blocks[b]? = some order ∧ sorted.Perm order ∧ k' = k.setBlock b sorted := by
  obtain ⟨order, horder, h⟩ := Except.bind_eq_ok.mp h
  obtain ⟨ps, hps, h⟩ := Except.bind_eq_ok.mp h
  split at h
  · cases h
  · rename_i sorted hsorted
    cases h
    have hperm := schedule_perm _ hsorted
    rw [pending_ops hps] at hperm
    exact ⟨order, sorted, block_eq_ok_iff.mp horder, hperm, rfl⟩

/-! ## New orders -/

private theorem checkOrder_eq_ok_iff {b : Nat} {elsewhere : List Nat} (l : List Nat) :
    ∀ {seen : List Nat}, k.checkOrder b elsewhere seen l = .ok () ↔
      (∀ x ∈ l, (k.op? x).isSome ∧ x ∉ seen ∧ x ∉ elsewhere) ∧ l.Nodup := by
  induction l with
  | nil => simp [checkOrder]
  | cons x rest ih =>
      intro seen
      unfold checkOrder
      rw [List.forall_mem_cons, List.nodup_cons]
      cases hx : k.op? x with
      | none => simp
      | some o =>
          by_cases hseen : x ∈ seen
          · simp [hseen]
          · by_cases helsewhere : x ∈ elsewhere
            · simp [hseen, helsewhere]
            · simp only [Option.isNone_some, Bool.false_eq_true, ↓reduceIte, hseen, helsewhere,
                List.contains_iff_mem, ih, Option.isSome_some, not_false_eq_true, and_self,
                true_and, List.mem_cons, not_or]
              constructor
              · rintro ⟨hall, hnodup⟩
                refine ⟨fun y hy => ?_, ?_, hnodup⟩
                · obtain ⟨hlive, ⟨-, hseen⟩, helsewhere⟩ := hall y hy
                  exact ⟨hlive, hseen, helsewhere⟩
                · exact fun hmem => (hall x hmem).2.1.1 rfl
              · rintro ⟨hall, hnot, hnodup⟩
                refine ⟨fun y hy => ?_, hnodup⟩
                obtain ⟨hlive, hseen, helsewhere⟩ := hall y hy
                refine ⟨hlive, ⟨?_, hseen⟩, helsewhere⟩
                rintro rfl
                exact hnot hy

/-- When a block can be put into a new order, and with what kernel. -/
theorem setBlockOrder_eq_ok_iff {b : Nat} {k' : Kernel} :
    k.setBlockOrder b order = .ok k' ↔ ∃ current, k.blocks[b]? = some current ∧
      (∀ x ∈ order, (k.op? x).isSome ∧ x ∉ k.opsElsewhere b) ∧ order.Nodup ∧
      (∀ x ∈ current, x ∈ order) ∧ k' = k.setBlock b order := by
  unfold setBlockOrder
  simp only [Except.bind_eq_ok, block_eq_ok_iff]
  refine exists_congr fun current => and_congr_right fun _ => ?_
  have hcheck : k.checkOrder b (k.opsElsewhere b) [] order = .ok () ↔
      (∀ x ∈ order, (k.op? x).isSome ∧ x ∉ k.opsElsewhere b) ∧ order.Nodup := by
    simp [checkOrder_eq_ok_iff]
  rw [← and_assoc, ← hcheck]
  cases hfind : current.find? fun op => !order.contains op with
  | some x =>
      have hmem := List.mem_of_find?_eq_some hfind
      have hnot := List.find?_some hfind
      have hdropped : ¬ ∀ x ∈ current, x ∈ order := by
        intro hkept
        simp [hkept x hmem] at hnot
      simp [hdropped]
  | none =>
      have hkept : ∀ x ∈ current, x ∈ order := by simpa using hfind
      rw [and_iff_right hkept]
      simp only [pure, Except.pure, Except.ok.injEq]
      constructor
      · rintro ⟨⟨⟩, h, heq⟩
        exact ⟨h, heq.symm⟩
      · rintro ⟨h, heq⟩
        exact ⟨⟨⟩, h, heq.symm⟩

/-- The only block can be put into an order that lists live operations once and drops none. -/
theorem setBlockOrder_eq_ok {entry : List Nat} (hblocks : k.blocks = [entry])
    (hlive : ∀ x ∈ order, (k.op? x).isSome) (hnodup : order.Nodup)
    (hkept : ∀ x ∈ entry, x ∈ order) :
    k.setBlockOrder 0 order = .ok { k with blocks := [order] } := by
  refine setBlockOrder_eq_ok_iff.mpr ⟨entry, by rw [hblocks]; rfl, fun x hx => ⟨hlive x hx, ?_⟩,
    hnodup, hkept, ?_⟩
  · simp [opsElsewhere, hblocks]
  · simp [setBlock, hblocks]

end QubitMapper.Kernel
