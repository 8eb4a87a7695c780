import Mathlib.Data.Finset.Card
import Mathlib.Data.Finset.Range
import QubitMapper.Proofs.Routing.Deferral
import QubitMapper.Proofs.Routing.Visits

/-!
# Levels

Ahead of a front layer the operations of a kernel come in levels: each level is what becomes ready
once the levels before it are retired as well, in the order in which the results of the level before
reach it. The first level is to what is retired and in front what the front layer is to what is
retired, so all that is known of the levels is known by going on one level.

## Main results

* `Kernel.IsLevels.unique`: what levels are leaves no choice.
* `Kernel.IsFront.next`: a level takes the place of the front layer.
* `Kernel.IsFront.isLevels`: levels exist, and `Kernel.levelsAhead` computes them.
-/

namespace QubitMapper

/-! ## What levels are -/

/-- An operation is retired or in one of the first levels. -/
def Passed (retired : List Nat) (levels : Nat → List Nat) (n x : Nat) : Prop :=
  x ∈ retired ∨ ∃ m < n, x ∈ levels m

theorem passed_succ_iff {retired : List Nat} {levels : Nat → List Nat} {n x : Nat} :
    Passed retired levels (n + 1) x ↔
      Passed (levels 0 ++ retired) (fun m => levels (m + 1)) n x := by
  unfold Passed
  rw [Nat.exists_lt_succ_left, List.mem_append]
  tauto

namespace Kernel

variable {k k' : Kernel} {labels : Labels} {measuring : Bool} {retired front walk : List Nat}
  {levels : Nat → List Nat} {x y w n : Nat}

/-- When wires are walked in order, the last one among the operands of one operation comes before
the last one among the operands of another. -/
def ReachedBefore (k : Kernel) (walk : List Nat) (x y : Nat) : Prop :=
  ∃ n, (∀ w ∈ k.operandsOf x, w ∉ walk.drop n) ∧ ∃ w ∈ k.operandsOf y, w ∈ walk.drop n

theorem ReachedBefore.asymm (h : k.ReachedBefore walk x y) : ¬ k.ReachedBefore walk y x := by
  rintro ⟨n', hy', w', hw', hmem'⟩
  obtain ⟨n, hx, w, hw, hmem⟩ := h
  rcases Nat.le_total n n' with hle | hle
  · exact hx w' hw' ((List.drop_subset_drop_left walk hle) hmem')
  · exact hy' w hw ((List.drop_subset_drop_left walk hle) hmem)

theorem ReachedBefore.ne (h : k.ReachedBefore walk x y) : x ≠ y := by
  rintro rfl
  exact h.asymm h

/-- The levels of a kernel ahead of a front layer. Outside the measurement phase there are no
measurements in them. -/
structure IsLevels (k : Kernel) (measuring : Bool) (retired front : List Nat)
    (levels : Nat → List Nat) : Prop where
  first : levels 0 = front
  /-- A level has the operations with all producers retired or in the levels before, and which are
  not so themselves. -/
  mem : ∀ n x, x ∈ levels (n + 1) ↔ (k.op? x).isSome ∧
    (measuring = false → k.isMeasure x = false) ∧ ¬ Passed retired levels (n + 1) x ∧
      ∀ y ∈ k.producers x, Passed retired levels (n + 1) y
  /-- They come in the order in which their last operands are reached when the results of the level
  before are walked. -/
  ordered : ∀ n, (levels (n + 1)).Pairwise (k.ReachedBefore ((levels n).flatMap k.resultsOf))

/-- There is only one way to divide a kernel into levels. -/
theorem IsLevels.unique {levels' : Nat → List Nat}
    (h : k.IsLevels measuring retired front levels)
    (h' : k.IsLevels measuring retired front levels') : levels' = levels := by
  funext n
  induction n using Nat.strongRecOn with
  | ind n ih =>
      cases n with
      | zero => rw [h.first, h'.first]
      | succ n =>
          have hpassed : ∀ x, Passed retired levels' (n + 1) x ↔ Passed retired levels (n + 1) x :=
            fun x => or_congr_right <| exists_congr fun m => and_congr_right fun hm => by
              rw [ih m hm]
          have hmem : ∀ x, x ∈ levels' (n + 1) ↔ x ∈ levels (n + 1) := by
            intro x
            rw [h.mem, h'.mem]
            simp only [hpassed]
          have hordered' := h'.ordered n
          rw [ih n (Nat.lt_succ_self n)] at hordered'
          have hperm : (levels' (n + 1)).Perm (levels (n + 1)) :=
            (List.perm_ext_iff_of_nodup (hordered'.imp ReachedBefore.ne)
              ((h.ordered n).imp ReachedBefore.ne)).mpr hmem
          exact hperm.eq_of_pairwise (fun x y _ _ hxy hyx => absurd hyx hxy.asymm) hordered'
            (h.ordered n)

/-- No operation is in two levels behind the first, or twice in one. -/
theorem IsLevels.nodup (h : k.IsLevels measuring retired front levels) (N : Nat) :
    ((List.range N).flatMap fun n => levels (n + 1)).Nodup := by
  rw [List.nodup_flatMap]
  refine ⟨fun n _ => (h.ordered n).imp ReachedBefore.ne, ?_⟩
  refine List.pairwise_lt_range.imp fun {m n} hmn x hx hx' => ?_
  exact ((h.mem n x).mp hx').2.2.1 (.inr ⟨m + 1, Nat.succ_lt_succ hmn, hx⟩)

/-! ## Users of results -/

/-- The users of a wire; none of one that is not there. -/
def usersOf (k : Kernel) (w : Nat) : List Nat := ((k.wire? w).map (·.users)).getD []

theorem Consistent.count_usersOf (hk : k.Consistent) (w x : Nat) :
    (k.usersOf w).count x = (k.operandsOf x).count w := by
  unfold usersOf
  cases hw : k.wire? w with
  | none =>
      have hsize := wire?_eq_none_iff.mp hw
      exact (List.count_eq_zero.mpr fun hmem => Nat.not_lt.mpr hsize (hk.operand x w hmem)).symm
  | some wire => exact hk.uses w wire hw x

theorem Consistent.mem_usersOf (hk : k.Consistent) : x ∈ k.usersOf w ↔ w ∈ k.operandsOf x := by
  rw [← List.count_pos_iff, hk.count_usersOf, List.count_pos_iff]

theorem length_usersOf (hsingle : ∀ w wire, k.wire? w = some wire → wire.users.length ≤ 1)
    (w : Nat) : (k.usersOf w).length ≤ 1 := by
  unfold usersOf
  cases hw : k.wire? w with
  | none => exact Nat.zero_le 1
  | some wire => exact hsingle w wire hw

/-- Operations are consumed result by result. -/
theorem Consistent.users_eq_flatMap (hk : k.Consistent) (y : Nat) :
    k.users y = .ok ((k.resultsOf y).flatMap k.usersOf) := by
  cases hy : k.op? y with
  | none => simp [users, resultsOf, hy]
  | some o =>
      have hlists : (o.results.mapM fun w => (·.users) <$> k.wire w : Except CircuitError _) =
          .ok (o.results.map k.usersOf) := by
        rw [mapM_eq_ok_iff, List.forall₂_map_right_iff, List.forall₂_same]
        intro w hw
        obtain ⟨wire, hwire, -⟩ := hk.producer_of_mem hy hw
        simp [Kernel.wire, usersOf, hwire]
      simp only [users, hy, hlists, resultsOf_of_op? hy]
      rfl

/-- Things found one by one along a walk, each counted where it is found last, come in the order in
which they are found last. -/
private theorem pairwise_dedup_flatMap {u : Nat → List Nat} (hu : ∀ w, (u w).length ≤ 1)
    (walk : List Nat) : (walk.flatMap u).dedup.Pairwise fun x y =>
      ∃ n, x ∉ (walk.drop n).flatMap u ∧ y ∈ (walk.drop n).flatMap u := by
  induction walk with
  | nil => simp
  | cons w rest ih =>
      have hrest : (rest.flatMap u).dedup.Pairwise fun x y =>
          ∃ n, x ∉ ((w :: rest).drop n).flatMap u ∧ y ∈ ((w :: rest).drop n).flatMap u :=
        ih.imp fun ⟨n, h⟩ => ⟨n + 1, h⟩
      rw [List.flatMap_cons]
      have hlen := hu w
      cases hw : u w with
      | nil => exact hrest
      | cons a more =>
          rw [hw, List.length_cons] at hlen
          obtain rfl := List.eq_nil_of_length_eq_zero (Nat.le_zero.mp (Nat.le_of_succ_le_succ hlen))
          rw [List.singleton_append]
          by_cases ha : a ∈ rest.flatMap u
          · rwa [List.dedup_cons_of_mem ha]
          · rw [List.dedup_cons_of_notMem ha, List.pairwise_cons]
            exact ⟨fun y hy => ⟨1, ha, List.mem_dedup.mp hy⟩, hrest⟩

/-! ## Going on one level -/

/-- What becomes ready once a level is retired after others, in order. -/
def nextLevel (k : Kernel) (measuring : Bool) (seen level : List Nat) : List Nat :=
  (level.flatMap k.consumers).dedup.filter fun x =>
    (k.producers x).all (· ∈ level ++ seen) && (measuring || !k.isMeasure x)

/-- The levels ahead of a front layer. -/
def levelsAhead (k : Kernel) (measuring : Bool) : List Nat → List Nat → Nat → List Nat
  | _, front, 0 => front
  | retired, front, n + 1 =>
      k.levelsAhead measuring (front ++ retired) (k.nextLevel measuring retired front) n

/-- Behind an empty level there is nothing. -/
theorem levelsAhead_nil (n : Nat) : k.levelsAhead measuring retired [] n = [] := by
  induction n generalizing retired with
  | zero => rfl
  | succ n ih => exact ih

/-- The front layer has what is ready once some operations are retired: nothing is retired before
its producers are, and outside the measurement phase measurements wait elsewhere. -/
structure IsFront (k : Kernel) (measuring : Bool) (retired front : List Nat) : Prop where
  nodup : (front ++ retired).Nodup
  live : ∀ x ∈ front, (k.op? x).isSome
  allowed : ∀ x ∈ front, measuring = false → k.isMeasure x = false
  closed : ∀ x ∈ front ++ retired, ∀ y ∈ k.producers x, y ∈ retired
  complete : ∀ x, (k.op? x).isSome → (measuring = false → k.isMeasure x = false) →
    (∀ y ∈ k.producers x, y ∈ retired) → x ∈ front ++ retired

namespace IsFront

theorem not_mem_retired (h : k.IsFront measuring retired front) (hx : x ∈ front) : x ∉ retired :=
  fun hmem => (List.nodup_append.mp h.nodup).2.2 x hx x hmem rfl

/-- The operations that the levels have yet to come to. -/
def remaining (k : Kernel) (retired : List Nat) : Finset Nat :=
  (Finset.range k.ops.size).filter (· ∉ retired)

theorem remaining_card_le (k : Kernel) (retired : List Nat) :
    (remaining k retired).card ≤ k.ops.size :=
  (Finset.card_filter_le _ _).trans (Finset.card_range _).le

theorem remaining_card_lt (h : k.IsFront measuring retired front) (hne : front ≠ []) :
    (remaining k (front ++ retired)).card < (remaining k retired).card := by
  obtain ⟨x, hx⟩ := List.exists_mem_of_ne_nil front hne
  obtain ⟨o, ho⟩ := Option.isSome_iff_exists.mp (h.live x hx)
  refine Finset.card_lt_card (Finset.ssubset_iff_subset_ne.mpr ⟨fun y hy => ?_, fun heq => ?_⟩)
  · simp only [remaining, Finset.mem_filter, List.mem_append, not_or] at hy ⊢
    exact ⟨hy.1, hy.2.2⟩
  · have hmem : x ∈ remaining k retired := by
      simp [remaining, lt_of_op?_eq_some ho, h.not_mem_retired hx]
    rw [← heq] at hmem
    simp [remaining, hx] at hmem

section Live

variable (hk : k.Consistent) (hlive : ∀ x, ∀ w ∈ k.operandsOf x, ∀ wire, k.wire? w = some wire →
  ∃ o, k.op? wire.producer = some o ∧ w ∈ o.results)

include hk hlive

/-- What follows a level has a producer in it. -/
theorem mem_flatMap_consumers : x ∈ front.flatMap k.consumers ↔ ∃ y ∈ front, y ∈ k.producers x := by
  simp only [List.mem_flatMap, mem_consumers_iff hk hlive]

theorem mem_nextLevel : x ∈ k.nextLevel measuring retired front ↔
    (∃ y ∈ front, y ∈ k.producers x) ∧ (∀ y ∈ k.producers x, y ∈ front ++ retired) ∧
      (measuring = false → k.isMeasure x = false) := by
  rw [nextLevel, List.mem_filter, List.mem_dedup, mem_flatMap_consumers hk hlive,
    Bool.and_eq_true, List.all_eq_true]
  refine and_congr_right fun _ => and_congr (by simp only [decide_eq_true_eq]) ?_
  cases measuring <;> simp

omit hk hlive in
/-- What follows the front layer is neither retired nor in front. -/
theorem not_mem_of_consumes (h : k.IsFront measuring retired front) (hy : y ∈ front)
    (hproducer : y ∈ k.producers x) : x ∉ front ++ retired :=
  fun hmem => h.not_mem_retired hy (h.closed x hmem y hproducer)

/-- Once the front layer is retired, the next level is in front. -/
theorem next (h : k.IsFront measuring retired front) :
    k.IsFront measuring (front ++ retired) (k.nextLevel measuring retired front) where
  nodup := by
    rw [List.nodup_append]
    refine ⟨(List.nodup_dedup _).filter _, h.nodup, ?_⟩
    rintro x hx _ hmem rfl
    obtain ⟨⟨y, hy, hproducer⟩, -⟩ := (mem_nextLevel hk hlive).mp hx
    exact h.not_mem_of_consumes hy hproducer hmem
  live x hx := by
    obtain ⟨⟨y, -, hproducer⟩, -⟩ := (mem_nextLevel hk hlive).mp hx
    by_contra hnone
    simp [producers, operandsOf, Option.not_isSome_iff_eq_none.mp hnone] at hproducer
  allowed x hx := ((mem_nextLevel hk hlive).mp hx).2.2
  closed x hx y hproducer := by
    rcases List.mem_append.mp hx with hx | hx
    · exact ((mem_nextLevel hk hlive).mp hx).2.1 y hproducer
    · exact List.mem_append_right front (h.closed x hx y hproducer)
  complete x hsome hallowed hall := by
    by_cases hready : ∀ y ∈ k.producers x, y ∈ retired
    · exact List.mem_append_right _ (h.complete x hsome hallowed hready)
    · -- a producer that is not retired is in the front layer
      push Not at hready
      obtain ⟨y, hproducer, hnot⟩ := hready
      have hy := (List.mem_append.mp (hall y hproducer)).resolve_right hnot
      exact List.mem_append_left _
        ((mem_nextLevel hk hlive).mpr ⟨⟨y, hy, hproducer⟩, hall, hallowed⟩)

/-- The members of the next level, by what is retired or in front. -/
theorem mem_next_iff (h : k.IsFront measuring retired front) :
    x ∈ k.nextLevel measuring retired front ↔ (k.op? x).isSome ∧
      (measuring = false → k.isMeasure x = false) ∧ x ∉ front ++ retired ∧
        ∀ y ∈ k.producers x, y ∈ front ++ retired := by
  have hnext := h.next hk hlive
  constructor
  · intro hx
    exact ⟨hnext.live x hx, hnext.allowed x hx, hnext.not_mem_retired hx,
      hnext.closed x (List.mem_append_left _ hx)⟩
  · rintro ⟨hsome, hallowed, hnot, hall⟩
    exact (List.mem_append.mp (hnext.complete x hsome hallowed hall)).resolve_right hnot

omit hlive in
/-- The next level is in the order in which its last operands are reached. -/
theorem ordered_nextLevel (hsingle : ∀ w wire, k.wire? w = some wire → wire.users.length ≤ 1) :
    (k.nextLevel measuring retired front).Pairwise
      (k.ReachedBefore (front.flatMap k.resultsOf)) := by
  have hwalk : front.flatMap k.consumers = (front.flatMap k.resultsOf).flatMap k.usersOf := by
    rw [List.flatMap_assoc]
    refine List.flatMap_congr fun y _ => ?_
    rw [consumers, hk.users_eq_flatMap]
    rfl
  unfold nextLevel
  rw [hwalk]
  refine ((pairwise_dedup_flatMap (length_usersOf hsingle) _).filter _).imp ?_
  rintro x y ⟨n, hx, hy⟩
  obtain ⟨w, hw, hmem⟩ := List.mem_flatMap.mp hy
  exact ⟨n, fun w hw hmem => hx (List.mem_flatMap.mpr ⟨w, hmem, hk.mem_usersOf.mpr hw⟩),
    w, hk.mem_usersOf.mp hmem, hw⟩

/-! ## All levels -/

/-- Going on level by level gives the levels. -/
theorem isLevels (hsingle : ∀ w wire, k.wire? w = some wire → wire.users.length ≤ 1)
    (h : k.IsFront measuring retired front) :
    k.IsLevels measuring retired front (k.levelsAhead measuring retired front) where
  first := rfl
  mem n := by
    induction n generalizing retired front with
    | zero =>
        intro x
        have hpassed : ∀ y, Passed retired (k.levelsAhead measuring retired front) (0 + 1) y ↔
            y ∈ front ++ retired := fun y => by
          rw [passed_succ_iff]
          simp [Passed, levelsAhead]
        simp only [hpassed]
        exact h.mem_next_iff hk hlive
    | succ n ih =>
        intro x
        simp only [passed_succ_iff (n := n + 1)]
        exact ih (h.next hk hlive) x
  ordered n := by
    induction n generalizing retired front with
    | zero => exact ordered_nextLevel hk hsingle
    | succ n ih => exact ih (h.next hk hlive)

/-- There are no more levels than operations. -/
theorem levelsAhead_eq_nil (h : k.IsFront measuring retired front)
    (hn : (remaining k retired).card ≤ n) : k.levelsAhead measuring retired front n = [] := by
  induction n generalizing retired front with
  | zero =>
      by_contra hne
      exact absurd (h.remaining_card_lt hne) (by omega)
  | succ n ih =>
      by_cases hne : front = []
      · rw [hne]
        exact levelsAhead_nil _
      · have hlt := h.remaining_card_lt hne
        exact ih (h.next hk hlive) (by omega)

end Live

/-- Outside the measurement phase nothing in a level is behind a measurement. -/
theorem not_behindMeasure (h : k.IsFront false retired front)
    (hretired : ∀ x ∈ retired, k.isMeasure x = false)
    (hlevels : k.IsLevels false retired front levels) :
    ∀ n, ∀ x ∈ levels n, ¬ k.BehindMeasure x := by
  have hpassed : ∀ x, (∃ n, Passed retired levels n x) → ¬ k.BehindMeasure x := by
    refine Kernel.not_behindMeasure ?_ ?_
    · rintro x ⟨-, hx | ⟨m, -, hx⟩⟩
      · exact hretired x hx
      · cases m with
        | zero => exact h.allowed x (hlevels.first ▸ hx) rfl
        | succ m => exact ((hlevels.mem m x).mp hx).2.1 rfl
    · rintro x ⟨-, hx | ⟨m, -, hx⟩⟩ y hproducer
      · exact ⟨0, .inl (h.closed x (List.mem_append_right _ hx) y hproducer)⟩
      · cases m with
        | zero =>
            rw [hlevels.first] at hx
            exact ⟨0, .inl (h.closed x (List.mem_append_left _ hx) y hproducer)⟩
        | succ m => exact ⟨m + 1, ((hlevels.mem m x).mp hx).2.2.2 y hproducer⟩
  exact fun n x hx => hpassed x ⟨n + 1, .inr ⟨n, Nat.lt_succ_self n, hx⟩⟩

end IsFront

end Kernel

end QubitMapper
