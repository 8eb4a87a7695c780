import Mathlib.Data.Fintype.Card
import Mathlib.Data.Fintype.EquivFin
import Mathlib.Data.Fintype.Sets
import Mathlib.Data.List.Nodup
import Mathlib.Logic.Relation
import QubitMapper.Circuit.Kernel.Order

/-!
# Greedy orders

Some elements feed others, and an element may come once all that feed it are done. A greedy run over
a list takes the first element that may come, then the first of the others that may, and so on until
none may. Which elements it takes, and in which order, follows from that alone; a schedule of pending
operations is such a run, and what a run leaves over feeds itself in a cycle.

## Main results

* `Greedy.mayCome`, `Greedy.first`: each element comes after all that feed it, and is the first that
  may come where it does.
* `Greedy.eq_of_inOrder`: a run over a list in which each element may come changes nothing.
* `Greedy.left_eq_nil_iff`: a run leaves nothing over exactly if there is no cycle.
* `Kernel.Pending.schedule_greedy`: a schedule is a greedy run.
-/

namespace QubitMapper

open Relation

/-- Everything that feeds an element is done. -/
def MayCome (feeds : Nat → Nat → Prop) (done : List Nat) (x : Nat) : Prop :=
  ∀ y, feeds y x → y ∈ done

/-- Each element of a list may come after those before it and what was done before. -/
def InOrder (feeds : Nat → Nat → Prop) (done l : List Nat) : Prop :=
  ∀ i x : Nat, l[i]? = some x → MayCome feeds (done ++ l.take i) x

/-- `Greedy feeds done rest out left`: with `done` done, the run over `rest` takes `out`, in this
order, and leaves `left` over. -/
inductive Greedy (feeds : Nat → Nat → Prop) : List Nat → List Nat → List Nat → List Nat → Prop
  | stop {done rest : List Nat} (hrest : ∀ y ∈ rest, ¬ MayCome feeds done y) :
      Greedy feeds done rest [] rest
  | take {done before after out left : List Nat} {x : Nat}
      (hbefore : ∀ y ∈ before, ¬ MayCome feeds done y) (hx : MayCome feeds done x)
      (hrest : Greedy feeds (done ++ [x]) (before ++ after) out left) :
      Greedy feeds done (before ++ x :: after) (x :: out) left

variable {feeds : Nat → Nat → Prop} {done rest out left l : List Nat} {x y : Nat}

/-- What is in a list is a certain element of it or among the others. -/
theorem mem_middle {α : Type} {a b : α} {before after : List α} :
    b ∈ before ++ a :: after ↔ b = a ∨ b ∈ before ++ after := by
  rw [List.perm_middle.mem_iff, List.mem_cons]

namespace Greedy

/-- A run takes or leaves every element once. -/
theorem perm (h : Greedy feeds done rest out left) : (out ++ left).Perm rest := by
  induction h with
  | stop => exact .refl _
  | @take done before after out left x _ _ _ ih => exact (ih.cons x).trans List.perm_middle.symm

/-- What is taken comes after all that feeds it. -/
theorem mayCome (h : Greedy feeds done rest out left) : InOrder feeds done out := by
  induction h with
  | stop => exact fun i x hi => by simp at hi
  | @take done before after out left z _ hz _ ih =>
      intro i x hi
      cases i with
      | zero =>
          obtain rfl : z = x := by simpa using hi
          simpa using hz
      | succ i =>
          have hx := ih i x (by simpa using hi)
          rwa [List.append_assoc] at hx

/-- What is left over waits for something that was not taken. -/
theorem not_mayCome (h : Greedy feeds done rest out left) :
    ∀ x ∈ left, ¬ MayCome feeds (done ++ out) x := by
  induction h with
  | @stop done rest hrest => rwa [List.append_nil]
  | take _ _ _ ih => rwa [List.append_assoc] at ih

/-- What is taken is the first element that may come: the others that may stand behind it. -/
theorem first {before : Nat → Nat → Prop} (h : Greedy feeds done rest out left) :
    rest.Pairwise before → ∀ i x : Nat, out[i]? = some x → ∀ y ∈ rest, y ∉ out.take i →
      MayCome feeds (done ++ out.take i) y → y = x ∨ before x y := by
  induction h with
  | stop => exact fun _ i x hi => by simp at hi
  | @take done front back out left z hfront _ _ ih =>
      intro hpairwise i x hi y hy hnot hmay
      cases i with
      | zero =>
          obtain rfl : z = x := by simpa using hi
          rw [List.take_zero, List.append_nil] at hmay
          rcases List.mem_append.mp hy with hy | hy
          · exact absurd hmay (hfront y hy)
          · refine (List.mem_cons.mp hy).imp_right fun hback => ?_
            exact List.rel_of_pairwise_cons (List.pairwise_append.mp hpairwise).2.1 hback
      | succ i =>
          rw [List.take_succ_cons, List.mem_cons, not_or] at hnot
          have hothers : (front ++ back).Sublist (front ++ z :: back) :=
            (List.sublist_cons_self z back).append_left front
          have hy' : y ∈ front ++ back := (mem_middle.mp hy).resolve_left hnot.1
          refine ih (hpairwise.sublist hothers) i x (by simpa using hi) y hy' hnot.2 ?_
          rwa [List.append_assoc]

/-- Where each element may come in its place the run takes them as they stand. -/
theorem eq_of_inOrder (h : Greedy feeds done rest out left) :
    InOrder feeds done rest → out = rest ∧ left = [] := by
  induction h with
  | @stop done rest hrest =>
      intro hin
      cases rest with
      | nil => exact ⟨rfl, rfl⟩
      | cons z rest =>
          have hz : MayCome feeds (done ++ []) z := hin 0 z rfl
          rw [List.append_nil] at hz
          exact absurd hz (hrest z List.mem_cons_self)
  | @take done front back out left z hfront _ _ ih =>
      intro hin
      cases front with
      | cons y front =>
          have hy : MayCome feeds (done ++ []) y := hin 0 y rfl
          rw [List.append_nil] at hy
          exact absurd hy (hfront y List.mem_cons_self)
      | nil =>
          have hback : InOrder feeds (done ++ [z]) back := by
            intro i x hi
            rw [List.append_assoc]
            exact hin (i + 1) x (by simpa using hi)
          obtain ⟨rfl, rfl⟩ := ih hback
          exact ⟨rfl, rfl⟩

end Greedy

/-! ## Cycles -/

/-- Elements each of which is fed by another one of them are fed in a cycle. -/
theorem exists_cycle (hne : l ≠ []) (h : ∀ x ∈ l, ∃ y ∈ l, feeds y x) :
    ∃ x, TransGen feeds x x := by
  by_contra hnone
  let below (y x : { x // x ∈ l }) : Prop := TransGen feeds y x
  have : IsTrans _ below := ⟨fun _ _ _ hxy hyz => hxy.trans hyz⟩
  have : Std.Irrefl below := ⟨fun x hx => hnone ⟨x, hx⟩⟩
  -- without a cycle, going from an element to one that feeds it would have to end
  have hends (x : { x // x ∈ l }) : False := by
    induction x using (Finite.wellFounded_of_trans_of_irrefl below).induction with
    | _ x ih =>
        obtain ⟨y, hy, hfeeds⟩ := h x x.2
        exact ih ⟨y, hy⟩ (.single hfeeds)
  obtain ⟨x, hx⟩ := List.exists_mem_of_ne_nil l hne
  exact hends ⟨x, hx⟩

/-- In a list that has each element behind those that feed it nothing is fed in a cycle. -/
theorem InOrder.not_cycle (h : InOrder feeds [] l) (hmem : ∀ y x, feeds y x → x ∈ l) :
    ¬ TransGen feeds x x := by
  have hstep : ∀ y x, feeds y x → l.idxOf y < l.idxOf x := by
    intro y x hfeeds
    have hx := h _ x (List.getElem?_idxOf (hmem y x hfeeds)) y hfeeds
    rwa [List.nil_append, List.mem_take_iff_idxOf_lt] at hx
    exact List.mem_of_mem_take hx
  intro hcycle
  have hlt : TransGen (· < ·) (l.idxOf x) (l.idxOf x) := hcycle.lift l.idxOf hstep
  rw [transGen_eq_self] at hlt
  exact absurd hlt (Nat.lt_irrefl _)

/-- A run over all that feeds and is fed leaves nothing over exactly if there is no cycle. -/
theorem Greedy.left_eq_nil_iff (h : Greedy feeds [] rest out left)
    (hmem : ∀ y x, feeds y x → y ∈ rest ∧ x ∈ rest) :
    left = [] ↔ ¬ ∃ x, TransGen feeds x x := by
  constructor
  · rintro rfl ⟨x, hx⟩
    have hperm : out.Perm rest := by simpa using h.perm
    exact h.mayCome.not_cycle (fun y x hfeeds => hperm.mem_iff.mpr (hmem y x hfeeds).2) hx
  · intro hnone
    by_contra hne
    refine hnone (exists_cycle hne fun x hx => ?_)
    have hnot := h.not_mayCome x hx
    simp only [MayCome, not_forall] at hnot
    obtain ⟨y, hfeeds, hy⟩ := hnot
    have hall := h.perm.mem_iff.mpr (hmem y x hfeeds).1
    exact ⟨y, (List.mem_append.mp hall).resolve_left hy, hfeeds⟩

/-! ## Schedules -/

namespace Kernel.Pending

variable {order : List Nat} {taken : Std.TreeSet Nat} {p : Pending} {ps : List Pending}

/-- The first ready operation and those around it, which are left when it is taken. -/
theorem exists_of_find? (h : ps.find? (isReady taken) = some p) :
    ∃ before after, ps = before ++ p :: after ∧ isReady taken p = true ∧
      (∀ q ∈ before, ¬ isReady taken q = true) ∧
      ps.eraseP (isReady taken) = before ++ after := by
  obtain ⟨hp, before, after, rfl, hbefore⟩ := List.find?_eq_some_iff_append.mp h
  have hbefore' : ∀ q ∈ before, ¬ isReady taken q = true := by simpa using hbefore
  refine ⟨before, after, rfl, hp, hbefore', ?_⟩
  rw [List.eraseP_append_right _ hbefore', List.eraseP_cons_of_pos hp]

/-- A pending operation stands where it says and waits for those of an order that feed it. -/
structure Stands (feeds : Nat → Nat → Prop) (order : List Nat) (p : Pending) : Prop where
  op : order[p.position]? = some p.op
  needs : ∀ j : Nat, j ∈ p.needs ↔ ∃ y, order[j]? = some y ∧ feeds y p.op

/-- The positions that are taken are those of what is done. -/
def Takes (order : List Nat) (taken : Std.TreeSet Nat) (done : List Nat) : Prop :=
  ∀ j y : Nat, order[j]? = some y → (j ∈ taken ↔ y ∈ done)

theorem isReady_iff (hp : p.Stands feeds order) (htaken : Takes order taken done)
    (hmem : ∀ y x, feeds y x → y ∈ order) : isReady taken p = true ↔ MayCome feeds done p.op := by
  rw [isReady, List.all_eq_true]
  constructor
  · intro h y hfeeds
    obtain ⟨j, hj⟩ := List.mem_iff_getElem?.mp (hmem y _ hfeeds)
    have hready := h j ((hp.needs j).mpr ⟨y, hj, hfeeds⟩)
    exact (htaken j y hj).mp (Std.TreeSet.contains_iff_mem.mp hready)
  · intro h j hj
    obtain ⟨y, hy, hfeeds⟩ := (hp.needs j).mp hj
    exact Std.TreeSet.contains_iff_mem.mpr ((htaken j y hy).mpr (h y hfeeds))

theorem Takes.insert (htaken : Takes order taken done) (hnodup : order.Nodup)
    (hp : p.Stands feeds order) : Takes order (taken.insert p.position) (done ++ [p.op]) := by
  intro j y hj
  have hlt := (List.getElem?_eq_some_iff.mp hp.op).1
  have hsame : p.position = j ↔ y = p.op := by
    constructor
    · rintro rfl
      exact Option.some.inj (hj.symm.trans hp.op)
    · rintro rfl
      exact (List.getElem?_inj hlt hnodup).mp (hp.op.trans hj.symm)
  rw [Std.TreeSet.mem_insert, Nat.compare_eq_eq, htaken j y hj, hsame, List.mem_append,
    List.mem_singleton, or_comm]

/-- A schedule with enough fuel is a greedy run. It is there if the run leaves nothing over. -/
theorem schedule_greedy (hnodup : order.Nodup) (hmem : ∀ y x, feeds y x → y ∈ order) (fuel : Nat) :
    ∀ {taken : Std.TreeSet Nat} {done : List Nat} {ps : List Pending},
      (∀ p ∈ ps, p.Stands feeds order) → Takes order taken done → ps.length ≤ fuel →
      ∃ out left, Greedy feeds done (ps.map (·.op)) out left ∧
        schedule fuel taken ps = if left.isEmpty then some out else none := by
  induction fuel with
  | zero =>
      intro taken done ps _ _ hfuel
      obtain rfl := List.eq_nil_of_length_eq_zero (Nat.le_zero.mp hfuel)
      exact ⟨[], [], .stop (by simp), rfl⟩
  | succ fuel ih =>
      intro taken done ps hps htaken hfuel
      have hready : ∀ p ∈ ps, isReady taken p = true ↔ MayCome feeds done p.op :=
        fun p hp => isReady_iff (hps p hp) htaken hmem
      unfold schedule
      split
      · rename_i hnone
        refine ⟨[], _, .stop ?_, by simp⟩
        rw [List.forall_mem_map]
        intro p hp hmay
        exact List.find?_eq_none.mp hnone p hp ((hready p hp).mpr hmay)
      · rename_i p hfind
        obtain ⟨before, after, rfl, hp, hbefore, herase⟩ := exists_of_find? hfind
        have hstands : p.Stands feeds order := hps p (mem_middle.mpr (.inl rfl))
        have hothers : ∀ q ∈ before ++ after, q.Stands feeds order :=
          fun q hq => hps q (mem_middle.mpr (.inr hq))
        obtain ⟨out, left, hgreedy, hschedule⟩ := ih hothers
          (htaken.insert hnodup hstands) (by simp at hfuel ⊢; omega)
        rw [herase, hschedule]
        refine ⟨p.op :: out, left, ?_, by split <;> rfl⟩
        rw [List.map_append] at hgreedy
        rw [List.map_append, List.map_cons]
        refine .take ?_ ((hready p (by simp)).mp hp) hgreedy
        rw [List.forall_mem_map]
        exact fun q hq hmay => hbefore q hq ((hready q (by simp [hq])).mpr hmay)

end Kernel.Pending

end QubitMapper
