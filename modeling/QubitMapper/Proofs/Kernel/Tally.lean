import Mathlib.Data.Finset.Dedup
import Mathlib.Data.Finset.Card
import QubitMapper.Proofs.Kernel.Order

/-!
# Schedules by counting

A schedule looks through all pending operations for the first ready one, time and again. The same
order is had by counting: each operation keeps the number of producers it still waits for, however
many of its operands come from one of them, and taking an operation lowers the counts of those that
wait for it. An operation whose count comes down to zero joins the ready ones, of which the first is
taken next.

## Main results

* `Kernel.Pending.counted_eq`: no count is lowered below zero, and counting takes the operations of
  the schedule.
* `Kernel.sortBlock_counted`: sorting a block by counting is sorting it.
-/

namespace QubitMapper.Kernel

namespace Pending

/-- How many producers the operation at each position still waits for, and the positions of those
that wait for none and have not been taken. -/
structure Tally where
  waits : List Nat
  ready : List Nat

namespace Tally

/-- The operation at a position waits for one producer less, if it waits for any. -/
def release (t : Tally) (i : Nat) : Option Tally :=
  match t.waits[i]? with
  | some (n + 1) => some ⟨t.waits.set i n, if n = 0 then i :: t.ready else t.ready⟩
  | _ => none

/-- The positions in the order in which their operations are taken, always the first ready one. -/
def run (users : Nat → List Nat) : Nat → Tally → Option (List Nat)
  | 0, t => if t.ready.isEmpty then some [] else none
  | fuel + 1, t =>
      match t.ready.min? with
      | none => some []
      | some i =>
          (users i).foldlM release { t with ready := t.ready.erase i } >>= fun t =>
            (i :: ·) <$> run users fuel t

end Tally

/-- The positions of the operations that wait for the one at a position. -/
def users (ps : List Pending) (i : Nat) : List Nat :=
  (ps.filter (·.needs.contains i)).map (·.position)

/-- The tally before any operation is taken. A producer of several operands counts once. -/
def tally (ps : List Pending) : Tally :=
  ⟨ps.map (·.needs.dedup.length), (ps.filter (·.needs.dedup.length = 0)).map (·.position)⟩

/-- The positions of the operations that counting takes, in order. -/
def counted (ps : List Pending) : Option (List Nat) := (tally ps).run (users ps) ps.length

variable {taken : Std.TreeSet Nat} {p q : Pending} {all ps before after : List Pending} {t : Tally}
  {i j : Nat}

/-! ## Counts -/

/-- The number of producers that a pending operation still waits for. -/
def remaining (taken : Std.TreeSet Nat) (p : Pending) : Nat :=
  (p.needs.toFinset.filter (· ∉ taken)).card

theorem remaining_eq_zero_iff : p.remaining taken = 0 ↔ p.isReady taken = true := by
  simp [remaining, isReady, Finset.filter_eq_empty_iff]

/-- Before any operation is taken each producer is waited for. -/
theorem remaining_empty : p.remaining {} = p.needs.dedup.length := by
  simp [remaining, List.card_toFinset]

/-- What is ready does not wait for a position that is not taken. -/
theorem not_mem_needs (hp : p.isReady taken = true) (hi : i ∉ taken) : i ∉ p.needs := by
  intro hmem
  exact hi (Std.TreeSet.contains_iff_mem.mp (List.all_eq_true.mp hp i hmem))

/-- What is ready stays so. -/
theorem isReady_insert (hp : p.isReady taken = true) : p.isReady (taken.insert i) = true := by
  rw [isReady, List.all_eq_true] at hp ⊢
  intro j hj
  rw [Std.TreeSet.contains_insert, hp j hj, Bool.or_true]

/-- Taking a position lowers the counts of those that wait for it by one. -/
theorem remaining_insert (hi : i ∉ taken) : p.remaining (taken.insert i) =
    if i ∈ p.needs then p.remaining taken - 1 else p.remaining taken := by
  have herase : p.needs.toFinset.filter (· ∉ taken.insert i) =
      (p.needs.toFinset.filter (· ∉ taken)).erase i := by
    ext j
    have hcomm : i = j ↔ j = i := eq_comm
    simp only [Finset.mem_filter, Finset.mem_erase, Std.TreeSet.mem_insert, Nat.compare_eq_eq]
    tauto
  rw [remaining, herase, Finset.card_erase_eq_ite]
  simp [hi, remaining]

/-! ## Tallies -/

/-- A tally shows how many producers each pending operation still waits for. -/
structure Tally.Shows (t : Tally) (ps : List Pending) (count : Pending → Nat) : Prop where
  waits : ∀ p ∈ ps, t.waits[p.position]? = some (count p)
  ready : ∀ i : Nat, i ∈ t.ready ↔ ∃ p ∈ ps, p.position = i ∧ count p = 0
  nodup : t.ready.Nodup

namespace Tally.Shows

variable {count count' : Pending → Nat}

theorem congr (h : t.Shows ps count) (heq : ∀ p ∈ ps, count' p = count p) :
    t.Shows ps count' where
  waits p hp := by rw [heq p hp, h.waits p hp]
  ready i := by
    rw [h.ready]
    refine exists_congr fun p => and_congr_right fun hp => ?_
    rw [heq p hp]
  nodup := h.nodup

/-- A release lowers one count. -/
theorem release (h : t.Shows ps count) (hp : p ∈ ps) (hcount : count p ≠ 0) :
    ∃ t', t.release p.position = some t' ∧
      t'.Shows ps fun q => if q.position = p.position then count q - 1 else count q := by
  obtain ⟨n, hn⟩ := Nat.exists_eq_succ_of_ne_zero hcount
  have hwaits : t.waits[p.position]? = some (n + 1) := by rw [h.waits p hp, hn]
  have hsame : ∀ q ∈ ps, q.position = p.position → count q = n + 1 := by
    intro q hq heq
    have := h.waits q hq
    rw [heq, hwaits] at this
    exact (Option.some.inj this).symm
  have hnot : p.position ∉ t.ready := by
    intro hmem
    obtain ⟨q, hq, heq, hzero⟩ := (h.ready _).mp hmem
    rw [hsame q hq heq] at hzero
    cases hzero
  refine ⟨⟨t.waits.set p.position n, if n = 0 then p.position :: t.ready else t.ready⟩,
    by rw [Tally.release, hwaits], fun q hq => ?_, fun i => ?_, ?_⟩
  · have hlt := (List.getElem?_eq_some_iff.mp hwaits).1
    rw [List.getElem?_set]
    split
    · rename_i heq
      rw [if_pos heq.symm, hsame q hq heq.symm, Nat.add_sub_cancel]
    · rename_i hne
      rw [if_neg (Ne.symm hne), h.waits q hq]
  · have hready : (i ∈ if n = 0 then p.position :: t.ready else t.ready) ↔
        (i = p.position ∧ n = 0) ∨ i ∈ t.ready := by
      split <;> simp [*]
    rw [hready, h.ready]
    constructor
    · rintro (⟨rfl, hzero⟩ | ⟨q, hq, rfl, hzero⟩)
      · exact ⟨p, hp, rfl, by rw [if_pos rfl, hn, hzero]⟩
      · refine ⟨q, hq, rfl, ?_⟩
        split <;> omega
    · rintro ⟨q, hq, rfl, hzero⟩
      split at hzero
      · rename_i heq
        have := hsame q hq heq
        exact .inl ⟨heq, by omega⟩
      · exact .inr ⟨q, hq, rfl, hzero⟩
  · show (if n = 0 then p.position :: t.ready else t.ready).Nodup
    split
    · exact h.nodup.cons hnot
    · exact h.nodup

/-- Releases lower the counts of different operations. -/
theorem foldlM_release (is : List Nat) :
    ∀ {t : Tally} {count : Pending → Nat}, t.Shows ps count → is.Nodup →
      (∀ i ∈ is, ∃ p ∈ ps, p.position = i ∧ count p ≠ 0) →
      ∃ t', is.foldlM Tally.release t = some t' ∧
        t'.Shows ps fun q => if q.position ∈ is then count q - 1 else count q := by
  induction is with
  | nil => exact fun h _ _ => ⟨_, rfl, h.congr fun p _ => by simp⟩
  | cons i rest ih =>
      intro t count h hnodup hpending
      obtain ⟨hi, hrest⟩ := List.nodup_cons.mp hnodup
      obtain ⟨⟨p, hp, rfl, hcount⟩, hothers⟩ := List.forall_mem_cons.mp hpending
      obtain ⟨t₁, hrelease, h₁⟩ := h.release hp hcount
      obtain ⟨t₂, hfold, h₂⟩ := ih h₁ hrest fun j hj => by
        obtain ⟨q, hq, rfl, hcount⟩ := hothers j hj
        have hne : q.position ≠ p.position := fun heq => hi (heq ▸ hj)
        exact ⟨q, hq, rfl, by rwa [if_neg hne]⟩
      refine ⟨t₂, by rw [List.foldlM_cons, hrelease]; exact hfold, h₂.congr fun q hq => ?_⟩
      by_cases heq : q.position = p.position
      · rw [if_pos (heq ▸ List.mem_cons_self), if_neg (heq ▸ hi), if_pos heq]
      · simp [heq]

/-- An operation that is taken is not pending any more. -/
theorem erase (h : t.Shows (before ++ p :: after) count)
    (hne : ∀ q ∈ before ++ after, q.position ≠ p.position) :
    Shows { t with ready := t.ready.erase p.position } (before ++ after) count where
  waits q hq := h.waits q (mem_middle.mpr (.inr hq))
  ready i := by
    rw [h.nodup.mem_erase_iff, h.ready]
    constructor
    · rintro ⟨hi, q, hq, rfl, hzero⟩
      rcases mem_middle.mp hq with rfl | hq
      · exact absurd rfl hi
      · exact ⟨q, hq, rfl, hzero⟩
    · rintro ⟨q, hq, rfl, hzero⟩
      exact ⟨hne q hq, q, mem_middle.mpr (.inr hq), rfl, hzero⟩
  nodup := h.nodup.erase _

/-- The first ready position is that of the first ready operation. -/
theorem min?_ready (h : t.Shows ps (remaining taken))
    (hsorted : ps.Pairwise fun p q => p.position < q.position) :
    t.ready.min? = (ps.find? (isReady taken)).map (·.position) := by
  have hready (i : Nat) : i ∈ t.ready ↔ ∃ p ∈ ps, p.position = i ∧ p.isReady taken = true := by
    simp only [h.ready, remaining_eq_zero_iff]
  cases hfind : ps.find? (isReady taken) with
  | none =>
      rw [Option.map_none, List.min?_eq_none_iff, List.eq_nil_iff_forall_not_mem]
      intro i hi
      obtain ⟨p, hp, -, hpready⟩ := (hready i).mp hi
      exact List.find?_eq_none.mp hfind p hp hpready
  | some p =>
      obtain ⟨before, after, rfl, hp, hbefore, -⟩ := exists_of_find? hfind
      rw [Option.map_some, List.min?_eq_some_iff]
      refine ⟨(hready _).mpr ⟨p, by simp, rfl, hp⟩, fun i hi => ?_⟩
      obtain ⟨q, hq, rfl, hqready⟩ := (hready i).mp hi
      rcases List.mem_append.mp hq with hq | hq
      · exact absurd hqready (hbefore q hq)
      · rcases List.mem_cons.mp hq with rfl | hq
        · exact Nat.le_refl _
        · exact Nat.le_of_lt
            (List.rel_of_pairwise_cons (List.pairwise_append.mp hsorted).2.1 hq)

end Tally.Shows

/-! ## Runs -/

theorem mem_users : j ∈ users all i ↔ ∃ p ∈ all, i ∈ p.needs ∧ p.position = j := by
  simp [users, and_assoc]

/-- Some of all operations are pending, the others were ready when they were taken, and the tally
shows how many producers each pending one still waits for. -/
structure Counts (all : List Pending) (taken : Std.TreeSet Nat) (ps : List Pending) (t : Tally) :
    Prop where
  sublist : ps.Sublist all
  gone : ∀ p ∈ all, p ∈ ps ∨ p.isReady taken = true
  untaken : ∀ p ∈ ps, p.position ∉ taken
  shows : t.Shows ps (remaining taken)

theorem nodup_positions (hsorted : ps.Pairwise fun p q => p.position < q.position) :
    (ps.map (·.position)).Nodup :=
  List.pairwise_map.mpr (hsorted.imp Nat.ne_of_lt)

namespace Counts

/-- What waits for an operation that is taken was not ready, so it is pending and has a count. -/
theorem waiting (h : Counts all taken (before ++ p :: after) t) (hp : p.isReady taken = true)
    (hq : q ∈ all) (hneeds : p.position ∈ q.needs) :
    q ∈ before ++ after ∧ q.remaining taken ≠ 0 := by
  have huntaken := h.untaken p (mem_middle.mpr (.inl rfl))
  have hnot : ¬ q.isReady taken = true := fun hready => not_mem_needs hready huntaken hneeds
  refine ⟨?_, fun hzero => hnot (remaining_eq_zero_iff.mp hzero)⟩
  rcases mem_middle.mp ((h.gone q hq).resolve_right hnot) with rfl | hq
  · exact absurd hp hnot
  · exact hq

/-- Taking a ready operation and releasing those that wait for it keeps the tally. -/
theorem take (h : Counts all taken (before ++ p :: after) t)
    (hsorted : all.Pairwise fun p q => p.position < q.position) (hp : p.isReady taken = true) :
    ∃ t', (users all p.position).foldlM Tally.release
        { t with ready := t.ready.erase p.position } = some t' ∧
      Counts all (taken.insert p.position) (before ++ after) t' := by
  have huntaken := h.untaken p (mem_middle.mpr (.inl rfl))
  have hall : ∀ q ∈ before ++ after, q ∈ all :=
    fun q hq => h.sublist.subset (mem_middle.mpr (.inr hq))
  have hne : ∀ q ∈ before ++ after, q.position ≠ p.position := by
    have hpairwise := (hsorted.sublist h.sublist).imp Nat.ne_of_lt
    rw [List.pairwise_middle fun h => h.symm] at hpairwise
    exact fun q hq => (List.rel_of_pairwise_cons hpairwise hq).symm
  have husers : (users all p.position).Nodup :=
    (nodup_positions hsorted).sublist (List.filter_sublist.map _)
  have huser : ∀ q ∈ all, q.position ∈ users all p.position ↔ p.position ∈ q.needs := by
    intro q hq
    rw [mem_users]
    constructor
    · rintro ⟨q', hq', hneeds, heq⟩
      exact List.inj_on_of_nodup_map (nodup_positions hsorted) hq' hq heq ▸ hneeds
    · exact fun hneeds => ⟨q, hq, hneeds, rfl⟩
  obtain ⟨t', hfold, hshows⟩ := (h.shows.erase hne).foldlM_release _ husers fun i hi => by
    obtain ⟨q, hq, hneeds, rfl⟩ := mem_users.mp hi
    obtain ⟨hpending, hcount⟩ := h.waiting hp hq hneeds
    exact ⟨q, hpending, rfl, hcount⟩
  refine ⟨t', hfold, ?_, fun q hq => ?_, fun q hq => ?_, hshows.congr fun q hq => ?_⟩
  · exact ((List.sublist_cons_self p after).append_left before).trans h.sublist
  · rcases h.gone q hq with hq | hready
    · rcases mem_middle.mp hq with rfl | hq
      · exact .inr (isReady_insert hp)
      · exact .inl hq
    · exact .inr (isReady_insert hready)
  · rw [Std.TreeSet.mem_insert, Nat.compare_eq_eq, not_or]
    exact ⟨(hne q hq).symm, h.untaken q (mem_middle.mpr (.inr hq))⟩
  · simp only [remaining_insert huntaken, huser q (hall q hq)]

end Counts

/-- Counting takes the operations of the schedule; it takes them all exactly if there is one. -/
theorem run_eq {order : List Nat} (hop : ∀ p ∈ all, order[p.position]? = some p.op)
    (hsorted : all.Pairwise fun p q => p.position < q.position) (fuel : Nat) :
    ∀ {taken : Std.TreeSet Nat} {ps : List Pending} {t : Tally}, Counts all taken ps t →
      ps.length ≤ fuel → ∃ is, t.run (users all) fuel = some is ∧ schedule fuel taken ps =
        if is.length = ps.length then some (is.filterMap (order[·]?)) else none := by
  induction fuel with
  | zero =>
      intro taken ps t h hfuel
      obtain rfl := List.eq_nil_of_length_eq_zero (Nat.le_zero.mp hfuel)
      have hnone : t.ready = [] := by
        rw [List.eq_nil_iff_forall_not_mem]
        intro i hi
        obtain ⟨p, hp, -⟩ := (h.shows.ready i).mp hi
        exact List.not_mem_nil hp
      exact ⟨[], by simp [Tally.run, hnone], rfl⟩
  | succ fuel ih =>
      intro taken ps t h hfuel
      have hmin := h.shows.min?_ready (hsorted.sublist h.sublist)
      unfold Tally.run schedule
      rw [hmin]
      cases hfind : ps.find? (isReady taken) with
      | none =>
          refine ⟨[], rfl, ?_⟩
          cases ps <;> rfl
      | some p =>
          obtain ⟨before, after, rfl, hp, -, herase⟩ := exists_of_find? hfind
          obtain ⟨t', hrelease, h'⟩ := h.take hsorted hp
          obtain ⟨is, hrun, hschedule⟩ := ih h' (by simp at hfuel ⊢; omega)
          have hplace : order[p.position]? = some p.op :=
            hop p (h.sublist.subset (mem_middle.mpr (.inl rfl)))
          refine ⟨p.position :: is, ?_, ?_⟩
          · simp only [Option.map_some, hrelease, Option.bind_eq_bind, Option.bind_some, hrun,
              Option.map_eq_map]
          · simp only [herase, hschedule, List.filterMap_cons_some hplace, List.length_append,
              List.length_cons, ← Nat.add_assoc, Nat.add_right_cancel_iff]
            split <;> rfl

/-- No count is lowered below zero, and counting takes the operations of the schedule. -/
theorem counted_eq {order : List Nat}
    (hplace : ∀ (i : Nat) p, ps[i]? = some p → p.position = i ∧ order[i]? = some p.op) :
    ∃ is, counted ps = some is ∧ schedule ps.length {} ps =
      if is.length = ps.length then some (is.filterMap (order[·]?)) else none := by
  have hsorted : ps.Pairwise fun p q => p.position < q.position := by
    rw [List.pairwise_iff_getElem]
    intro i j hi hj hlt
    rwa [(hplace i _ (List.getElem?_eq_getElem hi)).1, (hplace j _ (List.getElem?_eq_getElem hj)).1]
  have hop : ∀ p ∈ ps, order[p.position]? = some p.op := by
    intro p hp
    obtain ⟨i, hi⟩ := List.mem_iff_getElem?.mp hp
    obtain ⟨rfl, hop⟩ := hplace i p hi
    exact hop
  refine run_eq hop hsorted ps.length ⟨List.Sublist.refl _, fun p hp => .inl hp,
    fun p _ => by simp, ⟨fun p hp => ?_, fun i => ?_, ?_⟩⟩ (Nat.le_refl _)
  · obtain ⟨i, hi⟩ := List.mem_iff_getElem?.mp hp
    obtain ⟨rfl, -⟩ := hplace i p hi
    simp [tally, hi, remaining_empty]
  · simp [tally, remaining_empty, and_comm, and_assoc]
  · exact (nodup_positions hsorted).sublist (List.filter_sublist.map _)

end Pending

/-- Sorting a block by counting is sorting it. -/
theorem sortBlock_counted {k : Kernel} {b : Nat} {order : List Nat} {ps : List Pending}
    (hblock : k.blocks[b]? = some order) (hps : k.pending order = .ok ps) :
    ∃ is, Pending.counted ps = some is ∧ k.sortBlock b =
      if is.length = order.length then .ok (k.setBlock b (is.filterMap (order[·]?)))
      else .error (.cycle b) := by
  obtain ⟨is, hcounted, hschedule⟩ := Pending.counted_eq fun i p => getElem?_of_pending hps
  have hlength : ps.length = order.length := length_pending hps
  rw [hlength] at hschedule
  refine ⟨is, hcounted, ?_⟩
  simp only [sortBlock, block_eq_ok_iff.mpr hblock, bind, Except.bind, hps, hschedule]
  by_cases hall : is.length = order.length
  · simp only [hall, ↓reduceIte]
    rfl
  · simp only [hall, ↓reduceIte]

end QubitMapper.Kernel
