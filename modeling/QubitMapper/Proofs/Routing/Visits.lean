import Mathlib.Data.List.Dedup
import QubitMapper.Proofs.Kernel.Checked
import QubitMapper.Proofs.Routing.Frontier

/-!
# What each visit releases

An operation becomes ready when it is reached through the last of its operands. Here the operations
that become ready are listed in order: visit by visit, and within a visit in the order in which
their last operands are reached. What a frontier releases and holds back is read off this list, so
that nothing is released early, twice or never.

## Main results

* `Frontier.reachAll_eq`: what some visits release and hold back, in order.
* `Frontier.Counts.visit`: the visit of an operation, by the producers visited before.
* `Kernel.Built.visits_release`: what becomes of all operations when some are visited one by one and
  the measurement phase begins in between.
-/

namespace QubitMapper

/-- An operation with the labels of its operands. -/
def Kernel.readyOp (k : Kernel) (labels : Labels) (x : Nat) : ReadyOp :=
  ⟨x, ((k.operandsOf x).mapM (labels[·]?)).getD []⟩

/-- All operands of an operation have labels. -/
def Kernel.LabelledOp (k : Kernel) (labels : Labels) (x : Nat) : Prop :=
  ∃ qubits, (k.operandsOf x).mapM (labels[·]?) = some qubits

namespace Frontier

variable {k : Kernel} {labels : Labels} {mode : VisitMode} {f : Frontier} {us : List Nat}
  {x y op : Nat}

/-! ## What becomes ready -/

/-- The operations that some visits reach through the last of their operands, in the order in which
they do. -/
def completed (k : Kernel) (f : Frontier) (us : List Nat) : List Nat :=
  us.dedup.filter fun x => f.count x + us.count x == (k.operandsOf x).length

/-- Whether an operation that becomes ready is released at once: a measurement is held back until
the measurement phase. -/
def goes (k : Kernel) (f : Frontier) (x : Nat) : Bool := f.measuring || !k.isMeasure x

/-- No operation is reached more often than it has operands, and what is held back is not reached
again. -/
structure Fits (k : Kernel) (labels : Labels) (f : Frontier) (us : List Nat) : Prop where
  labelled : ∀ x ∈ us, k.LabelledOp labels x
  count : ∀ x ∈ us, f.count x + us.count x ≤ (k.operandsOf x).length
  deferred : ∀ r ∈ f.deferred, r.op ∉ us

/-- One visit, of an operation with labelled operands that is not held back. -/
private theorem reach_eq (mode : VisitMode) (hlabelled : k.LabelledOp labels op)
    (hdeferred : ∀ r ∈ f.deferred, r.op ≠ op) :
    (f.reach k labels mode op).2 =
        (if f.count op + 1 = (k.operandsOf op).length ∧ f.goes k op = true then
          [k.readyOp labels op] else []) ∧
      (f.reach k labels mode op).1.deferred = f.deferred ++
        (if f.count op + 1 = (k.operandsOf op).length ∧ f.goes k op = false ∧ mode = .retire then
          [k.readyOp labels op] else []) := by
  obtain ⟨qubits, hqubits⟩ := hlabelled
  have hready : k.readyOp labels op = ⟨op, qubits⟩ := by rw [Kernel.readyOp, hqubits]; rfl
  unfold reach goes Kernel.isMeasure
  cases ho : k.op? op with
  | none =>
      have harity : (k.operandsOf op).length = 0 := by simp [Kernel.operandsOf, ho]
      simp [harity]
  | some o =>
      have hall : f.deferred.all (·.op != op) = true := by
        simpa [List.all_eq_true] using hdeferred
      rw [Kernel.operandsOf_of_op? ho] at hqubits ⊢
      by_cases hcount : f.count op + 1 = o.operands.length
      · cases hgo : (f.measuring || !o.kind.isMeasure) <;> cases mode <;>
          simp [hcount, hqubits, hready, hgo, hall]
      · simp [hcount]

/-- What becomes ready at the first of some visits, and what does later. -/
private theorem completed_cons {rest : List Nat} {f' : Frontier} (h : Fits k labels f (op :: rest))
    (hcount : ∀ x, f'.count x = f.count x + [op].count x) :
    completed k f (op :: rest) =
      (if f.count op + 1 = (k.operandsOf op).length then [op] else []) ++ completed k f' rest := by
  have hrest : ∀ x, f'.count x + rest.count x = f.count x + (op :: rest).count x := by
    intro x
    rw [hcount, Nat.add_assoc, ← List.count_append]
    rfl
  have htotal : f.count op + (op :: rest).count op = f.count op + 1 + rest.count op := by
    rw [List.count_cons_self]
    omega
  unfold completed
  simp only [hrest]
  by_cases hop : op ∈ rest
  · -- the operation is reached again, so it is not ready yet
    have hle := h.count op List.mem_cons_self
    have hpos := List.count_pos_iff.mpr hop
    rw [htotal] at hle
    rw [List.dedup_cons_of_mem hop, if_neg (by omega), List.nil_append]
  · rw [List.dedup_cons_of_notMem hop, List.filter_cons, htotal, List.count_eq_zero.mpr hop]
    by_cases hfull : f.count op + 1 = (k.operandsOf op).length <;> simp [hfull]

/-- What fits some visits fits the later ones after the first. -/
private theorem Fits.tail {rest : List Nat} (mode : VisitMode)
    (h : Fits k labels f (op :: rest)) :
    Fits k labels (f.reach k labels mode op).1 rest where
  labelled x hx := h.labelled x (List.mem_cons_of_mem _ hx)
  count x hx := by
    rw [count_reach, Nat.add_assoc, ← List.count_append]
    exact h.count x (List.mem_cons_of_mem _ hx)
  deferred r hr hmem := by
    have hold : ∀ r ∈ f.deferred, r.op ≠ op := fun r hr heq =>
      h.deferred r hr (heq ▸ List.mem_cons_self)
    rw [(reach_eq mode (h.labelled op List.mem_cons_self) hold).2, List.mem_append] at hr
    rcases hr with hr | hr
    · exact h.deferred r hr (List.mem_cons_of_mem _ hmem)
    · split at hr
      · rename_i hfull
        rw [List.mem_singleton.mp hr] at hmem
        have hle := h.count op List.mem_cons_self
        have hpos := List.count_pos_iff.mpr hmem
        rw [List.count_cons_self] at hle
        change 0 < rest.count op at hpos
        omega
      · cases hr

private theorem goes_reach : (f.reach k labels mode op).1.goes k = f.goes k := by
  funext x
  have hmeasuring : (f.reach k labels mode op).1.measuring = f.measuring :=
    measuring_reachAll [op] f
  rw [goes, goes, hmeasuring]

/-- Some visits release what becomes ready and goes at once, and hold back the rest of what becomes
ready if they retire. -/
theorem reachAll_eq (mode : VisitMode) (us : List Nat) : ∀ {f : Frontier}, Fits k labels f us →
    (f.reachAll k labels mode us).2 =
        ((completed k f us).filter (f.goes k)).map (k.readyOp labels) ∧
      (f.reachAll k labels mode us).1.deferred = f.deferred ++
        if mode = .retire then
          ((completed k f us).filter fun x => !f.goes k x).map (k.readyOp labels)
        else [] := by
  induction us with
  | nil => simp [reachAll, completed]
  | cons op rest ih =>
      intro f h
      have hold : ∀ r ∈ f.deferred, r.op ≠ op := fun r hr heq =>
        h.deferred r hr (heq ▸ List.mem_cons_self)
      obtain ⟨hnow, hheld⟩ := reach_eq mode (h.labelled op List.mem_cons_self) hold
      obtain ⟨hlater, hheld'⟩ := ih (h.tail mode)
      rw [goes_reach] at hlater hheld'
      have hreleased : (f.reachAll k labels mode (op :: rest)).2 =
          (f.reach k labels mode op).2 ++
            ((f.reach k labels mode op).1.reachAll k labels mode rest).2 := rfl
      have hdeferred : (f.reachAll k labels mode (op :: rest)).1.deferred =
          ((f.reach k labels mode op).1.reachAll k labels mode rest).1.deferred := rfl
      rw [hreleased, hdeferred, hnow, hlater, hheld', hheld,
        completed_cons h (count_reach k labels mode f op)]
      by_cases hfull : f.count op + 1 = (k.operandsOf op).length
      · cases hgo : f.goes k op <;> by_cases hmode : mode = .retire <;> simp [hfull, hgo, hmode]
      · by_cases hmode : mode = .retire <;> simp [hfull, hmode]

end Frontier

/-! ## Visits by what was visited before -/

namespace Kernel

variable {k : Kernel} {labels : Labels} {seen : List Nat} {x y : Nat}

/-- The consumers of the results of an operation; none if it is not there. -/
def consumers (k : Kernel) (y : Nat) : List Nat := ((k.users y).toOption).getD []

/-- The operations that become ready when an operation is visited after others, in the order in
which their last operands are reached: those that consume its results and whose producers are all
visited then. -/
def completedBy (k : Kernel) (seen : List Nat) (y : Nat) : List Nat :=
  (k.consumers y).dedup.filter fun x => (k.producers x).all (· ∈ y :: seen)

/-- The operations that become ready at each of some visits. -/
def completions (k : Kernel) : List Nat → List Nat → List (List Nat)
  | _, [] => []
  | seen, y :: rest => k.completedBy seen y :: k.completions (y :: seen) rest

theorem completions_append (l l' : List Nat) : ∀ seen : List Nat,
    k.completions seen (l ++ l') =
      k.completions seen l ++ k.completions (l.reverse ++ seen) l' := by
  induction l with
  | nil => exact fun _ => rfl
  | cons y rest ih => simp [completions, ih]

/-- What becomes ready at the visit in some place. -/
theorem getElem?_completions (l : List Nat) : ∀ {seen : List Nat} {i : Nat}, l[i]? = some y →
    (k.completions seen l)[i]? = some (k.completedBy ((l.take i).reverse ++ seen) y) := by
  induction l with
  | nil => simp
  | cons z rest ih =>
      intro seen i hi
      cases i with
      | zero =>
          obtain rfl : z = y := by simpa using hi
          rfl
      | succ i =>
          rw [List.getElem?_cons_succ] at hi
          simp [completions, ih hi]

/-- Consumers are counted by operands. -/
theorem Consistent.users_consumers (hk : k.Consistent) (y : Nat) :
    k.users y = .ok (k.consumers y) ∧
      ∀ x, (k.consumers y).count x = (k.operandsOf x).countP (· ∈ k.resultsOf y) := by
  unfold consumers
  cases hy : k.op? y with
  | none =>
      have hresults : k.resultsOf y = [] := by simp [resultsOf, hy]
      simp [users, hy, hresults, Except.toOption]
  | some o =>
      obtain ⟨us, hus, hcount⟩ := hk.users_eq hy
      rw [hus, resultsOf_of_op? hy]
      exact ⟨rfl, hcount⟩

section Live

variable (hk : k.Consistent) (hlive : ∀ x, ∀ w ∈ k.operandsOf x, ∀ wire, k.wire? w = some wire →
  ∃ o, k.op? wire.producer = some o ∧ w ∈ o.results)

include hk hlive

/-- An operation consumes results of its producers. -/
theorem mem_consumers_iff : x ∈ k.consumers y ↔ y ∈ k.producers x := by
  rw [← List.count_pos_iff, (hk.users_consumers y).2, List.countP_pos_iff, producers,
    List.mem_filterMap]
  simp only [decide_eq_true_eq, Option.map_eq_some_iff, mem_resultsOf]
  constructor
  · rintro ⟨w, hw, o, ho, hmem⟩
    exact ⟨w, hw, hk.producer_of_mem ho hmem⟩
  · rintro ⟨w, hw, wire, hwire, rfl⟩
    exact ⟨w, hw, hlive x w hw wire hwire⟩

theorem mem_completedBy : x ∈ k.completedBy seen y ↔
    y ∈ k.producers x ∧ ∀ z ∈ k.producers x, z ∈ y :: seen := by
  rw [completedBy, List.mem_filter, List.mem_dedup, mem_consumers_iff hk hlive, List.all_eq_true]
  simp only [decide_eq_true_eq]

/-- What becomes ready at some visits of operations that are new has a producer among these, and no
other producers than these and those visited before. -/
theorem mem_completions (l : List Nat) : ∀ {seen : List Nat}, (l ++ seen).Nodup →
    (x ∈ (k.completions seen l).flatten ↔
      (∀ z ∈ k.producers x, z ∈ l ++ seen) ∧ ¬ ∀ z ∈ k.producers x, z ∈ seen) := by
  induction l with
  | nil => simp [completions]
  | cons y rest ih =>
      intro seen hnodup
      have hy : y ∉ seen := fun hmem =>
        (List.nodup_cons.mp hnodup).1 (List.mem_append_right rest hmem)
      have hmiddle : ∀ z, z ∈ y :: rest ++ seen ↔ z ∈ rest ++ y :: seen := fun z =>
        List.perm_middle.symm.mem_iff
      rw [completions, List.flatten_cons, List.mem_append, mem_completedBy hk hlive,
        ih (List.perm_middle.nodup_iff.mpr hnodup)]
      simp only [hmiddle]
      constructor
      · rintro (⟨hproducer, hall⟩ | ⟨hall, hnot⟩)
        · exact ⟨fun z hz => List.mem_append_right rest (hall z hz), fun h => hy (h y hproducer)⟩
        · exact ⟨hall, fun h => hnot fun z hz => List.mem_cons_of_mem y (h z hz)⟩
      · rintro ⟨hall, hnot⟩
        by_cases hready : ∀ z ∈ k.producers x, z ∈ y :: seen
        · -- what is ready only now has the operation itself as a producer
          refine .inl ⟨?_, hready⟩
          by_contra hproducer
          refine hnot fun z hz => (List.mem_cons.mp (hready z hz)).resolve_left ?_
          rintro rfl
          exact hproducer hz
        · exact .inr ⟨hall, hready⟩

/-- No operation becomes ready twice. -/
theorem nodup_completions (l : List Nat) : ∀ {seen : List Nat}, (l ++ seen).Nodup →
    (k.completions seen l).flatten.Nodup := by
  induction l with
  | nil => simp [completions]
  | cons y rest ih =>
      intro seen hnodup
      have hnodup' := List.perm_middle.nodup_iff.mpr hnodup
      rw [completions, List.flatten_cons, List.nodup_append]
      refine ⟨(List.nodup_dedup _).filter _, ih hnodup', ?_⟩
      rintro x hx _ hx' rfl
      rw [mem_completedBy hk hlive] at hx
      rw [mem_completions hk hlive rest hnodup'] at hx'
      exact hx'.2 hx.2

end Live

end Kernel

/-! ## Visits of a frontier -/

namespace Frontier

variable {k : Kernel} {labels : Labels} {f f' : Frontier} {seen : List Nat} {y : Nat}

/-- Operations visited in order, and what each visit releases. -/
def visitEach (k : Kernel) (labels : Labels) (f : Frontier) :
    List Nat → Except CircuitError (Frontier × List (List ReadyOp))
  | [] => .ok (f, [])
  | y :: rest => do
      let (f, released) ← f.visit k labels y
      let (f, more) ← visitEach k labels f rest
      return (f, released :: more)

/-- Every operation has been reached once for each operand that visited operations produce, and what
is held back waits for nothing. -/
structure Counts (k : Kernel) (seen : List Nat) (f : Frontier) : Prop where
  count : ∀ x, f.count x = (k.operandsOf x).countP (· ∈ seen.flatMap k.resultsOf)
  deferred : ∀ r ∈ f.deferred, ∀ z ∈ k.producers r.op, z ∈ seen

theorem Counts.initial (k : Kernel) : Counts k [] .initial where
  count := by simp [Frontier.initial, Frontier.count]
  deferred := by simp [Frontier.initial]

theorem Counts.enterMeasurement (h : Counts k seen f) : Counts k seen f.enterMeasurement.1 where
  count := h.count
  deferred := by simp [Frontier.enterMeasurement]

section Live

variable (hk : k.Consistent) (hlive : ∀ x, ∀ w ∈ k.operandsOf x, ∀ wire, k.wire? w = some wire →
    ∃ o, k.op? wire.producer = some o ∧ w ∈ o.results)
  (hlabels : ∀ x, k.LabelledOp labels x)

include hk hlive hlabels

/-- The visit of one more operation releases, or holds back, what becomes ready by it. -/
theorem Counts.visit (h : Counts k seen f) (hy : y ∉ seen) :
    ∃ f', f.visit k labels y =
        .ok (f', ((k.completedBy seen y).filter (f.goes k)).map (k.readyOp labels)) ∧
      f'.deferred = f.deferred ++
        ((k.completedBy seen y).filter fun x => !f.goes k x).map (k.readyOp labels) ∧
      f'.measuring = f.measuring ∧ Counts k (y :: seen) f' := by
  obtain ⟨hus, hcount⟩ := hk.users_consumers y
  have htotal : ∀ x, f.count x + (k.consumers y).count x =
      (k.operandsOf x).countP (· ∈ (y :: seen).flatMap k.resultsOf) := by
    intro x
    have hvisited : ∀ z, z ∈ y :: seen ↔ z ∈ seen ∨ z = y := by simp [or_comm]
    rw [h.count, hcount, Kernel.countP_produced hvisited hk hy]
  have hcompleted : completed k f (k.consumers y) = k.completedBy seen y := by
    refine List.filter_congr fun x _ => ?_
    rw [htotal, Bool.eq_iff_iff, beq_iff_eq, List.countP_eq_length]
    simp only [decide_eq_true_eq, List.all_eq_true]
    exact Kernel.operands_produced_iff hk (hlive x)
  have hfits : Fits k labels f (k.consumers y) :=
    { labelled := fun x _ => hlabels x
      count := fun x _ => htotal x ▸ List.countP_le_length
      deferred := fun r hr hmem =>
        hy (h.deferred r hr y ((Kernel.mem_consumers_iff hk hlive).mp hmem)) }
  obtain ⟨hreleased, hdeferred⟩ := reachAll_eq .retire _ hfits
  rw [hcompleted] at hreleased hdeferred
  refine ⟨(f.reachAll k labels .retire (k.consumers y)).1, ?_, by simpa using hdeferred,
    measuring_reachAll _ f, fun x => ?_, ?_⟩
  · rw [Frontier.visit, hus, ← hreleased]
    rfl
  · rw [count_reachAll, htotal]
  · intro r hr z hz
    rw [hdeferred, if_pos rfl, List.mem_append] at hr
    rcases hr with hr | hr
    · exact List.mem_cons_of_mem y (h.deferred r hr z hz)
    · obtain ⟨x, hx, rfl⟩ := List.mem_map.mp hr
      have hx' := List.mem_of_mem_filter hx
      exact ((Kernel.mem_completedBy hk hlive).mp hx').2 z hz

/-- Visits in order release, each in turn, what becomes ready by them and goes at once, and hold
back the rest of what becomes ready. -/
theorem Counts.visitEach (l : List Nat) : ∀ {seen : List Nat} {f : Frontier}, Counts k seen f →
    (l ++ seen).Nodup → ∃ f', visitEach k labels f l =
        .ok (f', (k.completions seen l).map fun xs =>
          (xs.filter (f.goes k)).map (k.readyOp labels)) ∧
      f'.deferred = f.deferred ++
        ((k.completions seen l).flatten.filter fun x => !f.goes k x).map (k.readyOp labels) ∧
      f'.measuring = f.measuring ∧ Counts k (l.reverse ++ seen) f' := by
  induction l with
  | nil => exact fun {seen f} h _ => ⟨f, rfl, by simp [Kernel.completions], rfl, h⟩
  | cons y rest ih =>
      intro seen f h hnodup
      have hy : y ∉ seen := fun hmem =>
        (List.nodup_cons.mp hnodup).1 (List.mem_append_right rest hmem)
      obtain ⟨f₁, hvisit, hdeferred₁, hmeasuring₁, h₁⟩ := h.visit hk hlive hlabels hy
      obtain ⟨f₂, hrest, hdeferred₂, hmeasuring₂, h₂⟩ :=
        ih h₁ (List.perm_middle.nodup_iff.mpr hnodup)
      have hgoes : f₁.goes k = f.goes k := by
        funext x
        rw [goes, goes, hmeasuring₁]
      rw [hgoes] at hrest hdeferred₂
      refine ⟨f₂, ?_, ?_, hmeasuring₂.trans hmeasuring₁, by simpa using h₂⟩
      · unfold Frontier.visitEach
        simp [hvisit, hrest, Kernel.completions, bind, Except.bind, pure, Except.pure]
      · rw [hdeferred₂, hdeferred₁, Kernel.completions, List.flatten_cons, List.filter_append,
          List.map_append, List.append_assoc]

end Live

end Frontier

/-! ## Kernels that calls have made -/

namespace Kernel

variable {k : Kernel} {labels : Labels} {before after : List Nat}

/-- In a kernel that calls have made, a wire with a live producer is one of its results. -/
theorem Built.exists_producer (hk : k.Built) (hlive : k.OperandsLive) (x : Nat) :
    ∀ w ∈ k.operandsOf x, ∀ wire, k.wire? w = some wire →
      ∃ o, k.op? wire.producer = some o ∧ w ∈ o.results := by
  intro w hw wire hwire
  obtain ⟨o, ho⟩ := Option.isSome_iff_exists.mp (hlive x w hw wire hwire)
  exact ⟨o, ho, hk.delivered w wire o hwire ho⟩

/-- The visits of different operations of a kernel that calls have made, one by one, with the
measurement phase begun in between. Each operation with an operand becomes ready at the visit of the
last of its producers, and at no other one. Then it is released, unless it is a measurement and the
phase has not begun: those are held back, and the beginning of the phase releases them in the order
in which they became ready. What is released carries the labels of its operands. -/
theorem Built.visits_release (hk : k.Built) (hlive : k.OperandsLive)
    (hlabels : ∀ x, ∀ w ∈ k.operandsOf x, ∃ v : Nat, labels[w]? = some v)
    (hnodup : (before ++ after).Nodup) :
    let ready := k.completions [] before
    let ready' := k.completions before.reverse after
    (∃ f f', Frontier.visitEach k labels .initial before =
        .ok (f, ready.map fun xs => (xs.filter (!k.isMeasure ·)).map (k.readyOp labels)) ∧
      f.enterMeasurement.2 = (ready.flatten.filter k.isMeasure).map (k.readyOp labels) ∧
      Frontier.visitEach k labels f.enterMeasurement.1 after =
        .ok (f', ready'.map (·.map (k.readyOp labels))) ∧
      f'.deferred = []) ∧
    (∀ x, (k.readyOp labels x).op = x ∧ (k.readyOp labels x).Carries k labels) ∧
    (∀ (i y : Nat), (before ++ after)[i]? = some y → ∃ xs, (ready ++ ready')[i]? = some xs ∧
      ∀ x, x ∈ xs ↔ y ∈ k.producers x ∧
        ∀ z ∈ k.producers x, z ∈ (before ++ after).take (i + 1)) ∧
    (ready ++ ready').flatten.Nodup ∧
    ∀ x, x ∈ (ready ++ ready').flatten ↔
      k.operandsOf x ≠ [] ∧ ∀ z ∈ k.producers x, z ∈ before ++ after := by
  intro ready ready'
  have hconsistent := hk.coherent.toConsistent
  have hproducer := hk.exists_producer hlive
  have hlabelled : ∀ x, k.LabelledOp labels x := fun x =>
    (exists_forall₂ (hlabels x)).imp fun qubits h => mapM_eq_some_iff.mpr h
  have hall : k.completions [] (before ++ after) = ready ++ ready' := by
    rw [completions_append, List.append_nil]
  have hnodup' : (before ++ after ++ []).Nodup := by rwa [List.append_nil]
  rw [← hall]
  refine ⟨?_, fun x => ⟨rfl, ?_⟩, fun i y hi => ?_, ?_, fun x => ?_⟩
  · obtain ⟨f, hvisits, hdeferred, hmeasuring, hcounts⟩ :=
      (Frontier.Counts.initial k).visitEach hconsistent hproducer hlabelled before
        (by simpa using (List.nodup_append.mp hnodup).1)
    rw [List.append_nil] at hcounts
    have hnodup'' : (after ++ before.reverse).Nodup := by
      refine (List.perm_append_comm.trans ?_).nodup_iff.mp hnodup
      exact (List.reverse_perm before).symm.append_left after
    obtain ⟨f', hvisits', hdeferred', -⟩ :=
      hcounts.enterMeasurement.visitEach hconsistent hproducer hlabelled after hnodup''
    have hgoes : Frontier.initial.goes k = (!k.isMeasure ·) := by
      funext x
      simp [Frontier.goes, Frontier.initial]
    have hgoes' : f.enterMeasurement.1.goes k = fun _ => true := by
      funext x
      simp [Frontier.goes, Frontier.enterMeasurement]
    simp only [hgoes, Bool.not_not] at hvisits hdeferred
    simp only [hgoes', Bool.not_true, List.filter_true, List.filter_false] at hvisits' hdeferred'
    exact ⟨f, f', hvisits, hdeferred, hvisits', hdeferred'⟩
  · obtain ⟨qubits, hqubits⟩ := hlabelled x
    rw [ReadyOp.Carries, readyOp, hqubits]
    rfl
  · refine ⟨_, getElem?_completions _ hi, fun x => ?_⟩
    rw [mem_completedBy hconsistent hproducer, List.append_nil, List.take_add_one, hi]
    simp [or_comm]
  · exact nodup_completions hconsistent hproducer _ hnodup'
  · rw [mem_completions hconsistent hproducer _ hnodup', List.append_nil, and_comm]
    refine and_congr_left fun _ => ?_
    rw [ne_eq, ← producers_eq_nil_iff hconsistent]
    simp [List.eq_nil_iff_forall_not_mem]

/-- Two qubits are entangled, one of them is measured, and the other one goes through a gate whose
result is then consumed twice by one operation. The measurement is held back. -/
theorem Built.visits_release_twice :
    let k := (Kernel.empty "twice").calls [.alloc, .alloc, .apply (.gate "cx" []) [0, 1],
      .apply (.measure (some "r")) [2], .apply (.gate "h" []) [3], .apply (.gate "cx" []) [4, 5],
      .setOperands 5 [5, 5]]
    let labels : Labels := .ofList [(0, 0), (1, 1), (2, 0), (3, 1), (4, 0), (5, 1), (6, 1), (7, 1)]
    k.Built ∧ k.OperandsLive ∧ (∀ x, ∀ w ∈ k.operandsOf x, ∃ v : Nat, labels[w]? = some v) ∧
      ([0, 1, 2] ++ [4, 3, 5]).Nodup ∧
      ∃ f f', Frontier.visitEach k labels .initial [0, 1, 2] =
          .ok (f, [[], [⟨2, [0, 1]⟩], [⟨4, [1]⟩]]) ∧
        f.enterMeasurement.2 = [⟨3, [0]⟩] ∧
        Frontier.visitEach k labels f.enterMeasurement.1 [4, 3, 5] =
          .ok (f', [[⟨5, [1, 1]⟩], [], []]) := by
  intro k labels
  have hk : k.Built := (Built.empty "twice").calls _
  have hlive : k.OperandsLive := by
    have hdense : ∀ x < k.ops.size, (k.op? x).isSome := by decide +kernel
    exact fun x w _ wire hwire => hdense _ (hk.coherent.producer w wire hwire)
  have hlabels : ∀ x, ∀ w ∈ k.operandsOf x, ∃ v : Nat, labels[w]? = some v := by
    have hall : ∀ w < k.wires.size, (labels[w]?).isSome := by decide +kernel
    exact fun x w hw => Option.isSome_iff_exists.mp (hall w (hk.coherent.operand x w hw))
  obtain ⟨⟨f, f', hvisits, hentered, hvisits', -⟩, -⟩ :=
    Built.visits_release hk hlive hlabels (show ([0, 1, 2] ++ [4, 3, 5]).Nodup by decide)
  have hready : k.completions [] [0, 1, 2] = [[], [2], [3, 4]] := by decide +kernel
  have hready' : k.completions [2, 1, 0] [4, 3, 5] = [[5], [], []] := by decide +kernel
  have hmeasure : k.isMeasure 2 = false ∧ k.isMeasure 3 = true ∧ k.isMeasure 4 = false := by
    decide +kernel
  have hops : k.readyOp labels 2 = ⟨2, [0, 1]⟩ ∧ k.readyOp labels 3 = ⟨3, [0]⟩ ∧
      k.readyOp labels 4 = ⟨4, [1]⟩ ∧ k.readyOp labels 5 = ⟨5, [1, 1]⟩ := by decide +kernel
  refine ⟨hk, hlive, hlabels, by decide, f, f', ?_, ?_, ?_⟩
  · rw [hvisits, hready]
    simp [hmeasure, hops]
  · rw [hentered, hready]
    simp [hmeasure, hops]
  · rw [hvisits']
    change Except.ok (f', (k.completions [2, 1, 0] [4, 3, 5]).map _) = _
    rw [hready']
    simp [hops]

end Kernel

end QubitMapper
