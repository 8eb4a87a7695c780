import Mathlib.Data.List.Count
import Mathlib.Data.List.Nodup
import QubitMapper.Proofs.Kernel.Consistent
import QubitMapper.Proofs.Labelling
import QubitMapper.Routing.Frontier

/-!
# Counting visits

The frontier counts how often an operation was reached. `Tracks` says what the counts mean: an
operation that is not visited was reached as often as it has operands from visited operations, and
the operations that wait are exactly those whose operands all have labels and come from visited
ones.

## Main results

* `Frontier.reachAll_spec`: which operations a list of visits releases or holds back.
* `Tracks.visit_waiting`, `Tracks.visit_source`: a visit keeps the frontier in step.
-/

namespace QubitMapper

/-! ## Operands that have been produced -/

namespace Kernel

variable {k : Kernel} {x : Nat} {visited : List Nat}

/-- The producers of the operands of an operation, operand by operand. -/
def producers (k : Kernel) (x : Nat) : List Nat :=
  (k.operandsOf x).filterMap fun w => (k.wire? w).map (·.producer)

/-- An operation has a producer for each operand. -/
theorem producers_eq_nil_iff (hk : k.Consistent) : k.producers x = [] ↔ k.operandsOf x = [] := by
  unfold producers
  constructor
  · intro h
    rw [List.filterMap_eq_nil_iff] at h
    refine List.eq_nil_iff_forall_not_mem.mpr fun w hw => ?_
    obtain ⟨wire, hwire⟩ := exists_wire (hk.operand x w hw)
    simpa [hwire] using h w hw
  · intro h
    rw [h, List.filterMap_nil]

/-- The operands of an operation are results of some operations if the producers of the operands are
among these. -/
theorem operands_produced_iff (hk : k.Consistent) (hmade : ∀ w ∈ k.operandsOf x, ∀ wire,
      k.wire? w = some wire → ∃ o, k.op? wire.producer = some o ∧ w ∈ o.results) :
    (∀ w ∈ k.operandsOf x, w ∈ visited.flatMap k.resultsOf) ↔
      ∀ y ∈ k.producers x, y ∈ visited := by
  simp only [producers, List.mem_filterMap, Option.map_eq_some_iff, List.mem_flatMap,
    mem_resultsOf]
  constructor
  · rintro h _ ⟨w, hw, wire, hwire, rfl⟩
    obtain ⟨y, hy, o, ho, hmem⟩ := h w hw
    obtain ⟨wire', hwire', rfl⟩ := hk.producer_of_mem ho hmem
    cases hwire.symm.trans hwire'
    exact hy
  · intro h w hw
    obtain ⟨wire, hwire⟩ := exists_wire (hk.operand x w hw)
    exact ⟨wire.producer, h _ ⟨w, hw, wire, hwire, rfl⟩, hmade w hw wire hwire⟩

/-- Counting what is on one of two lists without common elements. -/
private theorem countP_mem_or {l l' both : List Nat} (hboth : ∀ a, a ∈ both ↔ a ∈ l ∨ a ∈ l')
    (hdisjoint : ∀ a ∈ l, a ∉ l') (m : List Nat) :
    m.countP (· ∈ both) = m.countP (· ∈ l) + m.countP (· ∈ l') := by
  induction m with
  | nil => rfl
  | cons a m ih =>
      rw [List.countP_cons, List.countP_cons, List.countP_cons, ih]
      by_cases ha : a ∈ l
      · simp [hboth, ha, hdisjoint a ha]
        omega
      · by_cases ha' : a ∈ l' <;> simp [hboth, ha, ha']
        omega

section Visited

variable {visited' : List Nat} {y : Nat} (hvisited : ∀ x, x ∈ visited' ↔ x ∈ visited ∨ x = y)

include hvisited

/-- What has been produced once one more operation is visited. -/
theorem mem_produced_iff (w : Nat) : w ∈ visited'.flatMap k.resultsOf ↔
    w ∈ visited.flatMap k.resultsOf ∨ w ∈ k.resultsOf y := by
  simp only [List.mem_flatMap, hvisited]
  constructor
  · rintro ⟨x, hx | rfl, hw⟩
    · exact .inl ⟨x, hx, hw⟩
    · exact .inr hw
  · rintro (⟨x, hx, hw⟩ | hw)
    · exact ⟨x, .inl hx, hw⟩
    · exact ⟨y, .inr rfl, hw⟩

/-- One more operation that is visited adds to the operands that have been produced those that it
produces. -/
theorem countP_produced (hk : k.Consistent) (hy : y ∉ visited) (x : Nat) :
    (k.operandsOf x).countP (· ∈ visited'.flatMap k.resultsOf) =
      (k.operandsOf x).countP (· ∈ visited.flatMap k.resultsOf) +
        (k.operandsOf x).countP (· ∈ k.resultsOf y) := by
  refine countP_mem_or (mem_produced_iff hvisited) (fun w hw hmem => ?_) _
  obtain ⟨z, hz, hwz⟩ := List.mem_flatMap.mp hw
  exact hy (hk.producer_unique hwz hmem ▸ hz)

end Visited

end Kernel

/-! ## Visits -/

/-- Whether an operation of a kernel is a measurement. -/
def Kernel.isMeasure (k : Kernel) (x : Nat) : Bool := (k.op? x).any (·.kind.isMeasure)

/-- An allocation is no measurement. -/
theorem Kernel.isMeasure_of_isAlloc {k : Kernel} {x : Nat} {o : Operation} (ho : k.op? x = some o)
    (halloc : o.kind.isAlloc = true) : k.isMeasure x = false := by
  rw [isMeasure, ho, Option.any_some]
  cases h : o.kind <;> simp [h, OpKind.isAlloc] at halloc ⊢
  rfl

/-- The qubits of a waiting operation are the labels of its operands. -/
def ReadyOp.Carries (k : Kernel) (labels : Labels) (r : ReadyOp) : Prop :=
  (k.operandsOf r.op).mapM (labels[·]?) = some r.qubits

namespace Frontier

variable {k k' : Kernel} {labels : Labels} {f f' : Frontier} {mode : VisitMode}
  {released : List ReadyOp} {us : List Nat} {x : Nat}

/-- What a list of visits does: counts go up, and the operations whose count comes to the number of
operands are released or held back, unless some operand has no label. -/
structure Reached (k : Kernel) (labels : Labels) (f : Frontier) (us : List Nat) (f' : Frontier)
    (released : List ReadyOp) (held : List ReadyOp) : Prop where
  measuring : f'.measuring = f.measuring
  count : ∀ x, f'.count x = f.count x + us.count x
  deferred : f'.deferred = f.deferred ++ held
  unheld : f.measuring = true → held = []
  early : f.measuring = false → (∀ r ∈ released, k.isMeasure r.op = false) ∧
    ∀ r ∈ held, k.isMeasure r.op = true
  carries : ∀ r ∈ released ++ held, r.Carries k labels
  nodup : ((released ++ held).map (·.op)).Nodup
  crossed : ∀ x, x ∈ (released ++ held).map (·.op) ↔
    ((k.operandsOf x).mapM (labels[·]?)).isSome ∧
      f.count x < (k.operandsOf x).length ∧ (k.operandsOf x).length ≤ f.count x + us.count x

/-- One visit, by what it releases or holds back. -/
private theorem Reached.of_eq {op : Nat} {held : List ReadyOp} {qubits : Option (List Nat)}
    (hqubits : (k.operandsOf op).mapM (labels[·]?) = qubits)
    (hvisits : f'.visits = f.visits.insert op (f.count op + 1))
    (hmeasuring : f'.measuring = f.measuring) (hdeferred : f'.deferred = f.deferred ++ held)
    (hunheld : f.measuring = true → held = [])
    (hearly : f.measuring = false → (∀ r ∈ released, k.isMeasure r.op = false) ∧
      ∀ r ∈ held, k.isMeasure r.op = true)
    (hout : released ++ held = if f.count op + 1 = (k.operandsOf op).length then
      (qubits.map (ReadyOp.mk op)).toList else []) :
    Reached k labels f [op] f' released held where
  measuring := hmeasuring
  count x := by
    have hcount : f'.count x = if op = x then f.count op + 1 else f.count x := by
      rw [Frontier.count, hvisits, Std.TreeMap.getD_insert]
      simp only [Nat.compare_eq_eq]
      rfl
    rw [hcount]
    by_cases h : op = x
    · subst h
      simp
    · simp [h]
  deferred := hdeferred
  unheld := hunheld
  early := hearly
  carries := by
    rw [hout]
    intro r hr
    split at hr
    · cases qubits with
      | none => cases hr
      | some qubits =>
          rw [List.mem_singleton.mp hr]
          exact hqubits
    · cases hr
  nodup := by
    rw [hout]
    split
    · cases qubits <;> simp
    · simp
  crossed x := by
    rw [hout]
    by_cases h : x = op
    · subst h
      rw [hqubits]
      by_cases hc : f.count x + 1 = (k.operandsOf x).length
      · cases qubits <;> simp [← hc]
      · rw [if_neg hc]
        simp only [List.map_nil, List.not_mem_nil, List.count_singleton_self, false_iff]
        omega
    · have h' : ¬ op = x := fun heq => h heq.symm
      by_cases hc : f.count op + 1 = (k.operandsOf op).length <;> cases qubits <;> simp [hc, h, h']

/-- One visit. An operation that is held back already was reached through all its operands, so it
is not held back again. -/
private theorem reach_spec {op : Nat}
    (hdeferred : ∀ r ∈ f.deferred, (k.operandsOf r.op).length ≤ f.count r.op) :
    ∃ held, Reached k labels f [op] (f.reach k labels .retire op).1
      (f.reach k labels .retire op).2 held := by
  unfold reach
  cases ho : k.op? op with
  | none =>
      have harity : (k.operandsOf op).length = 0 := by simp [Kernel.operandsOf, ho]
      exact ⟨[], .of_eq rfl rfl rfl (by simp) (fun _ => rfl) (by simp) (by simp [harity])⟩
  | some o =>
      have harity : (k.operandsOf op).length = o.operands.length := by
        rw [Kernel.operandsOf_of_op? ho]
      by_cases hcount : f.count op + 1 = o.operands.length
      · cases hqubits : o.operands.mapM (labels[·]?) with
        | none =>
            have hnone : (k.operandsOf op).mapM (labels[·]?) = none := by
              rwa [Kernel.operandsOf_of_op? ho]
            simp only [hcount, ne_eq, not_true_eq_false, ↓reduceIte, hqubits]
            refine ⟨[], .of_eq hnone (by rw [hcount]) rfl (by simp) (fun _ => rfl) (by simp) ?_⟩
            rw [if_pos (by rw [harity, hcount])]
            rfl
        | some qubits =>
            have hsome : (k.operandsOf op).mapM (labels[·]?) = some qubits := by
              rwa [Kernel.operandsOf_of_op? ho]
            simp only [hcount, ne_eq, not_true_eq_false, ↓reduceIte, hqubits]
            have hout : [(⟨op, qubits⟩ : ReadyOp)] =
                if f.count op + 1 = (k.operandsOf op).length then
                  ((some qubits).map (ReadyOp.mk op)).toList else [] := by
              rw [if_pos (by rw [harity, hcount])]
              rfl
            by_cases hnow : (f.measuring || !o.kind.isMeasure) = true
            · rw [if_pos hnow]
              refine ⟨[], .of_eq hsome (by rw [hcount]) rfl (by simp) (fun _ => rfl) ?_ hout⟩
              intro hmeasuring
              rw [hmeasuring, Bool.false_or, Bool.not_eq_true'] at hnow
              simp [Kernel.isMeasure, ho, hnow]
            · have hall : f.deferred.all (·.op != op) = true := by
                rw [List.all_eq_true]
                intro r hr
                rw [bne_iff_ne]
                rintro rfl
                have := hdeferred r hr
                omega
              rw [if_neg hnow, if_pos ⟨trivial, hall⟩]
              rw [Bool.or_eq_true, not_or, Bool.not_eq_true, Bool.not_eq_true,
                Bool.not_eq_false'] at hnow
              refine ⟨[⟨op, qubits⟩], .of_eq hsome (by rw [hcount]) rfl rfl ?_ ?_ hout⟩
              · exact fun hmeasuring => absurd hmeasuring (by simp [hnow.1])
              · exact fun _ => ⟨by simp, by simp [Kernel.isMeasure, ho, hnow.2]⟩
      · simp only [ne_eq, hcount, not_false_eq_true, ↓reduceIte]
        refine ⟨[], .of_eq rfl rfl rfl (by simp) (fun _ => rfl) (by simp) ?_⟩
        rw [if_neg (by rwa [harity])]
        rfl

/-- Visits in order. -/
theorem reachAll_spec (us : List Nat) :
    ∀ {f : Frontier}, (∀ r ∈ f.deferred, (k.operandsOf r.op).length ≤ f.count r.op) →
      ∃ held, Reached k labels f us (f.reachAll k labels .retire us).1
        (f.reachAll k labels .retire us).2 held := by
  induction us with
  | nil =>
      intro f _
      exact ⟨[], rfl, by simp [reachAll], by simp [reachAll], fun _ => rfl, by simp [reachAll],
        by simp [reachAll], by simp [reachAll], by simp [reachAll]⟩
  | cons op rest ih =>
      intro f hdeferred
      obtain ⟨held, h⟩ : ∃ held, Reached k labels f [op] _ _ held := reach_spec hdeferred
      unfold reachAll
      generalize hreach : f.reach k labels .retire op = out at h ⊢
      obtain ⟨f₁, now⟩ := out
      simp only at h ⊢
      have hdeferred₁ : ∀ r ∈ f₁.deferred, (k.operandsOf r.op).length ≤ f₁.count r.op := by
        intro r hr
        rw [h.count]
        rw [h.deferred] at hr
        rcases List.mem_append.mp hr with hr | hr
        · exact Nat.le_add_right_of_le (hdeferred r hr)
        · exact ((h.crossed r.op).mp (List.mem_map.mpr ⟨r, by simp [hr], rfl⟩)).2.2
      obtain ⟨held', h'⟩ := ih hdeferred₁
      generalize hlater : f₁.reachAll k labels .retire rest = out at h' ⊢
      obtain ⟨f₂, later⟩ := out
      simp only at h' ⊢
      -- released and held back operations come in another order, so only their set matters
      have hperm :
          ((now ++ later) ++ (held ++ held')).Perm ((now ++ held) ++ (later ++ held')) := by
        rw [List.append_assoc, List.append_assoc]
        apply List.Perm.append_left _
        exact List.perm_append_comm_assoc _ _ _
      have hcount : ∀ x, (op :: rest).count x = [op].count x + rest.count x := by
        intro x
        rw [← List.count_append]
        rfl
      refine ⟨held ++ held', ?_⟩
      refine
        { measuring := h'.measuring.trans h.measuring
          count := fun x => by rw [h'.count, h.count, hcount, Nat.add_assoc]
          deferred := by rw [h'.deferred, h.deferred, List.append_assoc]
          unheld := fun hm => by rw [h.unheld hm, h'.unheld (h.measuring.trans hm)]; rfl
          early := ?_
          carries := ?_
          nodup := ?_
          crossed := ?_ }
      · intro hm
        obtain ⟨hnow, hheld⟩ := h.early hm
        obtain ⟨hlater, hheld'⟩ := h'.early (h.measuring.trans hm)
        exact ⟨List.forall_mem_append.mpr ⟨hnow, hlater⟩,
          List.forall_mem_append.mpr ⟨hheld, hheld'⟩⟩
      · intro r hr
        rcases List.mem_append.mp (hperm.mem_iff.mp hr) with hr | hr
        · exact h.carries r hr
        · exact h'.carries r hr
      · rw [(hperm.map (·.op)).nodup_iff, List.map_append, List.nodup_append]
        refine ⟨h.nodup, h'.nodup, ?_⟩
        rintro x hx _ hx' rfl
        have h1 := ((h.crossed x).mp hx).2
        have h2 := ((h'.crossed x).mp hx').2
        rw [h.count] at h2
        omega
      · intro x
        rw [(hperm.map (·.op)).mem_iff, List.map_append, List.mem_append, h.crossed, h'.crossed,
          h.count, hcount, ← and_or_left]
        refine and_congr_right fun _ => ?_
        omega

theorem count_reach (k : Kernel) (labels : Labels) (mode : VisitMode) (f : Frontier) (op x : Nat) :
    (f.reach k labels mode op).1.count x = f.count x + [op].count x := by
  have hvisits : (f.reach k labels mode op).1.visits = f.visits.insert op (f.count op + 1) := by
    unfold reach
    cases k.op? op with
    | none => rfl
    | some o =>
        dsimp only
        split
        · rfl
        · split
          · rfl
          · split
            · rfl
            · split <;> rfl
  rw [count, hvisits, Std.TreeMap.getD_insert]
  simp only [Nat.compare_eq_eq]
  by_cases h : op = x
  · subst h
    simp [count]
  · simp [count, h]

/-- Visits count each operation as often as they reach it. -/
theorem count_reachAll (us : List Nat) : ∀ (f : Frontier) (x : Nat),
    (f.reachAll k labels mode us).1.count x = f.count x + us.count x := by
  induction us with
  | nil => simp [reachAll]
  | cons op rest ih =>
      intro f x
      show ((f.reach k labels mode op).1.reachAll k labels mode rest).1.count x = _
      rw [ih, count_reach, Nat.add_assoc, ← List.count_append]
      rfl

/-- Visits in order, and others after them. -/
theorem reachAll_append (us us' : List Nat) : ∀ f : Frontier,
    f.reachAll k labels mode (us ++ us') =
      (((f.reachAll k labels mode us).1.reachAll k labels mode us').1,
        (f.reachAll k labels mode us).2 ++
          ((f.reachAll k labels mode us).1.reachAll k labels mode us').2) := by
  induction us with
  | nil => exact fun f => rfl
  | cons op rest ih =>
      intro f
      simp only [List.cons_append, reachAll, ih, List.append_assoc]

/-- Only what is visited is looked up. -/
theorem reachAll_congr (us : List Nat) (h : ∀ x ∈ us, k'.op? x = k.op? x) :
    ∀ f : Frontier, f.reachAll k' labels mode us = f.reachAll k labels mode us := by
  induction us with
  | nil => exact fun _ => rfl
  | cons op rest ih =>
      intro f
      have hreach : f.reach k' labels mode op = f.reach k labels mode op := by
        unfold reach
        rw [h op List.mem_cons_self]
      unfold reachAll
      rw [hreach]
      simp only [ih fun x hx => h x (List.mem_cons_of_mem _ hx)]

private theorem measuring_reach (f : Frontier) (op : Nat) :
    (f.reach k labels mode op).1.measuring = f.measuring := by
  unfold reach
  cases k.op? op with
  | none => rfl
  | some o =>
      dsimp only
      split
      · rfl
      · split
        · rfl
        · split
          · rfl
          · split <;> rfl

/-- Visits do not begin the measurement phase. -/
theorem measuring_reachAll (us : List Nat) :
    ∀ f : Frontier, (f.reachAll k labels mode us).1.measuring = f.measuring := by
  induction us with
  | nil => exact fun _ => rfl
  | cons op rest ih => exact fun f => (ih _).trans (measuring_reach f op)

end Frontier

/-! ## The frontier in step with what was visited -/

/-- The frontier is in step with the visited operations: counts say how many operands come from
them, and the operations that wait, held back ones included, are those whose operands all do and
have labels. -/
structure Tracks (k : Kernel) (labels : Labels) (visited : List Nat) (f : Frontier)
    (waiting : List ReadyOp) : Prop where
  count : ∀ x, x ∉ visited →
    f.count x = (k.operandsOf x).countP (· ∈ visited.flatMap k.resultsOf)
  nodup : ((waiting ++ f.deferred).map (·.op)).Nodup
  carries : ∀ r ∈ waiting ++ f.deferred, r.Carries k labels
  ready : ∀ x, x ∈ (waiting ++ f.deferred).map (·.op) ↔ x ∉ visited ∧ k.operandsOf x ≠ [] ∧
    ((k.operandsOf x).mapM (labels[·]?)).isSome ∧
    ∀ w ∈ k.operandsOf x, w ∈ visited.flatMap k.resultsOf
  /-- What is visited consumes what is visited. -/
  closed : ∀ x ∈ visited, ∀ w ∈ k.operandsOf x, w ∈ visited.flatMap k.resultsOf
  unheld : f.measuring = true → f.deferred = []
  /-- Before the measurement phase no measurement is visited, and of what could be visited the
  measurements are held back. -/
  early : f.measuring = false → (∀ x ∈ visited, k.isMeasure x = false) ∧
    (∀ r ∈ waiting, k.isMeasure r.op = false) ∧ ∀ r ∈ f.deferred, k.isMeasure r.op = true

namespace Tracks

variable {k : Kernel} {labels : Labels} {visited visited' : List Nat} {f : Frontier}
  {waiting rest : List ReadyOp} {y : Nat}

theorem initial : Tracks k labels [] .initial [] where
  count := by simp [Frontier.initial, Frontier.count]
  nodup := by simp [Frontier.initial]
  carries := by simp [Frontier.initial]
  ready x := by
    simp only [Frontier.initial, List.append_nil, List.map_nil, List.not_mem_nil, false_iff]
    rintro ⟨-, hne, -, hall⟩
    obtain ⟨z, hz⟩ := List.exists_mem_of_ne_nil _ hne
    exact absurd (hall z hz) List.not_mem_nil
  closed := by simp
  unheld _ := rfl
  early _ := by simp [Frontier.initial]

/-- The order in which operations wait does not matter. -/
theorem perm (h : Tracks k labels visited f waiting) (hperm : waiting.Perm rest) :
    Tracks k labels visited f rest := by
  have hperm' := hperm.append_right f.deferred
  exact
    { count := h.count
      nodup := (hperm'.map _).nodup_iff.mp h.nodup
      carries := fun r hr => h.carries r (hperm'.mem_iff.mpr hr)
      ready := fun x => by rw [← (hperm'.map _).mem_iff, h.ready]
      closed := h.closed
      unheld := h.unheld
      early := fun hm => (h.early hm).imp_right fun ⟨hwaiting, hdeferred⟩ =>
        ⟨fun r hr => hwaiting r (hperm.mem_iff.mpr hr), hdeferred⟩ }

/-- Operations that the kernel does not have count for nothing. -/
theorem grow {more : List Nat} (h : Tracks k labels visited f waiting)
    (hmore : ∀ x ∈ more, k.op? x = none) : Tracks k labels (visited ++ more) f waiting := by
  have hmade : (visited ++ more).flatMap k.resultsOf = visited.flatMap k.resultsOf := by
    have hnil : more.flatMap k.resultsOf = [] :=
      List.flatMap_eq_nil_iff.mpr fun x hx => by simp [Kernel.resultsOf, hmore x hx]
    rw [List.flatMap_append, hnil, List.append_nil]
  have hidle : ∀ x, k.operandsOf x ≠ [] → x ∉ more := by
    intro x hne hx
    exact hne (by simp [Kernel.operandsOf, hmore x hx])
  refine ⟨fun x hx => ?_, h.nodup, h.carries, fun x => ?_, fun x hx w hw => ?_, h.unheld,
    fun hm => ?_⟩
  · rw [hmade]
    exact h.count x fun hmem => hx (List.mem_append_left _ hmem)
  · rw [h.ready, hmade, List.mem_append, not_or]
    constructor
    · rintro ⟨hnew, hne, hrest⟩
      exact ⟨⟨hnew, hidle x hne⟩, hne, hrest⟩
    · rintro ⟨⟨hnew, -⟩, hrest⟩
      exact ⟨hnew, hrest⟩
  · rw [hmade]
    refine h.closed x ((List.mem_append.mp hx).resolve_right ?_) w hw
    exact hidle x (List.ne_nil_of_mem hw)
  · refine (h.early hm).imp_left fun hvisited => List.forall_mem_append.mpr ⟨hvisited, ?_⟩
    exact fun x hx => by simp [Kernel.isMeasure, hmore x hx]

private theorem countP_lt_length_iff {l made : List Nat} :
    l.countP (· ∈ made) < l.length ↔ ¬ ∀ z ∈ l, z ∈ made := by
  rw [List.countP_lt_length_iff]
  simp

private theorem length_le_countP_iff {l made : List Nat} :
    l.length ≤ l.countP (· ∈ made) ↔ ∀ z ∈ l, z ∈ made := by
  rw [← Nat.not_lt, countP_lt_length_iff, not_not]

/-- What is held back has been reached through all its operands. -/
private theorem deferred_reached (h : Tracks k labels visited f waiting) :
    ∀ r ∈ f.deferred, (k.operandsOf r.op).length ≤ f.count r.op := by
  intro r hr
  obtain ⟨hnew, -, -, hall⟩ := (h.ready r.op).mp (List.mem_map.mpr ⟨r, by simp [hr], rfl⟩)
  rw [h.count r.op hnew]
  exact length_le_countP_iff.mpr hall

section Visit

variable (hk : k.Consistent) (h : Tracks k labels visited f waiting) (hy : y ∉ visited)
  (hvisited : ∀ x, x ∈ visited' ↔ x ∈ visited ∨ x = y) {us : List Nat}
  (hus : ∀ x, us.count x =
    if x ∈ visited' then 0 else (k.operandsOf x).countP (· ∈ k.resultsOf y))

include hk h hy hvisited hus

/-- After the visits counts are in step again. -/
private theorem count_reached {x : Nat} (hx : x ∉ visited') :
    f.count x + us.count x = (k.operandsOf x).countP (· ∈ visited'.flatMap k.resultsOf) := by
  have hold : x ∉ visited := fun hmem => hx ((hvisited x).mpr (.inl hmem))
  rw [hus, if_neg hx, h.count x hold, Kernel.countP_produced hvisited hk hy]

/-- The visits release or hold back what had an operand left to be produced and now has none. -/
private theorem crossed_iff {f' : Frontier} {released held : List ReadyOp}
    (hreached : Frontier.Reached k labels f us f' released held) (x : Nat) :
    x ∈ (released ++ held).map (·.op) ↔ x ∉ visited' ∧
      ((k.operandsOf x).mapM (labels[·]?)).isSome ∧
      (∀ w ∈ k.operandsOf x, w ∈ visited'.flatMap k.resultsOf) ∧
      ¬ ∀ w ∈ k.operandsOf x, w ∈ visited.flatMap k.resultsOf := by
  rw [hreached.crossed]
  by_cases hx : x ∈ visited'
  · rw [hus, if_pos hx]
    simp only [hx, not_true_eq_false, false_and, iff_false]
    omega
  · have hold : x ∉ visited := fun hmem => hx ((hvisited x).mpr (.inl hmem))
    rw [h.count_reached hk hy hvisited hus hx, h.count x hold, countP_lt_length_iff,
      length_le_countP_iff]
    tauto

/-- An operation whose operands have been produced is visited: what it releases waits, beside what
waited before and is not it. -/
private theorem visit_aux (hready : ∀ w ∈ k.operandsOf y, w ∈ visited.flatMap k.resultsOf)
    (hmeasure : f.measuring = false → k.isMeasure y = false)
    (hwaiting : rest ⊆ waiting) (hsub : (rest ++ f.deferred).Sublist (waiting ++ f.deferred))
    (hrest : ∀ x, x ∈ (rest ++ f.deferred).map (·.op) ↔
      x ≠ y ∧ x ∈ (waiting ++ f.deferred).map (·.op)) :
    Tracks k labels visited' (f.reachAll k labels .retire us).1
      ((f.reachAll k labels .retire us).2 ++ rest) := by
  obtain ⟨held, hreached⟩ : ∃ held, Frontier.Reached k labels f us _ _ held :=
    Frontier.reachAll_spec us h.deferred_reached
  generalize f.reachAll k labels .retire us = out at hreached ⊢
  obtain ⟨f', released⟩ := out
  simp only at hreached ⊢
  have hcrossed := h.crossed_iff hk hy hvisited hus hreached
  -- what waits now: what waited before, and what was released or held back
  have hperm : ((released ++ rest) ++ f'.deferred).Perm
      ((rest ++ f.deferred) ++ (released ++ held)) := by
    rw [hreached.deferred]
    calc ((released ++ rest) ++ (f.deferred ++ held))
      _ = released ++ ((rest ++ f.deferred) ++ held) := by simp only [List.append_assoc]
      List.Perm _ ((rest ++ f.deferred) ++ (released ++ held)) :=
          List.perm_append_comm_assoc _ _ _
  refine
    { count := fun x hx => by rw [hreached.count, h.count_reached hk hy hvisited hus hx]
      nodup := ?_
      carries := ?_
      ready := ?_
      closed := fun x hx w hw => ?_
      unheld := ?_
      early := ?_ }
  · rw [(hperm.map _).nodup_iff, List.map_append, List.nodup_append]
    refine ⟨(hsub.map _).nodup h.nodup, hreached.nodup, ?_⟩
    rintro x hx _ hx' rfl
    exact ((hcrossed x).mp hx').2.2.2 ((h.ready x).mp ((hrest x).mp hx).2).2.2.2
  · intro r hr
    rcases List.mem_append.mp (hperm.mem_iff.mp hr) with hr | hr
    · exact h.carries r (hsub.subset hr)
    · exact hreached.carries r hr
  · intro x
    rw [(hperm.map _).mem_iff, List.map_append, List.mem_append, hrest, h.ready, hcrossed,
      hvisited, not_or]
    constructor
    · rintro (⟨hxy, hx, hne, hlabels, hall⟩ | ⟨hx, hlabels, hall, hnot⟩)
      · exact ⟨⟨hx, hxy⟩, hne, hlabels, fun w hw =>
          (Kernel.mem_produced_iff hvisited w).mpr (.inl (hall w hw))⟩
      · refine ⟨hx, ?_, hlabels, hall⟩
        intro hnil
        exact hnot (by simp [hnil])
    · rintro ⟨⟨hx, hxy⟩, hne, hlabels, hall⟩
      by_cases hbefore : ∀ w ∈ k.operandsOf x, w ∈ visited.flatMap k.resultsOf
      · exact .inl ⟨hxy, hx, hne, hlabels, hbefore⟩
      · exact .inr ⟨⟨hx, hxy⟩, hlabels, hall, hbefore⟩
  · refine (Kernel.mem_produced_iff hvisited w).mpr (.inl ?_)
    rcases (hvisited x).mp hx with hx | rfl
    · exact h.closed x hx w hw
    · exact hready w hw
  · intro hm
    have hm' := hreached.measuring.symm.trans hm
    rw [hreached.deferred, h.unheld hm', hreached.unheld hm', List.append_nil]
  · intro hm
    have hm' := hreached.measuring.symm.trans hm
    obtain ⟨hold, hwait, hdeferred⟩ := h.early hm'
    obtain ⟨hnow, hheld⟩ := hreached.early hm'
    refine ⟨fun x hx => ?_, List.forall_mem_append.mpr ⟨hnow, fun r hr => hwait r (hwaiting hr)⟩,
      hreached.deferred ▸ List.forall_mem_append.mpr ⟨hdeferred, hheld⟩⟩
    rcases (hvisited x).mp hx with hx | rfl
    · exact hold x hx
    · exact hmeasure hm'

/-- An allocation is visited. -/
theorem visit_source (hsource : k.operandsOf y = []) (hmeasure : k.isMeasure y = false) :
    Tracks k labels visited' (f.reachAll k labels .retire us).1
      ((f.reachAll k labels .retire us).2 ++ waiting) := by
  refine h.visit_aux hk hy hvisited hus (by simp [hsource]) (fun _ => hmeasure) (List.Subset.refl _)
    (List.Sublist.refl _) fun x => ?_
  constructor
  · intro hx
    refine ⟨?_, hx⟩
    rintro rfl
    exact ((h.ready x).mp hx).2.1 hsource
  · exact And.right

end Visit

/-- A waiting operation is visited: it no longer waits, and what it releases does. -/
theorem visit_waiting (hk : k.Consistent) {r : ReadyOp}
    (h : Tracks k labels visited f (r :: rest))
    (hvisited : ∀ x, x ∈ visited' ↔ x ∈ visited ∨ x = r.op) {us : List Nat}
    (hus : ∀ x, us.count x =
      if x ∈ visited' then 0 else (k.operandsOf x).countP (· ∈ k.resultsOf r.op)) :
    Tracks k labels visited' (f.reachAll k labels .retire us).1
      ((f.reachAll k labels .retire us).2 ++ rest) := by
  obtain ⟨hy, -, -, hready⟩ := (h.ready r.op).mp (by simp)
  have hmeasure : f.measuring = false → k.isMeasure r.op = false := fun hm =>
    (h.early hm).2.1 r List.mem_cons_self
  refine h.visit_aux hk hy hvisited hus hready hmeasure (List.subset_cons_self r rest)
    (List.sublist_cons_self r _) fun x => ?_
  have hnodup := h.nodup
  rw [List.cons_append, List.map_cons, List.nodup_cons] at hnodup
  rw [List.cons_append, List.map_cons, List.mem_cons]
  constructor
  · intro hx
    refine ⟨?_, .inr hx⟩
    rintro rfl
    exact hnodup.1 hx
  · rintro ⟨hne, hx⟩
    exact hx.resolve_left hne

/-- The measurements held back wait once the measurement phase begins. -/
theorem enterMeasurement (h : Tracks k labels visited f []) :
    Tracks k labels visited f.enterMeasurement.1 f.enterMeasurement.2 where
  count := h.count
  nodup := by simpa [Frontier.enterMeasurement] using h.nodup
  carries := by simpa [Frontier.enterMeasurement] using h.carries
  ready := by simpa [Frontier.enterMeasurement] using h.ready
  closed := h.closed
  unheld _ := rfl
  early hm := by cases hm

end Tracks

end QubitMapper
