import Mathlib.Data.List.Count
import Mathlib.Data.List.Nodup
import QubitMapper.Proofs.Kernel.Lookup

/-!
# Consistent kernels

The users of a wire and the operands of an operation say the same thing twice, and so do the results
of an operation and the producers of wires. A kernel is *consistent* when the two sides agree, with
multiplicities. Every change of a kernel keeps this, so that the users of a wire may be read off the
operands.

## Main results

* `Kernel.Consistent.addOp`, `Kernel.Consistent.rewired`, `Kernel.Consistent.without`,
  `Kernel.Consistent.modifyOp`: the changes keep consistency.
* `Kernel.Consistent.users_eq`: the consumers of an operation, counted by operands.
-/

namespace QubitMapper.Kernel

variable {k : Kernel} {x w : Nat}

/-- Counting what is on a list, the list being one longer. -/
theorem countP_mem_cons {x : Nat} {l : List Nat} (l' : List Nat) (hx : x ∉ l) :
    l'.countP (· ∈ x :: l) = l'.countP (· ∈ l) + l'.count x := by
  induction l' with
  | nil => rfl
  | cons y l' ih =>
      rw [List.countP_cons, List.countP_cons, List.count_cons, ih]
      by_cases hy : y = x
      · subst hy
        simp [hx]
        omega
      · simp [hy]
        omega

/-- Use lists agree with operands, and results with producers. -/
structure Consistent (k : Kernel) : Prop where
  /-- An operation is listed as a user as often as the wire is among its operands. -/
  uses : ∀ w wire, k.wire? w = some wire → ∀ x, wire.users.count x = (k.operandsOf x).count w
  /-- Operands are wires of the kernel. -/
  operand : ∀ x, ∀ w ∈ k.operandsOf x, w < k.wires.size
  /-- A result points back at its operation and its position there. -/
  result : ∀ x o, k.op? x = some o → ∀ (j w : Nat), o.results[j]? = some w →
    ∃ users, k.wire? w = some ⟨x, j, users⟩
  /-- Producers are operations that the kernel has or had. -/
  producer : ∀ w wire, k.wire? w = some wire → wire.producer < k.ops.size

namespace Consistent

/-- Consistency does not depend on how blocks are ordered. -/
theorem congr {k' : Kernel} (hk : k.Consistent) (hops : k'.ops = k.ops)
    (hwires : k'.wires = k.wires) : k'.Consistent := by
  obtain ⟨name, ops, wires, blocks, level, mapping⟩ := k'
  simp only at hops hwires
  subst hops hwires
  exact ⟨hk.uses, hk.operand, hk.result, hk.producer⟩

theorem setBlock (hk : k.Consistent) (b : Nat) (ops : List Nat) : (k.setBlock b ops).Consistent :=
  hk.congr rfl rfl

/-- A change that keeps operands and results keeps consistency. -/
theorem modifyOp (hk : k.Consistent) {f : Operation → Operation}
    (hf : ∀ o, (f o).operands = o.operands ∧ (f o).results = o.results) :
    (k.modifyOp x f).Consistent := by
  have hoperands : ∀ y, (k.modifyOp x f).operandsOf y = k.operandsOf y := by
    intro y
    simp only [operandsOf, op?_modifyOp]
    split
    · rename_i h
      subst h
      cases k.op? x with
      | none => rfl
      | some o => simp [hf o]
    · rfl
  refine ⟨?_, ?_, ?_, ?_⟩
  · intro w wire hw y
    rw [hoperands]
    exact hk.uses w wire hw y
  · intro y v hv
    rw [hoperands] at hv
    simpa [Kernel.modifyOp] using hk.operand y v hv
  · intro y o hy j v hv
    rw [op?_modifyOp] at hy
    split at hy
    · rename_i h
      subst h
      obtain ⟨o', ho', rfl⟩ := Option.map_eq_some_iff.mp hy
      rw [(hf o').2] at hv
      exact hk.result x o' ho' j v hv
    · exact hk.result y o hy j v hv
  · intro v wire hv
    simpa [Kernel.modifyOp] using hk.producer v wire hv

/-- A new operation on existing wires keeps consistency. -/
theorem addOp (hk : k.Consistent) {kind : OpKind} {ws : List Nat}
    (hws : ∀ w ∈ ws, w < k.wires.size) : (k.addOp kind ws).1.Consistent := by
  have hoperands : ∀ y, (k.addOp kind ws).1.operandsOf y =
      if y = k.ops.size then ws else k.operandsOf y := by
    intro y
    simp only [operandsOf, op?_addOp]
    split <;> rfl
  have hnew : k.operandsOf k.ops.size = [] := by
    simp [operandsOf, op?_eq_none_of_le (Nat.le_refl k.ops.size)]
  refine ⟨?_, ?_, ?_, ?_⟩
  · intro w wire hw y
    rw [wire?_addOp hws] at hw
    rw [hoperands]
    split at hw
    · obtain ⟨wire', hw', rfl⟩ := Option.map_eq_some_iff.mp hw
      rw [List.count_append, List.count_replicate, hk.uses w wire' hw' y]
      by_cases h : y = k.ops.size
      · subst h
        simp [hnew]
      · have : ¬ k.ops.size = y := fun heq => h heq.symm
        simp [h, this]
    · rename_i hge
      split at hw
      · cases hw
        have hfree : ∀ l : List Nat, (∀ v ∈ l, v < k.wires.size) → l.count w = 0 :=
          fun l hl => List.count_eq_zero.mpr fun hmem => hge (hl w hmem)
        split
        · simp [hfree ws hws]
        · simp [hfree _ (hk.operand y)]
      · cases hw
  · intro y v hv
    rw [hoperands] at hv
    rw [size_wires_addOp]
    split at hv
    · exact Nat.lt_add_right _ (hws v hv)
    · exact Nat.lt_add_right _ (hk.operand y v hv)
  · intro y o hy j v hv
    rw [op?_addOp] at hy
    rw [wire?_addOp hws]
    split at hy
    · rename_i h
      subst h
      cases hy
      have hj : j < kind.resultCount ws.length := by
        simpa [freshWires] using (List.getElem?_eq_some_iff.mp hv).1
      simp only [freshWires, List.getElem?_range' hj, Option.some.injEq, Nat.one_mul] at hv
      subst hv
      have hge : ¬ k.wires.size + j < k.wires.size := by omega
      exact ⟨[], by simp [hj, hge]⟩
    · obtain ⟨users, hw⟩ := hk.result y o hy j v hv
      exact ⟨_, by simp [lt_of_wire?_eq_some hw, hw]; rfl⟩
  · intro v wire hv
    rw [wire?_addOp hws] at hv
    rw [size_ops_addOp]
    split at hv
    · obtain ⟨wire', hw', rfl⟩ := Option.map_eq_some_iff.mp hv
      exact Nat.lt_succ_of_lt (hk.producer v wire' hw')
    · split at hv
      · cases hv
        exact Nat.lt_succ_self _
      · cases hv

private theorem count_diff_replicate (l : List Nat) (n x y : Nat) :
    (l.diff (List.replicate n x)).count y = if x = y then l.count y - n else l.count y := by
  rw [List.count_diff, List.count_replicate]
  by_cases h : x = y <;> simp [h]

/-- Replacing the operands of an operation keeps consistency. -/
theorem rewired (hk : k.Consistent) {o : Operation} (hx : k.op? x = some o) {ws : List Nat}
    (hws : ∀ w ∈ ws, w < k.wires.size) : (k.rewired x o.operands ws).Consistent := by
  have hoperands : ∀ y, (k.rewired x o.operands ws).operandsOf y =
      if x = y then ws else k.operandsOf y := by
    intro y
    simp only [operandsOf, op?_rewired]
    split
    · simp [hx]
    · rfl
  refine ⟨?_, ?_, ?_, ?_⟩
  · intro w wire hw y
    rw [wire?_rewired] at hw
    obtain ⟨wire', hw', rfl⟩ := Option.map_eq_some_iff.mp hw
    rw [hoperands, List.count_append, count_diff_replicate, List.count_replicate,
      hk.uses w wire' hw' y]
    by_cases h : x = y
    · subst h
      simp [operandsOf_of_op? hx]
    · simp [h]
  · intro y v hv
    rw [hoperands] at hv
    rw [size_wires_rewired]
    split at hv
    · exact hws v hv
    · exact hk.operand y v hv
  · intro y o' hy j v hv
    rw [op?_rewired] at hy
    have hold : ∃ o'', k.op? y = some o'' ∧ o''.results = o'.results := by
      split at hy
      · rename_i h
        subst h
        obtain ⟨o'', ho'', rfl⟩ := Option.map_eq_some_iff.mp hy
        exact ⟨o'', ho'', rfl⟩
      · exact ⟨o', hy, rfl⟩
    obtain ⟨o'', hy', hres⟩ := hold
    obtain ⟨users, hw⟩ := hk.result y o'' hy' j v (by rw [hres]; exact hv)
    exact ⟨_, by rw [wire?_rewired, hw]; rfl⟩
  · intro v wire hv
    rw [wire?_rewired] at hv
    obtain ⟨wire', hw', rfl⟩ := Option.map_eq_some_iff.mp hv
    rw [size_ops_rewired]
    exact hk.producer v wire' hw'

/-- Taking an operation out keeps consistency. -/
theorem without (hk : k.Consistent) {o : Operation} (hx : k.op? x = some o) :
    (k.without x o.operands).Consistent := by
  have hoperands : ∀ y, (k.without x o.operands).operandsOf y =
      if x = y then [] else k.operandsOf y := by
    intro y
    simp only [operandsOf, op?_without]
    split <;> rfl
  refine ⟨?_, ?_, ?_, ?_⟩
  · intro w wire hw y
    rw [wire?_without] at hw
    obtain ⟨wire', hw', rfl⟩ := Option.map_eq_some_iff.mp hw
    rw [hoperands, count_diff_replicate, hk.uses w wire' hw' y]
    by_cases h : x = y
    · subst h
      simp [operandsOf_of_op? hx]
    · simp [h]
  · intro y v hv
    rw [hoperands] at hv
    rw [size_wires_without]
    split at hv
    · cases hv
    · exact hk.operand y v hv
  · intro y o' hy j v hv
    rw [op?_without] at hy
    split at hy
    · cases hy
    · obtain ⟨users, hw⟩ := hk.result y o' hy j v hv
      exact ⟨_, by rw [wire?_without, hw]; rfl⟩
  · intro v wire hv
    rw [wire?_without] at hv
    obtain ⟨wire', hw', rfl⟩ := Option.map_eq_some_iff.mp hv
    rw [size_ops_without]
    exact hk.producer v wire' hw'

/-! ## Reading results and users -/

/-- A wire is the result of one position only. -/
theorem results_nodup (hk : k.Consistent) {o : Operation} (hx : k.op? x = some o) :
    o.results.Nodup := by
  rw [List.nodup_iff_getElem?_ne_getElem?]
  intro i j hij hj heq
  obtain ⟨w, hw⟩ : ∃ w, o.results[j]? = some w := ⟨_, List.getElem?_eq_getElem hj⟩
  obtain ⟨_, h1⟩ := hk.result x o hx i w (heq.trans hw)
  obtain ⟨_, h2⟩ := hk.result x o hx j w hw
  rw [h1] at h2
  cases h2
  exact Nat.lt_irrefl _ hij

/-- The results of an operation are exactly the wires it is named the producer of by a result. -/
theorem producer_of_mem (hk : k.Consistent) {o : Operation} (hx : k.op? x = some o)
    (hw : w ∈ o.results) : ∃ wire, k.wire? w = some wire ∧ wire.producer = x := by
  obtain ⟨j, hj⟩ := List.mem_iff_getElem?.mp hw
  obtain ⟨users, hwire⟩ := hk.result x o hx j w hj
  exact ⟨_, hwire, rfl⟩

/-- A wire is a result of one operation only. -/
theorem producer_unique (hk : k.Consistent) (hx : w ∈ k.resultsOf x)
    (hy : w ∈ k.resultsOf y) : x = y := by
  obtain ⟨o, ho, hw⟩ := mem_resultsOf.mp hx
  obtain ⟨o', ho', hw'⟩ := mem_resultsOf.mp hy
  obtain ⟨wire, hwire, rfl⟩ := hk.producer_of_mem ho hw
  obtain ⟨wire', hwire', rfl⟩ := hk.producer_of_mem ho' hw'
  cases hwire.symm.trans hwire'
  rfl

/-- The consumers of an operation: each as often as it has a result of the operation among its
operands. -/
theorem users_eq (hk : k.Consistent) {o : Operation} (hx : k.op? x = some o) :
    ∃ us, k.users x = .ok us ∧ ∀ y, us.count y = (k.operandsOf y).countP (· ∈ o.results) := by
  have hwire : ∀ w ∈ o.results, ∃ wire, k.wire? w = some wire := by
    intro w hw
    obtain ⟨wire, hwire, -⟩ := hk.producer_of_mem hx hw
    exact ⟨wire, hwire⟩
  have hmap : ∀ ws : List Nat, ws.Nodup → (∀ w ∈ ws, ∃ wire, k.wire? w = some wire) →
      ∃ lists, (ws.mapM fun w => (·.users) <$> k.wire w : Except CircuitError _) = .ok lists ∧
        ∀ y, lists.flatten.count y = (k.operandsOf y).countP (· ∈ ws) := by
    intro ws
    induction ws with
    | nil => exact fun _ _ => ⟨[], rfl, by simp⟩
    | cons w rest ih =>
        intro hnodup h
        rw [List.nodup_cons] at hnodup
        obtain ⟨wire, hw⟩ := h w (by simp)
        obtain ⟨lists, hlists, hcount⟩ := ih hnodup.2 fun v hv => h v (by simp [hv])
        refine ⟨wire.users :: lists, ?_, ?_⟩
        · rw [List.mapM_cons, hlists]
          simp [Kernel.wire, hw, bind, Except.bind, pure, Except.pure, Functor.map, Except.map]
        · intro y
          rw [List.flatten_cons, List.count_append, hcount, countP_mem_cons _ hnodup.1,
            hk.uses w wire hw y, Nat.add_comm]
  obtain ⟨lists, hlists, hcount⟩ := hmap o.results (hk.results_nodup hx) hwire
  exact ⟨lists.flatten, by simp [users, hx, hlists, Except.map], hcount⟩

/-- Users are the operations that have the wire among their operands. -/
theorem mem_users (hk : k.Consistent) {wire : Wire} (hw : k.wire? w = some wire) :
    x ∈ wire.users ↔ w ∈ k.operandsOf x := by
  rw [← List.count_pos_iff, hk.uses w wire hw x, List.count_pos_iff]

/-- Nothing consumes a result of an operation without consumers. -/
theorem unconsumed (hk : k.Consistent) {o : Operation} (hx : k.op? x = some o)
    (hus : k.users x = .ok []) (y : Nat) : ∀ w ∈ o.results, w ∉ k.operandsOf y := by
  intro w hw hmem
  obtain ⟨us, hus', hcount⟩ := hk.users_eq hx
  rw [hus] at hus'
  cases hus'
  have hzero := hcount y
  rw [List.count_nil, eq_comm, List.countP_eq_zero] at hzero
  simpa [hw] using hzero w hmem

/-- An operation without consumers has no results that are used. -/
theorem unused (hk : k.Consistent) {o : Operation} (hx : k.op? x = some o)
    (hus : k.users x = .ok []) : ∀ w ∈ o.results, (k.wire? w).map (·.users) = some [] := by
  intro w hw
  obtain ⟨wire, hwire, -⟩ := hk.producer_of_mem hx hw
  rw [hwire, Option.map_some, Option.some.injEq, List.eq_nil_iff_forall_not_mem]
  exact fun y hy => hk.unconsumed hx hus y w hw ((hk.mem_users hwire).mp hy)

/-- Wires have at most one user exactly if no operation repeats an operand and no two operations
share one. -/
theorem single_iff (hk : k.Consistent) :
    (∀ w wire, k.wire? w = some wire → wire.users.length ≤ 1) ↔
      (∀ x, (k.operandsOf x).Nodup) ∧
        ∀ w x y, w ∈ k.operandsOf x → w ∈ k.operandsOf y → x = y := by
  constructor
  · refine fun hsingle => ⟨fun x => List.nodup_iff_count_le_one.mpr fun w => ?_,
      fun w x y hx hy => ?_⟩
    · by_cases hw : w < k.wires.size
      · obtain ⟨wire, hwire⟩ := exists_wire hw
        rw [← hk.uses w wire hwire x]
        exact Nat.le_trans List.count_le_length (hsingle w wire hwire)
      · rw [List.count_eq_zero.mpr fun hmem => hw (hk.operand x w hmem)]
        exact Nat.zero_le 1
    · obtain ⟨wire, hwire⟩ := exists_wire (hk.operand x w hx)
      rw [← hk.mem_users hwire] at hx hy
      have hlength := hsingle w wire hwire
      rcases hus : wire.users with _ | ⟨z, _ | ⟨z', rest⟩⟩
      · simp [hus] at hx
      · rw [hus, List.mem_singleton] at hx hy
        rw [hx, hy]
      · simp [hus] at hlength
  · rintro ⟨hnodup, hunique⟩ w wire hwire
    have hmem : ∀ x ∈ wire.users, w ∈ k.operandsOf x := fun x => (hk.mem_users hwire).mp
    rcases hus : wire.users with _ | ⟨x, _ | ⟨y, rest⟩⟩
    · simp
    · simp
    · obtain rfl := hunique w x y (hmem x (by simp [hus])) (hmem y (by simp [hus]))
      have htwice := List.nodup_iff_count_le_one.mp (hnodup x) w
      rw [← hk.uses w wire hwire x, hus] at htwice
      simp at htwice

/-- Asking for the consumers of any operation, there or not, succeeds. -/
theorem users_ok (hk : k.Consistent) (x : Nat) : ∃ us, k.users x = .ok us := by
  cases hx : k.op? x with
  | none => exact ⟨[], by simp [users, hx]⟩
  | some o =>
      obtain ⟨us, hus, -⟩ := hk.users_eq hx
      exact ⟨us, hus⟩

end Consistent

/-! ## Results of producers -/

/-- Every wire is a result of its producer. -/
def Made (k : Kernel) : Prop :=
  ∀ w wire, k.wire? w = some wire → ∃ o, k.op? wire.producer = some o ∧ w ∈ o.results

/-- A change that keeps results and producers keeps wires made. -/
theorem Made.congr {k' : Kernel} (hmade : k.Made)
    (hop : ∀ x o, k.op? x = some o → ∃ o', k'.op? x = some o' ∧ o'.results = o.results)
    (hwire : ∀ w wire', k'.wire? w = some wire' →
      ∃ wire, k.wire? w = some wire ∧ wire.producer = wire'.producer) : k'.Made := by
  intro w wire' hw'
  obtain ⟨wire, hw, hproducer⟩ := hwire w wire' hw'
  obtain ⟨o, ho, hmem⟩ := hmade w wire hw
  obtain ⟨o', ho', hresults⟩ := hop _ o ho
  exact ⟨o', hproducer ▸ ho', hresults ▸ hmem⟩

theorem Made.modifyOp (hmade : k.Made) {f : Operation → Operation}
    (hf : ∀ o, (f o).results = o.results) : (k.modifyOp x f).Made := by
  refine hmade.congr (fun y o hy => ?_) fun w wire hw => ⟨wire, hw, rfl⟩
  rw [op?_modifyOp]
  split
  · rename_i heq
    subst heq
    exact ⟨f o, by rw [hy, Option.map_some], hf o⟩
  · exact ⟨o, hy, rfl⟩

theorem Made.rewired (hmade : k.Made) (old new : List Nat) : (k.rewired x old new).Made := by
  refine hmade.congr (fun y o hy => ?_) fun w wire hw => ?_
  · rw [op?_rewired]
    split
    · rename_i heq
      subst heq
      exact ⟨{ o with operands := new }, by rw [hy, Option.map_some], rfl⟩
    · exact ⟨o, hy, rfl⟩
  · rw [wire?_rewired] at hw
    obtain ⟨wire', hw', rfl⟩ := Option.map_eq_some_iff.mp hw
    exact ⟨wire', hw', rfl⟩

/-- A new operation makes the fresh wires. -/
theorem Made.addOp (hmade : k.Made) {kind : OpKind} {ws : List Nat}
    (hws : ∀ w ∈ ws, w < k.wires.size) : (k.addOp kind ws).1.Made := by
  intro w wire hw
  rw [op?_addOp]
  rw [wire?_addOp hws] at hw
  split at hw
  · obtain ⟨wire', hw', rfl⟩ := Option.map_eq_some_iff.mp hw
    obtain ⟨o, ho, hmem⟩ := hmade w wire' hw'
    rw [if_neg (Nat.ne_of_lt (lt_of_op?_eq_some ho))]
    exact ⟨o, ho, hmem⟩
  · split at hw
    · cases hw
      rw [if_pos rfl]
      refine ⟨_, rfl, ?_⟩
      simp only [freshWires, List.mem_range'_1]
      omega
    · cases hw

end QubitMapper.Kernel
