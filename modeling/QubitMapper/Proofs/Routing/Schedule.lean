import QubitMapper.Proofs.Padding
import QubitMapper.Proofs.Routing.Frontier
import QubitMapper.Proofs.Routing.History

/-!
# What waits in a padded kernel

On a padded kernel the operations that wait are instructions of the program whose turn has come:
everything before them on their qubits is done. And as long as an instruction is left to do, one
waits.

## Main results

* `Padded.waiting_spec`: a waiting operation is an instruction that has awaited the earlier ones.
* `Padded.mem_visited_of_none_waiting`, `Padded.all_done`: what is done when nothing waits that
  leads to it; when nothing waits at all, everything.
-/

namespace QubitMapper

/-- The operations of the original kernel emitted so far: some allocations and the instructions
done, the last one in front. -/
def Program.visited (p : Program) (m : Nat) (done : List Nat) : List Nat :=
  done.reverse.map (p.numQubits + ·) ++ (List.range m).reverse.map p.sourceOp

theorem Program.mem_visited {p : Program} {m : Nat} {done : List Nat} {x : Nat} :
    x ∈ p.visited m done ↔ (∃ i ∈ done, x = p.numQubits + i) ∨ ∃ v < m, x = p.sourceOp v := by
  simp only [visited, List.mem_append, List.mem_map, List.mem_reverse, List.mem_range, eq_comm]

theorem Program.visited_append (p : Program) (m : Nat) (done : List Nat) (i : Nat) :
    p.visited m (done ++ [i]) = (p.numQubits + i) :: p.visited m done := by
  simp [visited]

theorem Program.visited_succ (p : Program) (m : Nat) :
    p.visited (m + 1) [] = p.sourceOp m :: p.visited m [] := by
  simp [visited, List.range_succ]

theorem Program.instruction_mem_visited {p : Program} {m i : Nat} {done : List Nat}
    (hi : i < p.instructions.length) : p.numQubits + i ∈ p.visited m done ↔ i ∈ done := by
  rw [mem_visited]
  constructor
  · rintro (⟨j, hj, heq⟩ | ⟨v, -, heq⟩)
    · obtain rfl : i = j := by omega
      exact hj
    · exact absurd heq.symm (sourceOp_ne hi)
  · exact fun h => .inl ⟨i, h, rfl⟩

theorem Program.source_mem_visited {p : Program} {m v : Nat} {done : List Nat}
    (hdone : ∀ i ∈ done, i < p.instructions.length) : p.sourceOp v ∈ p.visited m done ↔ v < m := by
  rw [mem_visited]
  constructor
  · rintro (⟨i, hi, heq⟩ | ⟨u, hu, heq⟩)
    · exact absurd heq (sourceOp_ne (hdone i hi))
    · exact sourceOp_inj heq ▸ hu
  · exact fun h => .inr ⟨v, h, rfl⟩

namespace Padded

variable {p : Program} {n m : Nat} {k : Kernel} {labels : Labels}

/-- Every wire of a padded kernel is labelled with a virtual qubit. -/
theorem label (h : Padded p n k labels) {w : Nat} (hw : w < k.wires.size) :
    ∃ v < n, labels[w]? = some v := by
  obtain ⟨wire, hwire⟩ := Kernel.exists_wire hw
  obtain ⟨o, ho, hmem⟩ := h.made w wire hwire
  rcases Program.sourceOp_or_instruction h.le (h.ops ▸ Kernel.lt_of_op?_eq_some ho) with
    ⟨v, hv, hx⟩ | ⟨i, hi, hx⟩
  · obtain ⟨w', hw', ho'⟩ := h.source v hv
    rw [hx, ho'] at ho
    cases ho
    exact ⟨v, hv, List.mem_singleton.mp hmem ▸ hw'⟩
  · have hins := List.getElem?_eq_getElem hi
    obtain ⟨o', ho', hencodes⟩ := h.instruction i _ hins
    rw [hx, ho'] at ho
    cases ho
    obtain ⟨q, hq, hlabel⟩ := forall₂_mem_left hencodes.results hmem
    have hq' : q ∈ p.instructions[i].qubits := by
      split at hq
      · cases hq
      · exact hq
    have := (h.valid _ (List.mem_of_getElem? hins)).lt q hq'
    exact ⟨q, Nat.lt_of_lt_of_le this h.le, hlabel⟩

theorem label_lt (h : Padded p n k labels) {w q : Nat} (hw : labels[w]? = some q) : q < n := by
  obtain ⟨v, hv, hlabel⟩ := h.label (h.known w q hw)
  cases hw.symm.trans hlabel
  exact hv

theorem labels_operands (h : Padded p n k labels) (x : Nat) :
    ∃ qubits, (k.operandsOf x).mapM (labels[·]?) = some qubits := by
  have hlt := h.consistent.operand x
  generalize k.operandsOf x = ws at hlt
  induction ws with
  | nil => exact ⟨[], rfl⟩
  | cons w rest ih =>
      obtain ⟨q, -, hq⟩ := h.label (hlt w List.mem_cons_self)
      obtain ⟨qubits, hrest⟩ := ih fun v hv => hlt v (List.mem_cons_of_mem _ hv)
      refine ⟨q :: qubits, ?_⟩
      rw [mapM_eq_some_iff] at hrest ⊢
      exact .cons hq hrest

/-- The operands of an instruction are labelled with its qubits. -/
theorem labels_instruction (h : Padded p n k labels) {i : Nat} {ins : Instruction}
    (hi : p.instructions[i]? = some ins) :
    (k.operandsOf (p.numQubits + i)).mapM (labels[·]?) = some ins.qubits := by
  obtain ⟨o, ho, hencodes⟩ := h.instruction i ins hi
  rw [Kernel.operandsOf_of_op? ho]
  exact mapM_eq_some_iff.mpr (hencodes.operands.imp fun w q hw => hw.1)

/-- What a padded kernel lists is there. -/
theorem exists_op (h : Padded p n k labels) {x : Nat} (hx : x < k.ops.size) :
    ∃ o, k.op? x = some o := by
  rcases Program.sourceOp_or_instruction h.le (h.ops ▸ hx) with ⟨v, hv, rfl⟩ | ⟨i, hi, rfl⟩
  · obtain ⟨w, -, ho⟩ := h.source v hv
    exact ⟨_, ho⟩
  · obtain ⟨o, ho, -⟩ := h.instruction i _ (List.getElem?_eq_getElem hi)
    exact ⟨o, ho⟩

/-- A wire is a result of its producer. -/
theorem exists_producer (h : Padded p n k labels) (x : Nat) : ∀ w ∈ k.operandsOf x, ∀ wire,
    k.wire? w = some wire → ∃ o, k.op? wire.producer = some o ∧ w ∈ o.results :=
  fun w _ => h.made w

theorem producers_source (h : Padded p n k labels) {v : Nat} (hv : v < n) :
    k.producers (p.sourceOp v) = [] := by
  obtain ⟨w, -, ho⟩ := h.source v hv
  simp [Kernel.producers, Kernel.operandsOf, ho]

/-- The producers of an instruction are where its qubits come from. -/
theorem producers_instruction (h : Padded p n k labels) {i : Nat} {ins : Instruction}
    (hi : p.instructions[i]? = some ins) :
    List.Forall₂ (fun x q => Origin p.numQubits (p.instructions.take i) q x)
      (k.producers (p.numQubits + i)) ins.qubits := by
  obtain ⟨o, ho, hencodes⟩ := h.instruction i ins hi
  unfold Kernel.producers
  rw [Kernel.operandsOf_of_op? ho]
  have hoperands := hencodes.operands
  generalize o.operands = ws, ins.qubits = qubits at hoperands
  induction hoperands with
  | nil => exact .nil
  | cons hw _ ih =>
      obtain ⟨-, wire, hwire, horigin⟩ := hw
      rw [List.filterMap_cons, hwire]
      exact .cons horigin ih

/-- An operation with operands is an instruction. -/
theorem exists_instruction (h : Padded p n k labels) {x : Nat} (hx : k.producers x ≠ []) :
    ∃ i ins, x = p.numQubits + i ∧ p.instructions[i]? = some ins := by
  have hlt : x < k.ops.size := by
    by_contra hge
    apply hx
    simp [Kernel.producers, Kernel.operandsOf, Kernel.op?_eq_none_of_le (Nat.not_lt.mp hge)]
  rcases Program.sourceOp_or_instruction h.le (h.ops ▸ hlt) with ⟨v, hv, rfl⟩ | ⟨i, hi, rfl⟩
  · exact absurd (h.producers_source hv) hx
  · exact ⟨i, _, rfl, List.getElem?_eq_getElem hi⟩

variable {d : Device} {π₀ π : Nat → Nat} {done : List Nat} {trace : List Instruction}
  {swaps : Nat} {f : Frontier} {waiting : List ReadyOp}

/-- On a padded kernel every operation waits as soon as the producers of its operands are
visited. -/
theorem ready_iff (h : Padded p n k labels) {visited : List Nat}
    (htracks : Tracks k labels visited f waiting) (x : Nat) :
    x ∈ (waiting ++ f.deferred).map (·.op) ↔
      x ∉ visited ∧ k.producers x ≠ [] ∧ ∀ y ∈ k.producers x, y ∈ visited := by
  obtain ⟨qubits, hqubits⟩ := h.labels_operands x
  rw [htracks.ready, hqubits, ne_eq, ne_eq,
    Kernel.operands_produced_iff h.consistent (h.exists_producer x),
    Kernel.producers_eq_nil_iff h.consistent]
  simp

/-- A waiting operation is an instruction on its own qubits that is not done, while everything
before it on these qubits is. -/
theorem waiting_spec (h : Padded p n k labels) (hhistory : History d p π₀ done π trace swaps)
    (htracks : Tracks k labels (p.visited m done) f waiting) {r : ReadyOp}
    (hr : r ∈ waiting ++ f.deferred) :
    ∃ i ins, r.op = p.numQubits + i ∧ p.instructions[i]? = some ins ∧ r.qubits = ins.qubits ∧
      i ∉ done ∧ p.Awaits done i ins := by
  obtain ⟨hnew, hne, hall⟩ := (h.ready_iff htracks r.op).mp (List.mem_map.mpr ⟨r, hr, rfl⟩)
  obtain ⟨i, ins, hop, hi⟩ := h.exists_instruction hne
  have hilt : i < p.instructions.length := (List.getElem?_eq_some_iff.mp hi).1
  rw [hop] at hnew hall
  rw [Program.instruction_mem_visited hilt] at hnew
  refine ⟨i, ins, hop, hi, ?_, hnew, ?_⟩
  · have hcarries := htracks.carries r hr
    unfold ReadyOp.Carries at hcarries
    rw [hop] at hcarries
    exact Option.some.inj (hcarries.symm.trans (h.labels_instruction hi))
  · -- the qubit comes from the last instruction before, which is done and waited for the others
    intro j hj earlier hearlier hjnot q hq hmem
    have hjlt : j < p.instructions.length := (List.getElem?_eq_some_iff.mp hearlier).1
    obtain ⟨x, hx, horigin⟩ := forall₂_mem_right (h.producers_instruction hi) hq
    have htake : (p.instructions.take i)[j]? = some earlier := by
      rw [List.getElem?_take, if_pos hj, hearlier]
    cases horigin with
    | alloc hnone => exact hnone earlier (List.mem_of_getElem? htake) hmem
    | last l last hl hlq hlater =>
        have hl' : p.instructions[l]? = some last := by
          rw [List.getElem?_take] at hl
          split at hl
          · exact hl
          · cases hl
        have hllt : l < p.instructions.length := (List.getElem?_eq_some_iff.mp hl').1
        have hldone : l ∈ done := (Program.instruction_mem_visited hllt).mp (hall _ hx)
        rcases Nat.lt_trichotomy j l with hjl | rfl | hlj
        · exact hhistory.closed l hldone last hl' j hjl earlier hearlier hjnot q hmem hlq
        · exact hjnot hldone
        · exact hlater j earlier hlj htake hmem

/-- A producer of an operand comes before the instruction that consumes it. -/
theorem producer_lt (h : Padded p n k labels) {x y : Nat} (hy : y ∈ k.producers x) : y < x := by
  obtain ⟨i, ins, rfl, hi⟩ := h.exists_instruction (List.ne_nil_of_mem hy)
  obtain ⟨q, hq, horigin⟩ := forall₂_mem_left (h.producers_instruction hi) hy
  have hlt := horigin.lt ((h.valid ins (List.mem_of_getElem? hi)).lt q hq)
  rw [List.length_take] at hlt
  omega

/-- When all allocations are emitted, everything is visited that has a property which its producers
share and which nothing has that waits. -/
theorem mem_visited_of_none_waiting (h : Padded p n k labels) {P : Nat → Prop}
    (hmappable : ∀ ins ∈ p.instructions, ins.qubits ≠ [])
    (htracks : Tracks k labels (p.visited n done) f waiting)
    (hclosed : ∀ x, P x → ∀ y ∈ k.producers x, P y)
    (hnone : ∀ r ∈ waiting ++ f.deferred, ¬ P r.op) :
    ∀ x < k.ops.size, P x → x ∈ p.visited n done := by
  intro x
  induction x using Nat.strongRecOn with
  | ind x ih =>
      intro hx hP
      rcases Program.sourceOp_or_instruction h.le (h.ops ▸ hx) with ⟨v, hv, rfl⟩ | ⟨i, hi, rfl⟩
      · exact Program.mem_visited.mpr (.inr ⟨v, hv, rfl⟩)
      · by_contra hnot
        have hproducers := h.producers_instruction (List.getElem?_eq_getElem hi)
        have hwaits : p.numQubits + i ∈ (waiting ++ f.deferred).map (·.op) := by
          rw [h.ready_iff htracks]
          refine ⟨hnot, fun hnil => ?_, fun y hy => ?_⟩
          · rw [hnil, List.forall₂_nil_left_iff] at hproducers
            exact hmappable _ (List.getElem_mem hi) hproducers
          · have hlt := h.producer_lt hy
            exact ih y hlt (Nat.lt_trans hlt hx) (hclosed _ hP y hy)
        obtain ⟨r, hr, hop⟩ := List.mem_map.mp hwaits
        exact hnone r hr (hop ▸ hP)

/-- When all allocations are emitted and nothing waits, everything is done. -/
theorem all_done (h : Padded p n k labels) (hmappable : ∀ ins ∈ p.instructions, ins.qubits ≠ [])
    (htracks : Tracks k labels (p.visited n done) f waiting)
    (hnone : waiting ++ f.deferred = []) : ∀ i < p.instructions.length, i ∈ done := by
  intro i hi
  rw [← Program.instruction_mem_visited (p := p) (m := n) hi]
  have hlt : p.numQubits + i < k.ops.size := by
    have := h.le
    rw [h.ops]
    omega
  refine h.mem_visited_of_none_waiting (P := fun _ => True) hmappable htracks
    (fun _ _ _ _ => trivial) ?_ _ hlt trivial
  simp [hnone]

end Padded

end QubitMapper
