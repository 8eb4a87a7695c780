import Mathlib.Data.List.Nodup
import QubitMapper.Proofs.Emission
import QubitMapper.Proofs.Kernel.Order
import QubitMapper.Proofs.Kernel.Threads
import QubitMapper.Proofs.Lowering

/-!
# Emissions

A run emits operations one after the other: one of the program is rewired onto the wires that stand
on its qubits, or a new one is made, and it leaves its results on qubits. Wherever a run starts,
every wire on a qubit comes from an emitted operation, so what is emitted only consumes what was
emitted before, and what is not emitted is as it was.

## Main results

* `Fed.emit`, `Fed.emit_new`: one emission keeps it so.
* `Fed.users_spec`: the consumers of an operation that has just been emitted, or has not been.
-/

namespace QubitMapper

/-! ## Emissions -/

/-- What an emission does to a kernel: one operation is changed or new, and wires keep their
producers. -/
structure Kernel.Emits (k : Kernel) (x : Nat) (o : Operation) (k' : Kernel) : Prop where
  consistent : k'.Consistent
  blocks : k'.blocks = k.blocks
  op : k'.op? x = some o
  other : ∀ y, y ≠ x → k'.op? y = k.op? y
  size : k.ops.size ≤ k'.ops.size
  producer : ∀ w wire, k.wire? w = some wire →
    ∃ wire', k'.wire? w = some wire' ∧ wire'.producer = wire.producer
  made : k.Made → k'.Made

namespace Kernel.Emits

variable {k k' : Kernel} {x : Nat} {o : Operation} {ws p : List Nat}

theorem setPhysical (hk : k.Consistent) (hx : k.op? x = some o) :
    k.Emits x { o with physical := p } (k.modifyOp x ({ · with physical := p })) where
  consistent := hk.modifyOp fun _ => ⟨rfl, rfl⟩
  blocks := rfl
  op := by simp [hx]
  other y hy := by simp [Ne.symm hy]
  size := by simp [Kernel.modifyOp]
  producer w wire hw := ⟨wire, hw, rfl⟩
  made hmade := hmade.modifyOp fun _ => rfl

theorem addOp (hk : k.Consistent) {kind : OpKind} (hws : ∀ w ∈ ws, w < k.wires.size) :
    k.Emits k.ops.size
      { kind, operands := ws, results := k.freshWires (kind.resultCount ws.length), physical := p }
      ((k.addOp kind ws).1.modifyOp k.ops.size ({ · with physical := p })) where
  consistent := (hk.addOp hws).modifyOp fun _ => ⟨rfl, rfl⟩
  blocks := by simp [Kernel.modifyOp]
  op := by simp [Kernel.op?_addOp]
  other y hy := by simp [Kernel.op?_addOp, Ne.symm hy, hy]
  size := by simp [Kernel.modifyOp]
  producer w wire hw := by
    rw [Kernel.wire?_modifyOp]
    exact Kernel.wire?_addOp_of_eq_some hws hw
  made hmade := (hmade.addOp hws).modifyOp fun _ => rfl

theorem rewired (hk : k.Consistent) (hx : k.op? x = some o) (hws : ∀ w ∈ ws, w < k.wires.size) :
    k.Emits x { o with operands := ws, physical := p }
      ((k.rewired x o.operands ws).modifyOp x ({ · with physical := p })) where
  consistent := (hk.rewired hx hws).modifyOp fun _ => ⟨rfl, rfl⟩
  blocks := by simp [Kernel.modifyOp]
  op := by simp [Kernel.op?_rewired, hx]
  other y hy := by simp [Kernel.op?_rewired, Ne.symm hy]
  size := by simp [Kernel.modifyOp]
  producer w wire hw := by
    rw [Kernel.wire?_modifyOp, Kernel.wire?_rewired, hw]
    exact ⟨_, rfl, rfl⟩
  made hmade := (hmade.rewired _ _).modifyOp fun _ => rfl

theorem operandsOf (he : k.Emits x o k') {y : Nat} (hy : y ≠ x) :
    k'.operandsOf y = k.operandsOf y := Kernel.operandsOf_congr (he.other y hy)

theorem flatMap_operandsOf (he : k.Emits x o k') {es : List Nat} (hx : x ∉ es) :
    es.flatMap k'.operandsOf = es.flatMap k.operandsOf := by
  refine List.flatMap_congr fun y hy => he.operandsOf ?_
  rintro rfl
  exact hx hy

/-- An emission adds its instruction to the trace. -/
theorem trace (he : k.Emits x o k') {es : List Nat} (hx : x ∉ es) :
    k'.trace (es ++ [x]) =
      k.trace es ++ if o.kind.isAlloc then [] else [⟨o.kind, o.physical⟩] := by
  have hold : k'.trace es = k.trace es := by
    apply List.filterMap_congr
    intro y hy
    have hyx : y ≠ x := by
      rintro rfl
      exact hx hy
    rw [Kernel.instruction?, Kernel.instruction?, he.other y hyx]
  have hnew : k'.instruction? x =
      if o.kind.isAlloc then none else some ⟨o.kind, o.physical⟩ := by
    rw [Kernel.instruction?, he.op]
    rfl
  unfold Kernel.trace at hold ⊢
  rw [List.filterMap_append, hold]
  congr 1
  rw [List.filterMap_cons, hnew]
  split <;> simp_all

end Kernel.Emits

/-! ## Emitted operations feed each other -/

/-- The emitted operations consume, and the qubits hold, what others emitted before have left. -/
structure Fed (k₀ k : Kernel) (onQubit : Current) (es : List Nat) : Prop where
  consistent : k.Consistent
  size : k₀.ops.size ≤ k.ops.size
  old : ∀ x o₀, k₀.op? x = some o₀ →
    ∃ o, k.op? x = some o ∧ o.kind = o₀.kind ∧ o.results = o₀.results
  /-- What is not emitted is as it was. -/
  pending : ∀ x, x ∉ es → k.op? x = k₀.op? x
  listed : ∀ x ∈ es, x < k.ops.size
  nodup : es.Nodup
  ordered : k.ProducersFirst es
  /-- A wire on a qubit comes from an emitted operation. -/
  wire : ∀ q w : Nat, onQubit[q]? = some (some w) →
    ∃ wire, k.wire? w = some wire ∧ wire.producer ∈ es

namespace Fed

variable {k₀ k k' : Kernel} {x : Nat} {onQubit onQubit' : Current} {es : List Nat} {o : Operation}

theorem start (hk : k₀.Consistent) (n : Nat) : Fed k₀ k₀ (Array.replicate n none) [] where
  consistent := hk
  size := Nat.le_refl _
  old x o₀ hx := ⟨o₀, hx, rfl, rfl⟩
  pending _ _ := rfl
  listed := by simp
  nodup := List.nodup_nil
  ordered := by simp [Kernel.ProducersFirst]
  wire := by simp [Array.getElem?_replicate]

/-- The wires on qubits are wires of the kernel. -/
theorem wire_lt (h : Fed k₀ k onQubit es) {q w : Nat} (hw : onQubit[q]? = some (some w)) :
    w < k.wires.size := by
  obtain ⟨wire, hwire, -⟩ := h.wire q w hw
  exact Kernel.lt_of_wire?_eq_some hwire

/-- A new operation is none of the emitted ones. -/
theorem size_not_mem (h : Fed k₀ k onQubit es) : k.ops.size ∉ es :=
  fun hmem => Nat.lt_irrefl _ (h.listed _ hmem)

/-- An operation is not emitted before its results are consumed: neither if it is not emitted at
all, nor if it is the last one. -/
theorem not_consumed (h : Fed k₀ k onQubit es) (hx : k.op? x = some o)
    (hlast : x ∉ es ∨ es.getLast? = some x) {w : Nat} (hw : w ∈ o.results) :
    w ∉ es.flatMap k.operandsOf := by
  intro hmem
  obtain ⟨y, hy, hwy⟩ := List.mem_flatMap.mp hmem
  obtain ⟨i, hi⟩ := List.mem_iff_getElem?.mp hy
  obtain ⟨wire, hwire, hproducer⟩ := h.ordered i y hi w hwy
  obtain ⟨wire', hwire', hx'⟩ := h.consistent.producer_of_mem hx hw
  cases hwire.symm.trans hwire'
  rw [hx'] at hproducer
  rcases hlast with hnot | hlast
  · exact hnot (List.mem_of_mem_take hproducer)
  · -- the last operation does not stand among the first `i` ones
    have hilt : i < es.length := (List.getElem?_eq_some_iff.mp hi).1
    obtain ⟨front, rfl⟩ := List.getLast?_eq_some_iff.mp hlast
    have hnodup := h.nodup
    rw [List.nodup_append] at hnodup
    rw [List.take_append_of_le_length (by simp at hilt; omega)] at hproducer
    exact hnodup.2.2 x (List.mem_of_mem_take hproducer) x (by simp) rfl

/-- The consumers of an operation whose results nothing emitted consumes: what is not emitted
consumes them as in the original kernel. -/
theorem users_spec (h : Fed k₀ k onQubit es) (hx : k.op? x = some o)
    (hlast : x ∉ es ∨ es.getLast? = some x) :
    ∃ us, k.users x = .ok us ∧ ∀ y, us.count y =
      if y ∈ es then 0 else (k₀.operandsOf y).countP (· ∈ o.results) := by
  obtain ⟨us, hus, hcount⟩ := h.consistent.users_eq hx
  refine ⟨us, hus, fun y => ?_⟩
  rw [hcount]
  split
  · rename_i hy
    rw [List.countP_eq_zero]
    intro w hw
    simp only [decide_eq_true_eq]
    exact fun hmem => h.not_consumed hx hlast hmem (List.mem_flatMap.mpr ⟨y, hy, hw⟩)
  · rename_i hy
    rw [Kernel.operandsOf_congr (h.pending y hy)]

/-- Wires on qubits keep their producers. -/
theorem wire_emit (h : Fed k₀ k onQubit es) (he : k.Emits x o k') {q w : Nat}
    (hq : onQubit[q]? = some (some w)) :
    ∃ wire, k'.wire? w = some wire ∧ wire.producer ∈ es := by
  obtain ⟨wire, hw, hproducer⟩ := h.wire q w hq
  obtain ⟨wire', hw', heq⟩ := he.producer w wire hw
  exact ⟨wire', hw', heq ▸ hproducer⟩

private theorem ordered_emit (h : Fed k₀ k onQubit es) (he : k.Emits x o k') (hx : x ∉ es)
    (hoperand : ∀ w ∈ o.operands, ∃ q : Nat, onQubit[q]? = some (some w)) :
    k'.ProducersFirst (es ++ [x]) := by
  intro i y hi w hw
  rw [List.getElem?_append] at hi
  split at hi
  · rename_i hilt
    have hyx : y ≠ x := fun heq => hx (heq ▸ List.mem_of_getElem? hi)
    rw [he.operandsOf hyx] at hw
    obtain ⟨wire, hwire, hproducer⟩ := h.ordered i y hi w hw
    obtain ⟨wire', hwire', heq⟩ := he.producer w wire hwire
    rw [List.take_append_of_le_length (Nat.le_of_lt hilt)]
    exact ⟨wire', hwire', heq ▸ hproducer⟩
  · rename_i hige
    obtain rfl := List.mem_singleton.mp (List.mem_of_getElem? hi)
    have hi' : i = es.length := by
      have := (List.getElem?_eq_some_iff.mp hi).1
      rw [List.length_singleton] at this
      omega
    subst hi'
    rw [List.take_left]
    rw [Kernel.operandsOf_of_op? he.op] at hw
    obtain ⟨q, hq⟩ := hoperand w hw
    exact h.wire_emit he hq

/-- An operation that takes its operands from qubits is emitted, and qubits keep what they hold,
lose it or get results of the operation. -/
theorem emit (h : Fed k₀ k onQubit es) (he : k.Emits x o k') (hx : x ∉ es)
    (hold : ∀ o₀, k₀.op? x = some o₀ → o.kind = o₀.kind ∧ o.results = o₀.results)
    (hoperand : ∀ w ∈ o.operands, ∃ q : Nat, onQubit[q]? = some (some w))
    (hnext : ∀ q w : Nat, onQubit'[q]? = some (some w) →
      onQubit[q]? = some (some w) ∨ w ∈ o.results) : Fed k₀ k' onQubit' (es ++ [x]) where
  consistent := he.consistent
  size := Nat.le_trans h.size he.size
  old y o₀ hy := by
    by_cases hyx : y = x
    · subst hyx
      exact ⟨o, he.op, hold o₀ hy⟩
    · rw [he.other y hyx]
      exact h.old y o₀ hy
  pending y hy := by
    rw [List.mem_append, List.mem_singleton, not_or] at hy
    rw [he.other y hy.2, h.pending y hy.1]
  listed y hy := by
    rcases List.mem_append.mp hy with hy | hy
    · exact Nat.lt_of_lt_of_le (h.listed y hy) he.size
    · rw [List.mem_singleton.mp hy]
      exact Kernel.lt_of_op?_eq_some he.op
  nodup := by
    rw [List.nodup_append]
    refine ⟨h.nodup, List.nodup_singleton _, ?_⟩
    rintro y hy _ hy' rfl
    exact hx (List.mem_singleton.mp hy' ▸ hy)
  ordered := h.ordered_emit he hx hoperand
  wire q w hq := by
    rcases hnext q w hq with hq | hw
    · obtain ⟨wire, hw, hproducer⟩ := h.wire_emit he hq
      exact ⟨wire, hw, List.mem_append_left _ hproducer⟩
    · obtain ⟨wire, hw, hproducer⟩ := he.consistent.producer_of_mem he.op hw
      exact ⟨wire, hw, by simp [hproducer]⟩

/-- A new operation that takes its operands from qubits is emitted, and leaves its results there. -/
theorem emit_new (h : Fed k₀ k onQubit es) {kind : OpKind} {ws ps : List Nat}
    (hws : ∀ w ∈ ws, ∃ q : Nat, onQubit[q]? = some (some w))
    (hnext : ∀ q w : Nat, onQubit'[q]? = some (some w) →
      onQubit[q]? = some (some w) ∨ w ∈ k.freshWires (kind.resultCount ws.length)) :
    Fed k₀ ((k.addOp kind ws).1.modifyOp k.ops.size ({ · with physical := ps })) onQubit'
      (es ++ [k.ops.size]) := by
  have hlt : ∀ w ∈ ws, w < k.wires.size := fun w hw => h.wire_lt (hws w hw).choose_spec
  refine h.emit (.addOp h.consistent hlt) h.size_not_mem (fun o₀ ho₀ => ?_) hws hnext
  exact absurd (Kernel.lt_of_op?_eq_some ho₀) (Nat.not_lt.mpr h.size)

end Fed

end QubitMapper
