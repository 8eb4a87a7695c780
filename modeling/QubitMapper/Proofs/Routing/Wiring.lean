import Mathlib.Data.List.Pairwise
import QubitMapper.Proofs.Routing.Emissions

/-!
# Wires during a run

Emitted operations are given physical qubits, and each takes its operands from there. `Wired` says
how the kernel stands between two emissions. The operations that are not emitted yet still use the
wires of the original kernel, so a wire may have two users for a while; among the emitted ones it
has at most one. What stands on a physical qubit is what the last emitted operation there left.

## Main results

* `Wired.emit`: one emission keeps the kernel wired.
* `Wired.single`: once everything is emitted, every wire has at most one user.
-/

namespace QubitMapper

/-! ## Wires on qubits -/

/-- How an operation fits the wires on its physical qubits: it takes its operands from there, or
allocates qubits that are empty, and leaves results there, or nothing if it is a sink. -/
structure Operation.Replaces (o : Operation) (onQubit : Current) (next : List (Option Nat)) :
    Prop where
  nonempty : o.physical ≠ []
  nodup : o.physical.Nodup
  lt : ∀ q ∈ o.physical, q < onQubit.size
  distinct : o.operands.Nodup
  empty : o.kind.isAlloc = true → o.operands = [] ∧ o.physical.length = 1 ∧
    ∀ q ∈ o.physical, onQubit[q]? = some none
  full : o.kind.isAlloc = false →
    List.Forall₂ (fun q w => onQubit[q]? = some (some w)) o.physical o.operands
  length : next.length = o.physical.length
  result : ∀ j w : Nat, next[j]? = some (some w) → o.results[j]? = some w
  vacant : none ∈ next → o.kind.isSink = true

section Replaces

variable {o : Operation} {onQubit : Current} {next : List (Option Nat)}

theorem Operation.Replaces.annotated (h : o.Replaces onQubit next) : o.Annotated where
  nonempty := h.nonempty
  nodup := h.nodup
  alloc halloc := ⟨(h.empty halloc).1, (h.empty halloc).2.1⟩
  other halloc := (h.full halloc).length_eq

/-- Operands stand on the qubits of the operation. -/
theorem Operation.Replaces.operand (h : o.Replaces onQubit next) {w : Nat} (hw : w ∈ o.operands) :
    ∃ q ∈ o.physical, onQubit[q]? = some (some w) := by
  cases halloc : o.kind.isAlloc with
  | true => simp [(h.empty halloc).1] at hw
  | false => exact forall₂_mem_right (h.full halloc) hw

/-- Qubits that the operation does not act on keep what stands on them, the others get results, or
nothing after a sink. -/
theorem Operation.Replaces.slot (h : o.Replaces onQubit next) {q : Nat} {slot : Option Nat}
    (hq : (onQubit.moveTo o.physical next)[q]? = some slot) :
    (q ∉ o.physical ∧ onQubit[q]? = some slot) ∨
      ∃ j : Nat, o.physical[j]? = some q ∧ next[j]? = some slot := by
  by_cases hmem : q ∈ o.physical
  · obtain ⟨j, hj⟩ := List.mem_iff_getElem?.mp hmem
    have hjlt : j < next.length := h.length ▸ (List.getElem?_eq_some_iff.mp hj).1
    have hnext := List.getElem?_eq_getElem hjlt
    rw [Current.moveTo_of_getElem? h.nodup hj hnext (h.lt q hmem)] at hq
    exact .inr ⟨j, hj, hnext.trans hq⟩
  · rw [Current.moveTo_of_not_mem hmem] at hq
    exact .inl ⟨hmem, hq⟩

/-- Qubits that the operation does not act on keep their wires, the others get results. -/
theorem Operation.Replaces.table (h : o.Replaces onQubit next) {q w : Nat}
    (hq : (onQubit.moveTo o.physical next)[q]? = some (some w)) :
    (q ∉ o.physical ∧ onQubit[q]? = some (some w)) ∨ o.Leaves q w := by
  refine (h.slot hq).imp_right ?_
  rintro ⟨j, hj, hnext⟩
  exact ⟨j, hj, h.result j w hnext⟩

end Replaces

/-! ## The kernel between two emissions -/

/-- How the kernel, the wires on the qubits and the emitted operations stand. -/
structure Wired (k₀ : Kernel) (n : Nat) (k : Kernel) (onQubit : Current) (es : List Nat) : Prop
    extends Fed k₀ k onQubit es where
  made : k₀.Made → k.Made
  blocks : k.blocks = k₀.blocks
  /-- Emitted operations have physical qubits. -/
  mapped : ∀ x ∈ es, ∃ o, k.op? x = some o ∧ o.Annotated
  /-- Emitted operations consume each wire at most once. -/
  consumed : (es.flatMap k.operandsOf).Nodup
  qubits : onQubit.size = n
  /-- A wire on a qubit is not consumed. -/
  free : ∀ (q w : Nat), onQubit[q]? = some (some w) → w ∉ es.flatMap k.operandsOf
  inj : ∀ q r w : Nat, onQubit[q]? = some (some w) → onQubit[r]? = some (some w) → q = r
  threaded : k.Threaded es
  /-- What stands on a qubit is what the last emitted operation there left. -/
  held : ∀ (q : Nat) slot, onQubit[q]? = some slot → k.Holds es q slot

namespace Wired

variable {k₀ k k' : Kernel} {n x : Nat} {onQubit : Current} {es : List Nat} {o : Operation}

theorem start (hk : k₀.Consistent) (n : Nat) : Wired k₀ n k₀ (Array.replicate n none) [] where
  toFed := .start hk n
  made := id
  blocks := rfl
  mapped := by simp
  consumed := List.nodup_nil
  qubits := by simp
  free := by simp
  inj := by simp [Array.getElem?_replicate]
  threaded := ⟨by simp [Kernel.thread], by simp [Kernel.thread]⟩
  held q slot hq := by
    obtain ⟨-, rfl⟩ : q < n ∧ none = slot := by simpa [Array.getElem?_replicate] using hq
    simp [Kernel.Holds, Kernel.thread]

/-! ## Emitting an operation -/

section Emit

variable {next : List (Option Nat)}

/-- The results of an operation that is being emitted are on no qubit so far. -/
private theorem result_fresh (h : Wired k₀ n k onQubit es) (he : k.Emits x o k') (hx : x ∉ es)
    {q w : Nat} (hw : w ∈ o.results) : onQubit[q]? ≠ some (some w) := by
  intro hq
  obtain ⟨wire, hwire, hproducer⟩ := he.consistent.producer_of_mem he.op hw
  obtain ⟨wire', hwire', hproducer'⟩ := h.wire_emit he hq
  cases hwire.symm.trans hwire'
  exact hx (hproducer ▸ hproducer')

/-- The results of an operation that is being emitted are consumed by nothing so far. -/
private theorem result_free (h : Wired k₀ n k onQubit es) (he : k.Emits x o k') (hx : x ∉ es)
    {w : Nat} (hw : w ∈ o.results) : w ∉ es.flatMap k.operandsOf := by
  intro hconsumed
  obtain ⟨y, hy, hwy⟩ := List.mem_flatMap.mp hconsumed
  obtain ⟨i, hi⟩ := List.mem_iff_getElem?.mp hy
  obtain ⟨wire, hwire, hproducer⟩ := h.ordered i y hi w hwy
  obtain ⟨wire', hwire', heq⟩ := he.producer w wire hwire
  obtain ⟨wire'', hwire'', hmade⟩ := he.consistent.producer_of_mem he.op hw
  cases hwire'.symm.trans hwire''
  rw [← heq, hmade] at hproducer
  exact hx (List.mem_of_mem_take hproducer)

/-- What stands on a qubit afterwards is consumed by nothing emitted. -/
private theorem free_emit (h : Wired k₀ n k onQubit es) (he : k.Emits x o k') (hx : x ∉ es)
    (ho : o.Replaces onQubit next) {q w : Nat}
    (hq : (onQubit.moveTo o.physical next)[q]? = some (some w)) :
    w ∉ es.flatMap k.operandsOf ++ o.operands := by
  rw [List.mem_append, not_or]
  rcases ho.table hq with ⟨hmem, hq⟩ | ⟨j, -, hw⟩
  · refine ⟨h.free q w hq, fun hoperand => ?_⟩
    obtain ⟨r, hr, hr'⟩ := ho.operand hoperand
    exact hmem (h.inj q r w hq hr' ▸ hr)
  · have hmem := List.mem_of_getElem? hw
    refine ⟨h.result_free he hx hmem, fun hoperand => ?_⟩
    obtain ⟨r, -, hr⟩ := ho.operand hoperand
    exact h.result_fresh he hx hmem hr

/-- No two qubits hold the same wire afterwards. -/
private theorem inj_emit (h : Wired k₀ n k onQubit es) (he : k.Emits x o k') (hx : x ∉ es)
    (ho : o.Replaces onQubit next) (q r w : Nat)
    (hq : (onQubit.moveTo o.physical next)[q]? = some (some w))
    (hr : (onQubit.moveTo o.physical next)[r]? = some (some w)) : q = r := by
  rcases ho.table hq with ⟨-, hq⟩ | ⟨i, hi, hw⟩ <;> rcases ho.table hr with ⟨-, hr⟩ | ⟨j, hj, hw'⟩
  · exact h.inj q r w hq hr
  · exact absurd hq (h.result_fresh he hx (List.mem_of_getElem? hw'))
  · exact absurd hr (h.result_fresh he hx (List.mem_of_getElem? hw))
  · have hij : i = j := by
      have hilt := (List.getElem?_eq_some_iff.mp hw).1
      have hnodup := he.consistent.results_nodup he.op
      exact (List.getElem?_inj hilt hnodup).mp (hw.trans hw'.symm)
    subst hij
    exact Option.some.inj (hi.symm.trans hj)

/-- Operations emitted before are the same afterwards. -/
private theorem op?_emit (he : k.Emits x o k') (hx : x ∉ es) : ∀ y ∈ es, k'.op? y = k.op? y := by
  intro y hy
  refine he.other y ?_
  rintro rfl
  exact hx hy

private theorem threaded_emit (h : Wired k₀ n k onQubit es) (he : k.Emits x o k') (hx : x ∉ es)
    (ho : o.Replaces onQubit next) : k'.Threaded (es ++ [x]) := by
  refine h.threaded.append (op?_emit he hx) he.op ?_ ?_
  · intro halloc q hq
    exact h.held q none ((ho.empty halloc).2.2 q hq)
  · intro halloc q hq
    obtain ⟨j, hj⟩ := List.mem_iff_getElem?.mp hq
    obtain ⟨w, hw, hslot⟩ := forall₂_getElem? (ho.full halloc) hj
    exact ⟨w, ⟨j, hj, hw⟩, h.held q (some w) hslot⟩

/-- What stands on a qubit afterwards was left by the last operation there. -/
private theorem held_emit (h : Wired k₀ n k onQubit es) (he : k.Emits x o k') (hx : x ∉ es)
    (ho : o.Replaces onQubit next) (q : Nat) (slot : Option Nat)
    (hq : (onQubit.moveTo o.physical next)[q]? = some slot) : k'.Holds (es ++ [x]) q slot := by
  rcases ho.slot hq with ⟨hmem, hq⟩ | ⟨j, hj, hnext⟩
  · exact (h.held q slot hq).append_of_not_mem (op?_emit he hx) he.op hmem
  · have hlast : (k'.thread (es ++ [x]) q).getLast? = some x := by
      rw [Kernel.thread_concat (op?_emit he hx) he.op, if_pos (List.mem_of_getElem? hj)]
      simp
    cases slot with
    | some w => exact ⟨x, hlast, o, he.op, j, hj, ho.result j w hnext⟩
    | none =>
        intro y hy
        obtain rfl : x = y := Option.some.inj (hlast.symm.trans hy)
        exact ⟨o, he.op, ho.vacant (List.mem_of_getElem? hnext)⟩

/-- An emission keeps the kernel wired. -/
theorem emit (h : Wired k₀ n k onQubit es) (he : k.Emits x o k') (hx : x ∉ es)
    (hold : ∀ o₀, k₀.op? x = some o₀ → o.kind = o₀.kind ∧ o.results = o₀.results)
    (ho : o.Replaces onQubit next) :
    Wired k₀ n k' (onQubit.moveTo o.physical next) (es ++ [x]) := by
  have hflat : (es ++ [x]).flatMap k'.operandsOf = es.flatMap k.operandsOf ++ o.operands := by
    rw [List.flatMap_append, he.flatMap_operandsOf hx]
    simp [Kernel.operandsOf_of_op? he.op]
  have hfed : Fed k₀ k' (onQubit.moveTo o.physical next) (es ++ [x]) := by
    refine h.toFed.emit he hx hold (fun w hw => ?_) fun q w hq => ?_
    · obtain ⟨q, -, hq⟩ := ho.operand hw
      exact ⟨q, hq⟩
    · exact (ho.table hq).imp And.right fun ⟨j, _, hw⟩ => List.mem_of_getElem? hw
  refine
    { toFed := hfed
      made := fun hmade => he.made (h.made hmade)
      blocks := he.blocks.trans h.blocks
      mapped := ?_
      consumed := ?_
      qubits := by rw [Current.size_moveTo, h.qubits]
      free := fun q w hq => hflat ▸ h.free_emit he hx ho hq
      inj := h.inj_emit he hx ho
      threaded := h.threaded_emit he hx ho
      held := h.held_emit he hx ho }
  · intro y hy
    by_cases hyx : y = x
    · subst hyx
      exact ⟨o, he.op, ho.annotated⟩
    · rw [he.other y hyx]
      exact h.mapped y (by simpa [hyx] using hy)
  · rw [hflat, List.nodup_append]
    refine ⟨h.consumed, ho.distinct, ?_⟩
    rintro w hw _ hw' rfl
    obtain ⟨q, -, hq⟩ := ho.operand hw'
    exact h.free q w hq hw

end Emit

/-- The wires on distinct qubits are distinct. -/
theorem nodup_wires (h : Wired k₀ n k onQubit es) {qs ws : List Nat} (hqs : qs.Nodup)
    (hws : List.Forall₂ (fun q w => onQubit[q]? = some (some w)) qs ws) : ws.Nodup :=
  nodup_of_forall₂ hws.flip (fun w q r hq hr => h.inj q r w hq hr) hqs

/-- An operation made for the device takes wires from its qubits, or allocates a qubit, and leaves
fresh ones there. It is none of the original kernel. -/
theorem emit_new (h : Wired k₀ n k onQubit es) (kind : OpKind) (ws ps : List Nat) (hne : ps ≠ [])
    (hnodup : ps.Nodup) (hlt : ∀ q ∈ ps, q < n) (hdistinct : ws.Nodup)
    (hempty : kind.isAlloc = true → ws = [] ∧ ps.length = 1 ∧ ∀ q ∈ ps, onQubit[q]? = some none)
    (hfull : kind.isAlloc = false →
      List.Forall₂ (fun q w => onQubit[q]? = some (some w)) ps ws)
    (hlen : kind.resultCount ws.length = ps.length) :
    let k' := (k.addOp kind ws).1.modifyOp k.ops.size ({ · with physical := ps })
    k.ops.size ∉ es ∧
    k.Emits k.ops.size ⟨kind, ws, k.freshWires (kind.resultCount ws.length), ps⟩ k' ∧
    Wired k₀ n k' (onQubit.moveTo ps ((k.freshWires ps.length).map some))
      (es ++ [k.ops.size]) := by
  intro k'
  have hreplaces : Operation.Replaces
      ⟨kind, ws, k.freshWires (kind.resultCount ws.length), ps⟩ onQubit
      ((k.freshWires ps.length).map some) :=
    { nonempty := hne
      nodup := hnodup
      lt := fun q hq => h.qubits ▸ hlt q hq
      distinct := hdistinct
      empty := hempty
      full := hfull
      length := by simp [Kernel.freshWires]
      result := fun j w hj => by
        rw [hlen]
        simpa using hj
      vacant := by simp }
  have hwires : ∀ w ∈ ws, w < k.wires.size := by
    intro w hw
    obtain ⟨q, -, hq⟩ := hreplaces.operand hw
    exact h.wire_lt hq
  have hemits : k.Emits k.ops.size _ k' := Kernel.Emits.addOp h.consistent hwires
  have hnew : k.ops.size ∉ es := h.size_not_mem
  refine ⟨hnew, hemits, h.emit hemits hnew (fun o₀ ho₀ => ?_) hreplaces⟩
  exact absurd (Kernel.lt_of_op?_eq_some ho₀) (Nat.not_lt.mpr h.size)

/-- An allocation leaves its wire on an empty qubit. -/
theorem place (h : Wired k₀ n k onQubit es) (hx : x ∉ es) (ho : k.op? x = some o)
    (halloc : o.kind.isAlloc = true) (hoperands : o.operands = []) {q w : Nat}
    (hresults : o.results = [w]) (hq : onQubit[q]? = some none) :
    let k' := k.modifyOp x ({ · with physical := [q] })
    k.Emits x { o with physical := [q] } k' ∧
    Wired k₀ n k' (onQubit.moveTo [q] [some w]) (es ++ [x]) := by
  intro k'
  have hemits : k.Emits x { o with physical := [q] } k' :=
    Kernel.Emits.setPhysical h.consistent ho
  refine ⟨hemits, h.emit hemits hx (fun o₀ ho₀ => ?_)
    { nonempty := List.cons_ne_nil _ _
      nodup := List.nodup_singleton _
      lt := by simpa using (Array.getElem?_eq_some_iff.mp hq).1
      distinct := by simp [hoperands]
      empty := fun _ => ⟨hoperands, rfl, by simpa using hq⟩
      full := by simp [halloc]
      length := rfl
      result := fun j v hj => by
        cases j with
        | zero => simpa [hresults] using hj
        | succ j => simp at hj
      vacant := by simp }⟩
  cases (h.pending x hx).symm.trans ho |>.symm.trans ho₀
  exact ⟨rfl, rfl⟩

/-- An operation is retired onto the wires of its qubits. -/
theorem retire (h : Wired k₀ n k onQubit es) (hx : x ∉ es) (ho : k.op? x = some o)
    (halloc : o.kind.isAlloc = false) {ps ws : List Nat} {next : List (Option Nat)} (hne : ps ≠ [])
    (hnodup : ps.Nodup) (hlt : ∀ q ∈ ps, q < n)
    (hws : List.Forall₂ (fun q w => onQubit[q]? = some (some w)) ps ws)
    (hnext : next.length = ps.length)
    (hresult : ∀ j w : Nat, next[j]? = some (some w) → o.results[j]? = some w)
    (hvacant : none ∈ next → o.kind.isSink = true) :
    let k' := (k.rewired x o.operands ws).modifyOp x ({ · with physical := ps })
    k.Emits x { o with operands := ws, physical := ps } k' ∧
    Wired k₀ n k' (onQubit.moveTo ps next) (es ++ [x]) := by
  intro k'
  have hwires : ∀ w ∈ ws, w < k.wires.size := by
    intro w hw
    obtain ⟨q, -, hq⟩ := forall₂_mem_right hws hw
    exact h.wire_lt hq
  have hemits : k.Emits x { o with operands := ws, physical := ps } k' :=
    Kernel.Emits.rewired h.consistent ho hwires
  refine ⟨hemits, h.emit hemits hx (fun o₀ ho₀ => ?_)
    { nonempty := hne
      nodup := hnodup
      lt := fun q hq => h.qubits ▸ hlt q hq
      distinct := h.nodup_wires hnodup hws
      empty := fun halloc' => absurd halloc' (Bool.eq_false_iff.mp halloc)
      full := fun _ => hws
      length := hnext
      result := hresult
      vacant := hvacant }⟩
  cases (h.pending x hx).symm.trans ho |>.symm.trans ho₀
  exact ⟨rfl, rfl⟩

/-- Emitted operations have their operands to themselves, as far as the emitted ones go. -/
theorem eq_of_consumed (h : Wired k₀ n k onQubit es) {w y : Nat} (hx : x ∈ es) (hy : y ∈ es)
    (hwx : w ∈ k.operandsOf x) (hwy : w ∈ k.operandsOf y) : x = y := by
  obtain ⟨-, hpairs⟩ := List.nodup_flatMap.mp h.consumed
  have : Std.Symm (Function.onFun List.Disjoint k.operandsOf) :=
    ⟨fun _ _ hd _ hz hy => hd hy hz⟩
  by_contra hxy
  exact hpairs.forall hx hy hxy hwx hwy

/-- Once everything is emitted, every wire has at most one user. -/
theorem single (h : Wired k₀ n k onQubit es) (hall : ∀ y o, k.op? y = some o → y ∈ es) :
    ∀ w wire, k.wire? w = some wire → wire.users.length ≤ 1 := by
  have hemitted : ∀ x w, w ∈ k.operandsOf x → x ∈ es := by
    intro x w hw
    obtain ⟨o, ho, -⟩ := Kernel.mem_operandsOf.mp hw
    exact hall x o ho
  refine h.consistent.single_iff.mpr ⟨fun x => ?_, fun w x y hx hy =>
    h.eq_of_consumed (hemitted x w hx) (hemitted y w hy) hx hy⟩
  by_cases hx : x ∈ es
  · exact (List.nodup_flatMap.mp h.consumed).1 x hx
  · have hnil : k.operandsOf x = [] :=
      List.eq_nil_iff_forall_not_mem.mpr fun w hw => hx (hemitted x w hw)
    rw [hnil]
    exact List.nodup_nil

end Wired

end QubitMapper
