import Mathlib.Data.List.Chain
import QubitMapper.Proofs.Kernel.Consistent

/-!
# Threads

A mapped kernel tells twice where its operations act: operands and results link operations by wires,
and each operation lists physical qubits. The operations of an order that list a physical qubit are
the *thread* of that qubit. In a threaded kernel both stories agree: along each thread every
operation takes the wire that the one before it left on the qubit, unless that was a sink, behind
which the qubit is allocated anew.

## Main results

* `Kernel.Threaded.append`: one operation more at the end of the order.
* `Kernel.Threaded.erase`: an allocation that nothing uses taken out.
* `Kernel.Threaded.producer`: an operand comes from the physical qubit where it is consumed.
-/

namespace QubitMapper

/-- The physical qubits of an operation: distinct ones, one for each operand, and a single one for
an allocation. -/
structure Operation.Annotated (o : Operation) : Prop where
  nonempty : o.physical ≠ []
  nodup : o.physical.Nodup
  alloc : o.kind.isAlloc = true → o.operands = [] ∧ o.physical.length = 1
  other : o.kind.isAlloc = false → o.physical.length = o.operands.length

/-- An operation takes a wire from a physical qubit. -/
def Operation.Takes (o : Operation) (q w : Nat) : Prop :=
  ∃ j : Nat, o.physical[j]? = some q ∧ o.operands[j]? = some w

/-- An operation leaves a wire on a physical qubit. -/
def Operation.Leaves (o : Operation) (q w : Nat) : Prop :=
  ∃ j : Nat, o.physical[j]? = some q ∧ o.results[j]? = some w

namespace Kernel

/-- Whether an operation acts on a physical qubit. -/
def actsOn (k : Kernel) (q x : Nat) : Bool := (k.op? x).any (·.physical.contains q)

/-- The operations of an order that act on a physical qubit. -/
def thread (k : Kernel) (order : List Nat) (q : Nat) : List Nat := order.filter (k.actsOn q)

/-- On a physical qubit an operation follows another: it takes the wire that the other one left
there, or it allocates the qubit that the other one sank. -/
def Follows (k : Kernel) (q x y : Nat) : Prop :=
  ∃ o o', k.op? x = some o ∧ k.op? y = some o' ∧
    ((∃ w, o.Leaves q w ∧ o'.Takes q w) ∨ o.kind.isSink = true ∧ o'.kind.isAlloc = true)

/-- What the last operation on a physical qubit left there; nothing if that was a sink, or if there
was none. -/
def Holds (k : Kernel) (order : List Nat) (q : Nat) : Option Nat → Prop
  | some w => ∃ x ∈ (k.thread order q).getLast?, ∃ o, k.op? x = some o ∧ o.Leaves q w
  | none => ∀ x ∈ (k.thread order q).getLast?, ∃ o, k.op? x = some o ∧ o.kind.isSink = true

/-- Every thread begins with an allocation, and its operations follow each other. -/
structure Threaded (k : Kernel) (order : List Nat) : Prop where
  first : ∀ q, ∀ x ∈ (k.thread order q).head?, ∃ o, k.op? x = some o ∧ o.kind.isAlloc = true
  chain : ∀ q, (k.thread order q).IsChain (k.Follows q)

variable {k k' : Kernel} {order : List Nat} {q x y : Nat} {o : Operation}

/-! ## Threads of orders -/

theorem thread_append (order order' : List Nat) :
    k.thread (order ++ order') q = k.thread order q ++ k.thread order' q :=
  List.filter_append ..

theorem mem_thread : x ∈ k.thread order q ↔ x ∈ order ∧ ∃ o, k.op? x = some o ∧ q ∈ o.physical := by
  simp [thread, actsOn, Option.any_eq_true]

/-- The thread of a single operation. -/
theorem thread_singleton (hx : k.op? x = some o) :
    k.thread [x] q = if q ∈ o.physical then [x] else [] := by
  simp [thread, actsOn, hx, List.filter_cons]

theorem thread_congr (h : ∀ y ∈ order, k'.op? y = k.op? y) :
    k'.thread order q = k.thread order q := by
  apply List.filter_congr
  intro y hy
  rw [actsOn, actsOn, h y hy]

theorem Follows.congr (h : k.Follows q x y) (hx : k'.op? x = k.op? x) (hy : k'.op? y = k.op? y) :
    k'.Follows q x y := by
  unfold Follows at h ⊢
  rw [hx, hy]
  exact h

theorem Holds.congr {slot : Option Nat} (h : k.Holds order q slot)
    (hop : ∀ y ∈ order, k'.op? y = k.op? y) : k'.Holds order q slot := by
  have hmem : ∀ y ∈ (k.thread order q).getLast?, k'.op? y = k.op? y := fun y hy =>
    hop y (mem_thread.mp (List.mem_of_getLast? hy)).1
  cases slot with
  | some w =>
      obtain ⟨y, hy, o, ho, hleaves⟩ := h
      exact ⟨y, by rwa [thread_congr hop], o, (hmem y hy).trans ho, hleaves⟩
  | none =>
      intro y hy
      rw [thread_congr hop] at hy
      obtain ⟨o, ho, hsink⟩ := h y hy
      exact ⟨o, (hmem y hy).trans ho, hsink⟩

/-- Threads are about the operations of the order only. -/
theorem Threaded.congr (h : k.Threaded order) (hop : ∀ y ∈ order, k'.op? y = k.op? y) :
    k'.Threaded order := by
  have hmem : ∀ q, ∀ y ∈ k.thread order q, k'.op? y = k.op? y := fun q y hy =>
    hop y (mem_thread.mp hy).1
  refine ⟨fun q y hy => ?_, fun q => ?_⟩
  · rw [thread_congr hop] at hy
    obtain ⟨o, ho, halloc⟩ := h.first q y hy
    exact ⟨o, (hmem q y (List.mem_of_head? hy)).trans ho, halloc⟩
  · rw [thread_congr hop]
    exact (h.chain q).imp_of_mem_imp fun y z hy hz hyz => hyz.congr (hmem q y hy) (hmem q z hz)

/-! ## Changing the order -/

section Append

variable (hop : ∀ y ∈ order, k'.op? y = k.op? y) (hx : k'.op? x = some o)

include hop hx

/-- The threads of an order with one operation more. -/
theorem thread_concat :
    k'.thread (order ++ [x]) q = k.thread order q ++ if q ∈ o.physical then [x] else [] := by
  rw [thread_append, thread_congr hop, thread_singleton hx]

/-- Where the new operation does not act, everything stays. -/
theorem Holds.append_of_not_mem {slot : Option Nat} (h : k.Holds order q slot)
    (hq : q ∉ o.physical) : k'.Holds (order ++ [x]) q slot := by
  have hthread : k'.thread (order ++ [x]) q = k'.thread order q := by
    rw [thread_append, thread_singleton hx, if_neg hq, List.append_nil]
  have := h.congr hop
  cases slot with
  | some w =>
      unfold Holds at this ⊢
      rwa [hthread]
  | none =>
      unfold Holds at this ⊢
      rwa [hthread]

/-- An operation at the end of the order keeps the kernel threaded if it takes what stands on its
qubits, or allocates qubits where nothing stands. -/
theorem Threaded.append (h : k.Threaded order)
    (hempty : o.kind.isAlloc = true → ∀ q ∈ o.physical, k.Holds order q none)
    (hfull : o.kind.isAlloc = false → ∀ q ∈ o.physical, ∃ w, o.Takes q w ∧
      k.Holds order q (some w)) :
    k'.Threaded (order ++ [x]) := by
  have hchain : ∀ q, (k.thread order q).IsChain (k'.Follows q) := by
    intro q
    refine (h.chain q).imp_of_mem_imp fun y z hy hz hyz => ?_
    exact hyz.congr (hop y (mem_thread.mp hy).1) (hop z (mem_thread.mp hz).1)
  have hold : ∀ q, ∀ y ∈ (k.thread order q).getLast?, k'.op? y = k.op? y := fun q y hy =>
    hop y (mem_thread.mp (List.mem_of_getLast? hy)).1
  refine ⟨fun q y hy => ?_, fun q => ?_⟩
  · rw [thread_concat hop hx] at hy
    cases hthread : k.thread order q with
    | cons z rest =>
        rw [hthread, List.cons_append, List.head?_cons, Option.mem_some_iff] at hy
        subst hy
        obtain ⟨o', ho', halloc⟩ := h.first q z (by simp [hthread])
        have hz : z ∈ k.thread order q := by simp [hthread]
        exact ⟨o', (hop z (mem_thread.mp hz).1).trans ho', halloc⟩
    | nil =>
        rw [hthread, List.nil_append] at hy
        split at hy
        · rename_i hq
          obtain rfl : x = y := by simpa using hy
          refine ⟨o, hx, ?_⟩
          -- a qubit without operations holds no wire that the operation could take
          by_contra halloc
          obtain ⟨w, -, z, hz, -⟩ := hfull (by simpa using halloc) q hq
          simp [hthread] at hz
        · simp at hy
  · rw [thread_concat hop hx]
    split
    · rename_i hq
      refine (hchain q).append (List.isChain_singleton x) fun y hy z hz => ?_
      obtain rfl : x = z := by simpa using hz
      cases halloc : o.kind.isAlloc with
      | true =>
          obtain ⟨o', ho', hsink⟩ := hempty halloc q hq y hy
          exact ⟨o', o, (hold q y hy).trans ho', hx, .inr ⟨hsink, halloc⟩⟩
      | false =>
          obtain ⟨w, htakes, y', hy', o', ho', hleaves⟩ := hfull halloc q hq
          cases (Option.mem_def.mp hy).symm.trans (Option.mem_def.mp hy')
          exact ⟨o', o, (hold q y hy).trans ho', hx, .inl ⟨w, hleaves, htakes⟩⟩
    · rw [List.append_nil]
      exact hchain q

end Append

/-- An allocation is the last operation on its qubit if nothing consumes its results. -/
private theorem Threaded.last_of_unused (h : k.Threaded order) (hx : k.op? x = some o)
    (halloc : o.kind.isAlloc = true)
    (hunused : ∀ y ∈ order, ∀ w ∈ o.results, w ∉ k.operandsOf y) {before after : List Nat}
    (hthread : k.thread order q = before ++ x :: after) : after = [] := by
  cases after with
  | nil => rfl
  | cons y after =>
      exfalso
      have hy : y ∈ k.thread order q := by simp [hthread]
      have hchain := h.chain q
      rw [hthread, List.isChain_append_cons_cons] at hchain
      obtain ⟨-, ⟨o₁, o₂, ho₁, ho₂, hlink⟩, -⟩ := hchain
      cases hx.symm.trans ho₁
      rcases hlink with ⟨w, ⟨i, -, hw⟩, j, -, hw'⟩ | ⟨hsink, -⟩
      · refine hunused y (mem_thread.mp hy).1 w (List.mem_of_getElem? hw) ?_
        rw [operandsOf_of_op? ho₂]
        exact List.mem_of_getElem? hw'
      · cases hkind : o.kind <;> simp_all [OpKind.isAlloc, OpKind.isSink]

private theorem filter_bne_eq_self {l : List Nat} (h : x ∉ l) : l.filter (· != x) = l := by
  rw [List.filter_eq_self]
  rintro y hy
  rw [bne_iff_ne]
  rintro rfl
  exact h hy

/-- An allocation that nothing uses may be taken out. -/
theorem Threaded.erase (h : k.Threaded order) (hnodup : order.Nodup) (hx : k.op? x = some o)
    (halloc : o.kind.isAlloc = true)
    (hunused : ∀ y ∈ order, ∀ w ∈ o.results, w ∉ k.operandsOf y)
    (hop : ∀ y, y ≠ x → k'.op? y = k.op? y) : k'.Threaded (order.filter (· != x)) := by
  have hkept : ∀ y ∈ order.filter (· != x), k'.op? y = k.op? y := fun y hy =>
    hop y (by simpa using (List.mem_filter.mp hy).2)
  have hthread : ∀ q, k'.thread (order.filter (· != x)) q <+: k.thread order q := by
    intro q
    have hcomm : k'.thread (order.filter (· != x)) q = (k.thread order q).filter (· != x) := by
      rw [thread_congr hkept, thread, thread, List.filter_comm]
    rw [hcomm]
    by_cases hmem : x ∈ k.thread order q
    · obtain ⟨before, after, hsplit⟩ := List.mem_iff_append.mp hmem
      obtain rfl := h.last_of_unused hx halloc hunused hsplit
      have hnew : x ∉ before := by
        have := hnodup.filter (k.actsOn q)
        rw [← thread, hsplit, List.nodup_append] at this
        exact fun hb => this.2.2 x hb x (by simp) rfl
      rw [hsplit, List.filter_append, filter_bne_eq_self hnew]
      exact ⟨[x], by simp⟩
    · exact ⟨[], by rw [filter_bne_eq_self hmem, List.append_nil]⟩
  have hold : ∀ q, ∀ y ∈ k'.thread (order.filter (· != x)) q, k'.op? y = k.op? y := fun q y hy =>
    hkept y (mem_thread.mp hy).1
  refine ⟨fun q y hy => ?_, fun q => ?_⟩
  · obtain ⟨rest, hrest⟩ := hthread q
    obtain ⟨o', ho', halloc'⟩ := h.first q y (by
      rw [← hrest]
      exact List.mem_head?_append_of_mem_head? hy)
    exact ⟨o', (hold q y (List.mem_of_head? hy)).trans ho', halloc'⟩
  · obtain ⟨rest, hrest⟩ := hthread q
    have hchain := h.chain q
    rw [← hrest, List.isChain_append] at hchain
    exact hchain.1.imp_of_mem_imp fun y z hy hz hyz => hyz.congr (hold q y hy) (hold q z hz)

/-! ## Wires and qubits -/

/-- In a threaded kernel an operand comes from an operation that stands earlier and left it on the
physical qubit where it is consumed. -/
theorem Threaded.producer (h : k.Threaded order) (hk : k.Consistent) {i j w : Nat}
    (hi : order[i]? = some x) (hx : k.op? x = some o) (ho : o.Annotated)
    (hj : o.operands[j]? = some w) :
    ∃ y o' wire, k.wire? w = some wire ∧ wire.producer = y ∧ y ∈ order.take i ∧
      k.op? y = some o' ∧ ∃ q, o.physical[j]? = some q ∧ o'.physical[wire.index]? = some q := by
  have halloc : o.kind.isAlloc = false := by
    cases halloc : o.kind.isAlloc with
    | false => rfl
    | true => simp [(ho.alloc halloc).1] at hj
  have hjlt : j < o.physical.length :=
    ho.other halloc ▸ (List.getElem?_eq_some_iff.mp hj).1
  obtain ⟨q, hq⟩ : ∃ q, o.physical[j]? = some q := ⟨_, List.getElem?_eq_getElem hjlt⟩
  -- the thread of the qubit up to the operation, and from there on
  have hsplit : order = order.take i ++ x :: order.drop (i + 1) := by
    obtain ⟨hlt, rfl⟩ := List.getElem?_eq_some_iff.mp hi
    rw [← List.drop_eq_getElem_cons hlt, List.take_append_drop]
  have hthread : k.thread order q =
      k.thread (order.take i) q ++ x :: k.thread (order.drop (i + 1)) q := by
    have hhead : k.actsOn q x = true := by
      simp [actsOn, hx, List.mem_of_getElem? hq]
    conv_lhs => rw [hsplit, thread_append]
    unfold thread
    rw [List.filter_cons_of_pos hhead]
  have hchain := h.chain q
  rw [hthread, List.isChain_append] at hchain
  cases hlast : (k.thread (order.take i) q).getLast? with
  | none =>
      rw [List.getLast?_eq_none_iff] at hlast
      obtain ⟨o', ho', halloc'⟩ := h.first q x (by rw [hthread, hlast]; simp)
      cases hx.symm.trans ho'
      rw [halloc] at halloc'
      cases halloc'
  | some y =>
      obtain ⟨o', o'', ho', ho'', hlink⟩ := hchain.2.2 y hlast x (by simp)
      cases hx.symm.trans ho''
      rcases hlink with ⟨w', ⟨i', hi', hw'⟩, j', hj', hjw'⟩ | ⟨-, halloc'⟩
      · obtain rfl : j = j' :=
          (List.getElem?_inj hjlt ho.nodup).mp (hq.trans hj'.symm)
        cases hj.symm.trans hjw'
        obtain ⟨users, hwire⟩ := hk.result y o' ho' i' w hw'
        exact ⟨y, o', _, hwire, rfl, (mem_thread.mp (List.mem_of_getLast? hlast)).1, ho', q, hq,
          hi'⟩
      · rw [halloc] at halloc'
        cases halloc'

end Kernel

end QubitMapper
