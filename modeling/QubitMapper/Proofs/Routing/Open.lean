import QubitMapper.Proofs.Preparation

/-!
# Open wires

A wire is open from when its producer is retired until its user is. An operation takes over the
virtual qubits of its operands, so no qubit is ever open on two wires, whatever the kernel. This is
why the qubits of an operation that is released are distinct.

## Main results

* `Kernel.OpenOnce.retire`: retiring an operation leaves every qubit open on one wire at most.
* `Kernel.OpenOnce.qubits_nodup`: the qubits of what is released are distinct.
-/

namespace QubitMapper

namespace Kernel

variable {k : Kernel} {labels : Labels} {sources es : List Nat} {x y w : Nat} {o : Operation}

/-- A wire is open once its producer is retired, until its user is. -/
def Open (k : Kernel) (es : List Nat) (w : Nat) : Prop :=
  w ∈ es.flatMap k.resultsOf ∧ w ∉ es.flatMap k.operandsOf

/-- No virtual qubit has two open wires. -/
def OpenOnce (k : Kernel) (labels : Labels) (es : List Nat) : Prop :=
  ∀ u w v : Nat, labels[u]? = some v → labels[w]? = some v → k.Open es u → k.Open es w → u = w

/-- Operations that the kernel does not have open and close no wire. -/
theorem OpenOnce.grow {more : List Nat} (h : k.OpenOnce labels es)
    (hmore : ∀ x ∈ more, k.op? x = none) : k.OpenOnce labels (es ++ more) := by
  have hopen : ∀ w, k.Open (es ++ more) w → k.Open es w := by
    rintro w ⟨hmade, hfree⟩
    rw [List.flatMap_append, List.mem_append] at hmade hfree
    refine ⟨hmade.resolve_right fun hmem => ?_, fun hmem => hfree (.inl hmem)⟩
    obtain ⟨x, hx, hw⟩ := List.mem_flatMap.mp hmem
    simp [resultsOf, hmore x hx] at hw
  exact fun u w v hu hw hu' hw' => h u w v hu hw (hopen u hu') (hopen w hw')

/-- As long as only allocations are retired, every qubit is open on the wire of its allocation. -/
theorem OpenOnce.of_sources (h : k.Labelled labels sources) (hes : ∀ x ∈ es, x ∈ sources) :
    k.OpenOnce labels es := by
  have hopen : ∀ u v : Nat, labels[u]? = some v → k.Open es u →
      ∃ x o, sources[v]? = some x ∧ k.op? x = some o ∧ o.results = [u] := by
    rintro u v hu ⟨hmade, -⟩
    obtain ⟨x, hx, hmem⟩ := List.mem_flatMap.mp hmade
    obtain ⟨i, hi⟩ := List.mem_iff_getElem?.mp (hes x hx)
    obtain ⟨o, w, ho, -, hresults, hlabel⟩ := h.source i x hi
    rw [resultsOf_of_op? ho, hresults, List.mem_singleton] at hmem
    subst hmem
    rw [hu] at hlabel
    cases hlabel
    exact ⟨x, o, hi, ho, hresults⟩
  intro u w v hu hw hu' hw'
  obtain ⟨x, o, hx, ho, hresults⟩ := hopen u v hu hu'
  obtain ⟨y, o', hy, ho', hresults'⟩ := hopen w v hw hw'
  cases hx.symm.trans hy
  cases ho.symm.trans ho'
  cases hresults.symm.trans hresults'
  rfl

section Retire

variable (h : k.Prepared labels sources) (hx : k.op? x = some o) (hnew : x ∉ es)
  (hreached : ∀ w ∈ o.operands, w ∈ es.flatMap k.resultsOf)

include h hx hnew hreached

/-- The operands of an operation that may be retired are open. -/
theorem Prepared.open_operand : ∀ w ∈ o.operands, k.Open es w := by
  intro w hw
  refine ⟨hreached w hw, fun hmem => ?_⟩
  obtain ⟨y, hy, hwy⟩ := List.mem_flatMap.mp hmem
  have hwx : w ∈ k.operandsOf x := by rwa [operandsOf_of_op? hx]
  exact hnew ((h.single.2 w x y hwx hwy) ▸ hy)

/-- A wire that is open once an operation is retired was open before, and is not one of its
operands, or it is a result to which an operand that was open before has passed its qubit. -/
private theorem Prepared.open_before (halloc : o.kind.isAlloc = false) {u v : Nat}
    (hu : labels[u]? = some v) (hopen : k.Open (es ++ [x]) u) :
    ∃ u', labels[u']? = some v ∧ k.Open es u' ∧ (u = u' ∧ u ∉ o.operands ∨
      ∃ j : Nat, o.results[j]? = some u ∧ o.operands[j]? = some u') := by
  obtain ⟨hmade, hfree⟩ := hopen
  rw [List.flatMap_append, List.mem_append, List.flatMap_singleton, resultsOf_of_op? hx] at hmade
  rw [List.flatMap_append, List.mem_append, List.flatMap_singleton, operandsOf_of_op? hx,
    not_or] at hfree
  rcases hmade with hmade | hmade
  · exact ⟨u, hu, ⟨hmade, hfree.1⟩, .inl ⟨rfl, hfree.2⟩⟩
  · obtain ⟨-, y, o', ho', hpasses⟩ := h.label u v hu
    obtain rfl : x = y := h.formed.producer_unique (mem_resultsOf.mpr ⟨o, hx, hmade⟩)
      (Passes.result ⟨o', ho', hpasses⟩)
    cases hx.symm.trans ho'
    rcases hpasses with ⟨-, halloc', -⟩ | ⟨-, j, u', hj, hu', hlabel⟩
    · rw [halloc] at halloc'
      cases halloc'
    · exact ⟨u', hlabel, h.open_operand hx hnew hreached u' (List.mem_of_getElem? hu'),
        .inr ⟨j, hj, hu'⟩⟩

/-- An operation that takes over the qubits of its operands leaves every qubit open on one wire at
most. -/
theorem OpenOnce.retire (hopen : k.OpenOnce labels es) (halloc : o.kind.isAlloc = false) :
    k.OpenOnce labels (es ++ [x]) := by
  intro u w v hu hw hu' hw'
  obtain ⟨u₀, hlabel, hbefore, hcase⟩ := h.open_before hx hnew hreached halloc hu hu'
  obtain ⟨w₀, hlabel', hbefore', hcase'⟩ := h.open_before hx hnew hreached halloc hw hw'
  obtain rfl := hopen u₀ w₀ v hlabel hlabel' hbefore hbefore'
  rcases hcase with ⟨rfl, hnot⟩ | ⟨i, hi, hi'⟩ <;> rcases hcase' with ⟨rfl, hnot'⟩ | ⟨j, hj, hj'⟩
  · rfl
  · exact absurd (List.mem_of_getElem? hj') hnot
  · exact absurd (List.mem_of_getElem? hi') hnot'
  · have hnodup := h.single.1 x
    rw [operandsOf_of_op? hx] at hnodup
    have hij : i = j :=
      (List.getElem?_inj (List.getElem?_eq_some_iff.mp hi').1 hnodup).mp (hi'.trans hj'.symm)
    subst hij
    exact Option.some.inj (hi.symm.trans hj)

/-- The qubits of an operation that may be retired are distinct. -/
theorem OpenOnce.qubits_nodup (hopen : k.OpenOnce labels es) {qubits : List Nat}
    (hqubits : o.operands.mapM (labels[·]?) = some qubits) : qubits.Nodup := by
  have hnodup := h.single.1 x
  rw [operandsOf_of_op? hx] at hnodup
  have hcarry : List.Forall₂ (fun q w => labels[w]? = some q ∧ k.Open es w) qubits o.operands := by
    have hlabels := mapM_eq_some_iff.mp hqubits
    refine forall₂_of_getElem? hlabels.length_eq.symm fun j q w hq hw => ?_
    obtain ⟨q', hq', hlabel⟩ := forall₂_getElem? hlabels hw
    cases hq.symm.trans hq'
    exact ⟨hlabel, h.open_operand hx hnew hreached w (List.mem_of_getElem? hw)⟩
  exact nodup_of_forall₂ hcarry (fun q w w' hw hw' => hopen w w' q hw.1 hw'.1 hw.2 hw'.2) hnodup

end Retire

end Kernel

end QubitMapper
