import QubitMapper.Proofs.Routing.History

/-!
# Sinks in a run

A sink empties the physical qubit where its virtual qubit is. Nothing in the program acts on that
virtual qubit any more, so the place is free until a swap moves another qubit there; for that swap
it is allocated anew. The physical instructions, which have no allocations, then act on a qubit
behind a sink of it.

## Main results

* `History.sinksLast`: a run acts on no qubit behind a sink of it if it inserts no swap there.
-/

namespace QubitMapper

theorem SinksLast.mono {kinds kinds' : OpKind → Bool} {instructions : List Instruction}
    (h : SinksLast kinds instructions) (hkinds : ∀ kind, kinds' kind = true → kinds kind = true) :
    SinksLast kinds' instructions :=
  h.imp fun hq hsink hkind => hq hsink (hkinds _ hkind)

/-- Instructions without sinks act on no qubit behind a sink. -/
theorem sinksLast_of_no_sink {kinds : OpKind → Bool} {instructions : List Instruction}
    (h : ∀ ins ∈ instructions, ins.kind.isSink = false) : SinksLast kinds instructions := by
  refine (List.pairwise_of_forall (R := fun _ _ => True) fun _ _ => trivial).imp_of_mem ?_
  intro earlier later hearlier _ _ hsink
  cases (h earlier hearlier).symm.trans hsink

namespace History

variable {d : Device} {p : Program} {π₀ π : Nat → Nat} {done : List Nat}
  {trace : List Instruction} {swaps : Nat}

/-- A qubit of the program that a sink has taken. -/
def Gone (p : Program) (done : List Nat) (v : Nat) : Prop :=
  ∃ i ∈ done, ∃ ins, p.instructions[i]? = some ins ∧ ins.kind.isSink = true ∧ v ∈ ins.qubits

/-- What is ready acts on no qubit that a sink has taken. -/
theorem not_gone (h : History d p π₀ done π trace swaps)
    (hlast : SinksLast (fun _ => true) p.instructions) {i : Nat} {ins : Instruction}
    (hi : p.instructions[i]? = some ins) (hnew : i ∉ done) :
    ∀ v ∈ ins.qubits, ¬ Gone p done v := by
  rintro v hv ⟨j, hj, sink, hsink, hkind, hmem⟩
  obtain hlt | rfl | hlt := Nat.lt_trichotomy j i
  · -- the program has no instruction on the qubit behind the sink
    obtain ⟨hjlt, rfl⟩ := List.getElem?_eq_some_iff.mp hsink
    obtain ⟨hilt, rfl⟩ := List.getElem?_eq_some_iff.mp hi
    exact List.pairwise_iff_getElem.mp hlast j i hjlt hilt hlt hkind rfl v hmem hv
  · exact hnew hj
  · -- the sink waited for all instructions on the qubit before it
    exact h.closed j hj sink hsink i hlt ins hi hnew v hv hmem

/-- If no inserted swap comes behind a sink on one of its qubits, then no physical instruction acts
on a qubit behind a sink of it: a place that was emptied stays with the qubit that is gone. -/
private theorem sinksLast_aux (h : History d p π₀ done π trace swaps) (hvalid : p.Valid)
    (hle : p.numQubits ≤ d.numQubits) (hlast : SinksLast (fun _ => true) p.instructions)
    (hinj : ∀ u < d.numQubits, ∀ v < d.numQubits, π₀ u = π₀ v → u = v)
    (hswaps : swaps = 0 ∨ SinksLast OpKind.isSwap trace) :
    SinksLast (fun _ => true) trace ∧
      ∀ a, Sunk trace a → ∃ v < d.numQubits, Gone p done v ∧ π v = a := by
  induction h with
  | start => exact ⟨.nil, by simp [Sunk]⟩
  | @retire done π trace swaps h i ins hi hnew hearlier hadjacent ih =>
      obtain ⟨htrace, hgone⟩ := ih (hswaps.imp_right fun h => (sinksLast_append.mp h).1)
      have hqubits : ∀ v ∈ ins.qubits, v < d.numQubits := fun v hv =>
        Nat.lt_of_lt_of_le ((hvalid ins (List.mem_of_getElem? hi)).lt v hv) hle
      refine ⟨sinksLast_append.mpr ⟨htrace, fun _ a ha hsunk => ?_⟩, fun a hsunk => ?_⟩
      · obtain ⟨u, hu, rfl⟩ := List.mem_map.mp ha
        obtain ⟨v, hv, hv', heq⟩ := hgone _ hsunk
        obtain rfl := h.inj hinj v hv u (hqubits u hu) heq
        exact h.not_gone hlast hi hnew v hu hv'
      · rcases sunk_append.mp hsunk with hsunk | ⟨hkind, ha⟩
        · obtain ⟨v, hv, ⟨j, hj, hsink⟩, rfl⟩ := hgone a hsunk
          exact ⟨v, hv, ⟨j, List.mem_append_left _ hj, hsink⟩, rfl⟩
        · obtain ⟨v, hv, rfl⟩ := List.mem_map.mp ha
          exact ⟨v, hqubits v hv, ⟨i, by simp, ins, hi, hkind, hv⟩, rfl⟩
  | @swap done π trace swaps h a b hadjacent ih =>
      have hapart := hswaps.resolve_left (Nat.succ_ne_zero swaps)
      obtain ⟨hbefore, hfree⟩ := sinksLast_append.mp hapart
      obtain ⟨htrace, hgone⟩ := ih (.inr hbefore)
      refine ⟨sinksLast_append.mpr ⟨htrace, fun _ => hfree rfl⟩, fun x hsunk => ?_⟩
      rcases sunk_append.mp hsunk with hsunk | ⟨hkind, -⟩
      · obtain ⟨v, hv, hv', rfl⟩ := hgone x hsunk
        have hne : π v ≠ a ∧ π v ≠ b := by
          constructor
          · rintro heq
            exact hfree rfl a (by simp) (heq ▸ hsunk)
          · rintro heq
            exact hfree rfl b (by simp) (heq ▸ hsunk)
        exact ⟨v, hv, hv', Equiv.swap_apply_of_ne_of_ne hne.1 hne.2⟩
      · cases hkind

/-- A run acts on no qubit behind a sink of it if it inserts no swap there. -/
theorem sinksLast (h : History d p π₀ done π trace swaps) (hvalid : p.Valid)
    (hle : p.numQubits ≤ d.numQubits) (hlast : SinksLast (fun _ => true) p.instructions)
    (hinj : ∀ u < d.numQubits, ∀ v < d.numQubits, π₀ u = π₀ v → u = v)
    (hswaps : swaps = 0 ∨ SinksLast OpKind.isSwap trace) : SinksLast (fun _ => true) trace :=
  (h.sinksLast_aux hvalid hle hlast hinj hswaps).1

end History

end QubitMapper
