import QubitMapper.Pass.Mapping
import QubitMapper.Proofs.Kernel.Formed
import QubitMapper.Proofs.Kernel.Sharing
import QubitMapper.Proofs.Labelling

/-!
# Prepared kernels

What routing starts from on any kernel, whatever the order of its block: the kernel is verified,
labelled and padded. Labelling goes through the block once, so a wire may stay without a label, and
everything behind it then does. But a label never lies: a wire that has one is what an allocation
begins or what an operation passes on from an operand with the same label.

## Main results

* `Labelling.ofKernel_labelled`: what the labels of a formed kernel say.
* `Labelling.ofKernel_operandsLabelled`: when no label is missing.
* `Mapping.insertAncillas_prepared`: padding keeps a kernel prepared.
-/

namespace QubitMapper

namespace Kernel

variable {k : Kernel} {labels : Labels} {sources : List Nat} {x b : Nat} {kind : OpKind}
  {ws : List Nat}

/-- What an insertion makes of a kernel. -/
theorem insert_eq_ok {position : Nat} {out : Kernel × Nat × List Nat}
    (h : k.insert b position kind ws = .ok out) : ∃ ops : List Nat, FitsArity kind ws.length ∧
      k.Usable true ws ∧
      out = ((k.addOp kind ws).1.setBlock b (ops.insertIdx position k.ops.size), k.ops.size,
        k.freshWires (kind.resultCount ws.length)) := by
  obtain ⟨ops, -, h⟩ := Except.bind_eq_ok.mp h
  split at h
  · cases h
  · obtain ⟨⟨k₁, op, results⟩, hcreate, h⟩ := Except.bind_eq_ok.mp h
    obtain ⟨harity, husable, hout⟩ := create_eq_ok_iff.mp hcreate
    cases hout
    cases h
    exact ⟨ops, harity, husable, rfl⟩

/-- In an order of live operations with producers first, everything consumed has been produced
before. -/
theorem Formed.produced_before (hk : k.Formed) {order : List Nat}
    (hlive : ∀ y ∈ order, (k.op? y).isSome) (hordered : k.ProducersFirst order) {i : Nat}
    (hi : order[i]? = some x) : ∀ w ∈ k.operandsOf x, w ∈ (order.take i).flatMap k.resultsOf := by
  intro w hw
  obtain ⟨wire, hwire, hmem⟩ := hordered i x hi w hw
  obtain ⟨o, ho⟩ := Option.isSome_iff_exists.mp (hlive _ (List.mem_of_mem_take hmem))
  exact List.mem_flatMap.mpr ⟨_, hmem, mem_resultsOf.mpr ⟨o, ho, hk.made w wire o hwire ho⟩⟩

/-- How a wire comes to carry the virtual qubit `v`: the allocation of `v` made it, or an operation
passed `v` on from an operand that carries it. -/
def Passes (k : Kernel) (labels : Labels) (sources : List Nat) (w v x : Nat) : Prop :=
  ∃ o, k.op? x = some o ∧ ((sources[v]? = some x ∧ o.kind.isAlloc = true ∧ w ∈ o.results) ∨
    (o.kind.isAlloc = false ∧
      ∃ j u : Nat, o.results[j]? = some w ∧ o.operands[j]? = some u ∧ labels[u]? = some v))

/-- The sources are allocations labelled in order, and every label has come about by passing. -/
structure Labelled (k : Kernel) (labels : Labels) (sources : List Nat) : Prop where
  source : ∀ v x : Nat, sources[v]? = some x → ∃ o w, k.op? x = some o ∧ o.kind.isAlloc = true ∧
    o.results = [w] ∧ labels[w]? = some v
  label : ∀ w v : Nat, labels[w]? = some v → v < sources.length ∧ ∃ x, k.Passes labels sources w v x

/-- Everything consumed has a label. -/
def OperandsLabelled (k : Kernel) (labels : Labels) : Prop :=
  ∀ x, ∀ w ∈ k.operandsOf x, ∃ v : Nat, labels[w]? = some v

/-- More labels and more sources make more pass. -/
theorem Passes.mono {labels' : Labels} {w v : Nat} (h : k.Passes labels sources w v x)
    (more : List Nat) (hlabels : ∀ u q : Nat, labels[u]? = some q → labels'[u]? = some q) :
    k.Passes labels' (sources ++ more) w v x := by
  obtain ⟨o, ho, ⟨hsource, halloc, hmem⟩ | ⟨halloc, j, u, hw, hu, hlabel⟩⟩ := h
  · refine ⟨o, ho, .inl ⟨?_, halloc, hmem⟩⟩
    rw [List.getElem?_append_left (List.getElem?_eq_some_iff.mp hsource).1, hsource]
  · exact ⟨o, ho, .inr ⟨halloc, j, u, hw, hu, hlabels u v hlabel⟩⟩

theorem Passes.result {w v : Nat} (h : k.Passes labels sources w v x) : w ∈ k.resultsOf x := by
  obtain ⟨o, ho, ⟨-, -, hmem⟩ | ⟨-, j, u, hw, -⟩⟩ := h
  · exact mem_resultsOf.mpr ⟨o, ho, hmem⟩
  · exact mem_resultsOf.mpr ⟨o, ho, List.mem_of_getElem? hw⟩

end Kernel

/-! ## Labelling -/

namespace Labelling

section PassOn

variable {labels : Labels} {a r w v : Nat}

/-- The label of one operand passed on to one result. -/
private def passOne (labels : Labels) (a r : Nat) : Labels :=
  match labels[a]? with
  | some v => labels.insert r v
  | none => labels

private theorem passOn_cons (kind : OpKind) (a r : Nat) (operands results physical : List Nat) :
    passOn labels ⟨kind, a :: operands, r :: results, physical⟩ =
      passOn (passOne labels a r) ⟨kind, operands, results, physical⟩ := rfl

private theorem passOne_of_fresh (a : Nat) (hr : labels[r]? = none) (hw : labels[w]? = some v) :
    (passOne labels a r)[w]? = some v := by
  unfold passOne
  cases labels[a]? with
  | none => exact hw
  | some q => exact Labels.insert_of_fresh hr q hw

private theorem passOne_self (r : Nat) (ha : labels[a]? = some v) :
    (passOne labels a r)[r]? = some v := by
  rw [passOne, ha, Labels.getElem?_insert, if_pos rfl]

private theorem passOne_eq_some (hw : (passOne labels a r)[w]? = some v) :
    labels[w]? = some v ∨ w = r ∧ labels[a]? = some v := by
  unfold passOne at hw
  cases ha : labels[a]? with
  | none =>
      rw [ha] at hw
      exact .inl hw
  | some q =>
      rw [ha] at hw
      refine (Labels.insert_eq_some hw).imp_right ?_
      rintro ⟨hwr, rfl⟩
      exact ⟨hwr, rfl⟩

/-- Operands pass their labels on to results that have none. -/
private theorem passOn_passes {o : Operation} (hnodup : o.results.Nodup)
    (hfresh : ∀ w ∈ o.results, labels[w]? = none) :
    (∀ w v : Nat, labels[w]? = some v → (passOn labels o)[w]? = some v) ∧
    (∀ j w u v : Nat, o.results[j]? = some w → o.operands[j]? = some u → labels[u]? = some v →
      (passOn labels o)[w]? = some v) ∧
    ∀ w v : Nat, (passOn labels o)[w]? = some v → labels[w]? = some v ∨
      (∃ t : Nat, labels[t]? = some v) ∧ ∃ j u : Nat, o.results[j]? = some w ∧
        o.operands[j]? = some u ∧ (passOn labels o)[u]? = some v := by
  obtain ⟨kind, operands, results, physical⟩ := o
  induction operands generalizing labels results with
  | nil => exact ⟨fun _ _ => id, by simp, fun _ _ => .inl⟩
  | cons a rest ih =>
      cases results with
      | nil => exact ⟨fun _ _ => id, by simp, fun _ _ => .inl⟩
      | cons r results =>
          simp only at hnodup hfresh ih ⊢
          rw [List.nodup_cons] at hnodup
          rw [List.forall_mem_cons] at hfresh
          have hfresh' : ∀ w ∈ results, (passOne labels a r)[w]? = none := by
            intro w hw
            by_contra hlabel
            obtain ⟨v, hv⟩ := Option.ne_none_iff_exists'.mp hlabel
            rcases passOne_eq_some hv with hold | ⟨rfl, -⟩
            · rw [hfresh.2 w hw] at hold
              cases hold
            · exact hnodup.1 hw
          obtain ⟨hkeep, hmade, hpass⟩ := ih results hnodup.2 hfresh'
          rw [passOn_cons]
          refine ⟨fun w v hw => hkeep w v (passOne_of_fresh a hfresh.1 hw),
            fun j w u v hr hu hlabel => ?_, fun w v hw => ?_⟩
          · cases j with
            | zero =>
                cases hr
                cases hu
                exact hkeep r v (passOne_self r hlabel)
            | succ j => exact hmade j w u v hr hu (passOne_of_fresh a hfresh.1 hlabel)
          · rcases hpass w v hw with hw | ⟨⟨t, ht⟩, j, u, hr, hu, hlabel⟩
            · rcases passOne_eq_some hw with hold | ⟨rfl, ha⟩
              · exact .inl hold
              · exact .inr ⟨⟨a, ha⟩, 0, a, rfl, rfl, hkeep a v (passOne_of_fresh a hfresh.1 ha)⟩
            · refine .inr ⟨?_, j + 1, u, hr, hu, hlabel⟩
              exact (passOne_eq_some ht).elim (fun hold => ⟨t, hold⟩) fun ha => ⟨a, ha.2⟩

end PassOn

/-- The labelling after the operations `done`: everything labelled has been produced by them, and
if they are in order, everything they have produced is labelled. -/
private structure Through (k : Kernel) (done : List Nat) (l : Labelling) : Prop
    extends k.Labelled l.labels l.sources.toList where
  produced : ∀ w v : Nat, l.labels[w]? = some v → w ∈ done.flatMap k.resultsOf
  complete : k.ProducersFirst done → ∀ w ∈ done.flatMap k.resultsOf,
    ∃ v : Nat, l.labels[w]? = some v

variable {k : Kernel} {l l' : Labelling} {done : List Nat} {x : Nat} {o : Operation}

/-- The results of an operation that comes later have no labels. -/
private theorem Through.fresh (h : Through k done l) (hk : k.Consistent) (hnew : x ∉ done)
    (hx : k.op? x = some o) : ∀ w ∈ o.results, l.labels[w]? = none := by
  intro w hw
  by_contra hlabel
  obtain ⟨v, hv⟩ := Option.ne_none_iff_exists'.mp hlabel
  obtain ⟨y, hy, hwy⟩ := List.mem_flatMap.mp (h.produced w v hv)
  exact hnew (hk.producer_unique (Kernel.mem_resultsOf.mpr ⟨o, hx, hw⟩) hwy ▸ hy)

/-- An allocation more. -/
private theorem Through.alloc (h : Through k done l) (hx : k.op? x = some o)
    (halloc : o.kind.isAlloc = true) {w : Nat} (hw : o.results = [w])
    (hfresh : l.labels[w]? = none) :
    Through k (done ++ [x]) ⟨l.labels.insert w l.sources.size, l.sources.push x⟩ := by
  have hmono : ∀ u q : Nat, l.labels[u]? = some q →
      (l.labels.insert w l.sources.size)[u]? = some q :=
    fun u q => Labels.insert_of_fresh hfresh l.sources.size
  have hmade : (done ++ [x]).flatMap k.resultsOf = done.flatMap k.resultsOf ++ [w] := by
    rw [List.flatMap_append, List.flatMap_singleton, Kernel.resultsOf_of_op? hx, hw]
  refine ⟨⟨fun v y hy => ?_, fun u v hu => ?_⟩, fun u v hu => ?_, fun hordered u hu => ?_⟩
  · rw [Array.toList_push, List.getElem?_append] at hy
    split at hy
    · obtain ⟨o', w', ho', halloc', hresults, hlabel⟩ := h.source v y hy
      exact ⟨o', w', ho', halloc', hresults, hmono w' v hlabel⟩
    · rename_i hlt
      obtain ⟨hv, rfl⟩ : v - l.sources.toList.length = 0 ∧ x = y := by
        simpa [List.getElem?_singleton] using hy
      refine ⟨o, w, hx, halloc, hw, ?_⟩
      rw [Labels.getElem?_insert, if_pos rfl, ← Array.length_toList]
      congr 1
      omega
  · rw [Array.toList_push, List.length_append]
    rcases Labels.insert_eq_some hu with hu | ⟨rfl, rfl⟩
    · obtain ⟨hv, y, hpasses⟩ := h.label u v hu
      exact ⟨Nat.lt_add_right _ hv, y, hpasses.mono [x] hmono⟩
    · exact ⟨by simp, x, o, hx, .inl ⟨by simp, halloc, by simp [hw]⟩⟩
  · rw [hmade, List.mem_append, List.mem_singleton]
    exact (Labels.insert_eq_some hu).imp (h.produced u v) And.left
  · rw [hmade, List.mem_append, List.mem_singleton] at hu
    rcases hu with hu | rfl
    · obtain ⟨v, hv⟩ := h.complete hordered.of_append u hu
      exact ⟨v, hmono u v hv⟩
    · exact ⟨l.sources.size, by rw [Labels.getElem?_insert, if_pos rfl]⟩

/-- An operation more that passes labels on. -/
private theorem Through.pass (h : Through k done l) (hk : k.Formed)
    (hlive : ∀ y ∈ done ++ [x], (k.op? y).isSome) (hx : k.op? x = some o)
    (halloc : o.kind.isAlloc = false) (hfresh : ∀ w ∈ o.results, l.labels[w]? = none) :
    Through k (done ++ [x]) { l with labels := passOn l.labels o } := by
  obtain ⟨hkeep, hgain, hpass⟩ := passOn_passes (hk.results_nodup hx) hfresh
  have hmade : (done ++ [x]).flatMap k.resultsOf = done.flatMap k.resultsOf ++ o.results := by
    rw [List.flatMap_append, List.flatMap_singleton, Kernel.resultsOf_of_op? hx]
  refine ⟨⟨fun v y hy => ?_, fun w v hw => ?_⟩, fun w v hw => ?_, fun hordered w hw => ?_⟩
  · obtain ⟨o', w', ho', halloc', hresults, hlabel⟩ := h.source v y hy
    exact ⟨o', w', ho', halloc', hresults, hkeep w' v hlabel⟩
  · rcases hpass w v hw with hold | ⟨⟨t, ht⟩, j, u, hr, hu, hlabel⟩
    · obtain ⟨hv, y, hpasses⟩ := h.label w v hold
      exact ⟨hv, y, List.append_nil l.sources.toList ▸ hpasses.mono [] hkeep⟩
    · exact ⟨(h.label t v ht).1, x, o, hx, .inr ⟨halloc, j, u, hr, hu, hlabel⟩⟩
  · rw [hmade, List.mem_append]
    rcases hpass w v hw with hold | ⟨-, j, u, hr, -⟩
    · exact .inl (h.produced w v hold)
    · exact .inr (List.mem_of_getElem? hr)
  · rw [hmade, List.mem_append] at hw
    rcases hw with hw | hw
    · obtain ⟨v, hv⟩ := h.complete hordered.of_append w hw
      exact ⟨v, hkeep w v hv⟩
    · obtain ⟨j, hj⟩ := List.mem_iff_getElem?.mp hw
      have hlt : j < o.operands.length := Nat.lt_of_lt_of_le
        (List.getElem?_eq_some_iff.mp hj).1 (hk.length_results_le hx halloc)
      have hu := List.getElem?_eq_getElem hlt
      have hproduced := hk.produced_before hlive hordered (i := done.length) (x := x) (by simp) _
        (by rw [Kernel.operandsOf_of_op? hx]; exact List.mem_of_getElem? hu)
      rw [List.take_left] at hproduced
      obtain ⟨v, hv⟩ := h.complete hordered.of_append _ hproduced
      exact ⟨v, hgain j w _ v hj hu hv⟩

private theorem Through.step (h : Through k done l) (hk : k.Formed)
    (hlive : ∀ y ∈ done ++ [x], (k.op? y).isSome) (hnew : x ∉ done) (hstep : step k l x = .ok l') :
    Through k (done ++ [x]) l' := by
  unfold Labelling.step at hstep
  cases hx : k.op? x with
  | none =>
      rw [hx] at hstep
      cases hstep
  | some o =>
      have hfresh := h.fresh hk.toConsistent hnew hx
      rw [hx] at hstep
      simp only [Except.bind_eq_ok] at hstep
      obtain ⟨⟨⟩, -, hstep⟩ := hstep
      cases halloc : o.kind.isAlloc with
      | true =>
          obtain ⟨w, hw⟩ := hk.results_of_isAlloc hx halloc
          rw [halloc, if_pos rfl, hw, List.head?_cons] at hstep
          cases hstep
          rw [hw, List.forall_mem_singleton] at hfresh
          exact h.alloc hx halloc hw hfresh
      | false =>
          rw [halloc, if_neg Bool.false_ne_true] at hstep
          cases hstep
          exact h.pass hk hlive hx halloc hfresh

private theorem ofKernel_through (hk : k.Formed) (hl : Labelling.ofKernel k = .ok l) :
    Through k k.entry l := by
  have hstart : Through k [] ⟨{}, #[]⟩ := ⟨⟨by simp, by simp⟩, by simp, by simp⟩
  have hend := foldlM_invariant (fun done l => done <+: k.entry → Through k done l)
    (fun done x l l' h hstep hprefix => by
      have hsub := hprefix.sublist.trans k.entry_sublist
      obtain ⟨hdone, -, hnew⟩ := List.nodup_append.mp (hsub.nodup hk.placed)
      exact (h ((List.prefix_append done [x]).trans hprefix)).step hk
        (fun y hy => hk.live y (hsub.subset hy))
        (fun hx => hnew x hx x (by simp) rfl) hstep)
    (fun _ => hstart) hl
  exact hend (by simp)

/-- The labels of a formed kernel say where its qubits are, as far as they go. -/
theorem ofKernel_labelled (hk : k.Formed) (hl : Labelling.ofKernel k = .ok l) :
    k.Labelled l.labels l.sources.toList :=
  (ofKernel_through hk hl).toLabelled

/-- If the entry block lists everything, and producers first, everything consumed has a label. -/
theorem ofKernel_operandsLabelled (hk : k.Formed) (hl : Labelling.ofKernel k = .ok l)
    (hordered : k.ProducersFirst k.entry) (hall : ∀ x, (k.op? x).isSome → x ∈ k.entry) :
    k.OperandsLabelled l.labels := by
  intro x w hw
  obtain ⟨o, ho, -⟩ := Kernel.mem_operandsOf.mp hw
  obtain ⟨i, hi⟩ := List.mem_iff_getElem?.mp (hall x (by simp [ho]))
  obtain ⟨y, hy, hwy⟩ := List.mem_flatMap.mp (hk.produced_before
    (fun y hy => hk.live y (k.entry_sublist.subset hy)) hordered hi w hw)
  exact (ofKernel_through hk hl).complete hordered w
    (List.mem_flatMap.mpr ⟨y, List.mem_of_mem_take hy, hwy⟩)

end Labelling

/-! ## Padding -/

/-- A verified kernel with its labels. -/
structure Kernel.Prepared (k : Kernel) (labels : Labels) (sources : List Nat) : Prop
    extends k.Labelled labels sources where
  formed : k.Formed
  verified : k.ValueSemantics

section Prepared

variable {k : Kernel} {labels : Labels} {sources : List Nat}

/-- Operations have their operands to themselves. -/
theorem Kernel.Prepared.single (h : k.Prepared labels sources) :
    (∀ x, (k.operandsOf x).Nodup) ∧
      ∀ w x y, w ∈ k.operandsOf x → w ∈ k.operandsOf y → x = y :=
  h.formed.single_iff.mp h.verified.single

/-- Virtual qubits have one allocation each. -/
theorem Kernel.Labelled.nodup (h : k.Labelled labels sources) : sources.Nodup := by
  rw [List.nodup_iff_getElem?_ne_getElem?]
  intro u v huv hv heq
  obtain ⟨x, hx⟩ : ∃ x, sources[v]? = some x := ⟨_, List.getElem?_eq_getElem hv⟩
  obtain ⟨o, w, ho, -, hresults, hlabel⟩ := h.source v x hx
  obtain ⟨o', w', ho', -, hresults', hlabel'⟩ := h.source u x (heq.trans hx)
  cases ho.symm.trans ho'
  cases hresults.symm.trans hresults'
  rw [hlabel] at hlabel'
  cases hlabel'
  exact Nat.lt_irrefl _ huv

/-- The wire that comes next has no label yet. -/
theorem Kernel.Prepared.fresh (h : k.Prepared labels sources) : labels[k.wires.size]? = none := by
  by_contra hlabel
  obtain ⟨v, hv⟩ := Option.ne_none_iff_exists'.mp hlabel
  obtain ⟨-, x, hpasses⟩ := h.label k.wires.size v hv
  obtain ⟨o, ho, hmem⟩ := Kernel.mem_resultsOf.mp hpasses.result
  obtain ⟨wire, hwire, -⟩ := h.formed.producer_of_mem ho hmem
  exact Nat.lt_irrefl _ (Kernel.lt_of_wire?_eq_some hwire)

/-- A fresh qubit keeps a kernel prepared. -/
theorem Kernel.Prepared.addAlloc (h : k.Prepared labels sources) {b : Nat} {ops : List Nat}
    (hformed : ((k.addOp .alloc []).1.setBlock b ops).Formed) :
    ((k.addOp .alloc []).1.setBlock b ops).Prepared (labels.insert k.wires.size sources.length)
      (sources ++ [k.ops.size]) := by
  have hold : ∀ x o, k.op? x = some o → ((k.addOp .alloc []).1.setBlock b ops).op? x = some o :=
    fun x o hx => Kernel.op?_addOp_of_eq_some hx
  have hmono : ∀ u q : Nat, labels[u]? = some q →
      (labels.insert k.wires.size sources.length)[u]? = some q :=
    fun u q => Labels.insert_of_fresh h.fresh sources.length
  have hpasses : ∀ u v x, k.Passes labels sources u v x →
      ((k.addOp .alloc []).1.setBlock b ops).Passes (labels.insert k.wires.size sources.length)
        (sources ++ [k.ops.size]) u v x := by
    intro u v x hpasses
    obtain ⟨o, ho, hcase⟩ := hpasses.mono [k.ops.size] hmono
    exact ⟨o, hold x o ho, hcase⟩
  have hnew : ((k.addOp .alloc []).1.setBlock b ops).op? k.ops.size =
      some ⟨.alloc, [], [k.wires.size], []⟩ := by
    rw [Kernel.op?_setBlock, Kernel.op?_addOp, if_pos rfl]
    rfl
  refine ⟨⟨fun v x hx => ?_, fun u v hu => ?_⟩, hformed, ?_⟩
  · rw [List.getElem?_append] at hx
    split at hx
    · obtain ⟨o, w, ho, halloc, hresults, hlabel⟩ := h.source v x hx
      exact ⟨o, w, hold x o ho, halloc, hresults, hmono w v hlabel⟩
    · rename_i hlt
      obtain ⟨hv, rfl⟩ : v - sources.length = 0 ∧ k.ops.size = x := by
        simpa [List.getElem?_singleton] using hx
      refine ⟨_, k.wires.size, hnew, rfl, rfl, ?_⟩
      rw [Labels.getElem?_insert, if_pos rfl]
      congr 1
      omega
  · rw [List.length_append]
    rcases Labels.insert_eq_some hu with hu | ⟨rfl, rfl⟩
    · obtain ⟨hv, x, hx⟩ := h.label u v hu
      exact ⟨Nat.lt_add_right _ hv, x, hpasses u v x hx⟩
    · exact ⟨by simp, k.ops.size, _, hnew, .inl ⟨by simp, rfl, by simp⟩⟩
  · refine hformed.toCoherent.valueSemantics (fun x o hx w hw => ?_)
      (Kernel.single_addOp ⟨List.nodup_nil, by simp⟩ h.verified.single)
    rw [Kernel.op?_setBlock, Kernel.op?_addOp] at hx
    split at hx
    · cases hx
      cases hw
    · obtain ⟨wire, hwire, hlive⟩ := h.verified.operand x o hx w hw
      obtain ⟨o', ho'⟩ := Option.isSome_iff_exists.mp hlive
      obtain ⟨wire', hwire', hproducer⟩ : ∃ wire', (k.addOp .alloc []).1.wire? w = some wire' ∧
          wire'.producer = wire.producer := Kernel.wire?_addOp_of_eq_some (by simp) hwire
      exact ⟨wire', hwire', by rw [hproducer, hold _ o' ho']; rfl⟩

end Prepared

namespace Mapping

/-- What padding leaves of a kernel: it is prepared, apart from the allocations it is as it was, and
what is consumed has a label if it had one before. -/
structure Extended (count : Nat) (l : Labelling) (c : Compilation) (l' : Labelling)
    (c' : Compilation) : Prop where
  prepared : c'.kernel.Prepared l'.labels l'.sources.toList
  sources : ∃ fresh, l'.sources.toList = l.sources.toList ++ fresh ∧ fresh.length = count
  kept : ∀ x o, c.kernel.op? x = some o → c'.kernel.op? x = some o
  other : ∀ x, x ∉ l'.sources.toList → c'.kernel.op? x = c.kernel.op? x
  labelled : c.kernel.OperandsLabelled l.labels → c'.kernel.OperandsLabelled l'.labels

/-- Padding keeps a kernel prepared. -/
theorem insertAncillas_prepared (count : Nat) : ∀ {l : Labelling} {position : Nat}
    {c : Compilation}, c.kernel.Prepared l.labels l.sources.toList →
      Ensures (insertAncillas l position count) c (Extended count l c) := by
  induction count with
  | zero => exact fun h => ⟨h, ⟨[], by simp⟩, fun _ _ => id, fun _ _ => rfl, id⟩
  | succ count ih =>
      intro l position c h
      unfold insertAncillas
      rw [ensures_get_bind]
      cases hinsert : c.kernel.insert 0 position .alloc [] with
      | error e => exact ensures_throw
      | ok out =>
          have hformed := h.formed.insert hinsert
          obtain ⟨ops, -, -, rfl⟩ := Kernel.insert_eq_ok hinsert
          have hnext := h.addAlloc hformed
          rw [Array.length_toList, ← Array.toList_push] at hnext
          refine (ih hnext).mono fun l' c' h' => ?_
          obtain ⟨fresh, hsources, hlength⟩ := h'.sources
          rw [Array.toList_push, List.append_assoc] at hsources
          refine ⟨h'.prepared, ⟨_, hsources, by simp [hlength]⟩, fun x o hx =>
            h'.kept x o (Kernel.op?_addOp_of_eq_some hx), fun x hx => ?_, fun hlabelled =>
            h'.labelled fun x w hw => ?_⟩
          · rw [h'.other x hx, Kernel.op?_setBlock, Kernel.op?_addOp, if_neg]
            rintro rfl
            exact hx (by simp [hsources])
          · obtain ⟨o, ho, hw⟩ := Kernel.mem_operandsOf.mp hw
            rw [Kernel.op?_setBlock, Kernel.op?_addOp] at ho
            split at ho
            · cases ho
              cases hw
            · obtain ⟨v, hv⟩ := hlabelled x w (Kernel.mem_operandsOf.mpr ⟨o, ho, hw⟩)
              exact ⟨v, Labels.insert_of_fresh h.fresh _ hv⟩

end Mapping

end QubitMapper
