import QubitMapper.Proofs.Chains
import QubitMapper.Proofs.Mapping.Emitted
import QubitMapper.Proofs.Routing.Deferral

/-!
# Measurements in a mapped kernel

Routing emits what is behind no measurement of the program before it emits a measurement. The block
is then put into the order of emission. That order has producers first, so that sorting leaves it
alone, and erasing spare allocations moves nothing.

## Main results

* `Padded.behindMeasure`: padding puts nothing behind a measurement.
* `Mapping.prune_thins`: erasing spare allocations touches nothing else.
* `Mapping.run_defers_measurements`: in a mapped kernel measurements stand behind everything that
  does not depend on one.
-/

namespace QubitMapper

/-! ## Dependence in a padded kernel -/

namespace Padded

variable {p : Program} {n n' x : Nat} {k k' : Kernel} {labels labels' : Labels}

/-- What is an operation of a program is a measurement or not in each of its kernels. -/
theorem isMeasure_eq (h : Padded p n k labels) (h' : Padded p n' k' labels')
    (hx : x < p.numQubits + p.instructions.length) : k.isMeasure x = k'.isMeasure x := by
  rcases Program.sourceOp_or_instruction (Nat.le_refl _) hx with ⟨v, hv, rfl⟩ | ⟨i, hi, rfl⟩
  · obtain ⟨w, -, ho⟩ := h.source v (Nat.lt_of_lt_of_le hv h.le)
    obtain ⟨w', -, ho'⟩ := h'.source v (Nat.lt_of_lt_of_le hv h'.le)
    simp [Kernel.isMeasure, ho, ho']
  · obtain ⟨o, ho, hencodes⟩ := h.instruction i _ (List.getElem?_eq_getElem hi)
    obtain ⟨o', ho', hencodes'⟩ := h'.instruction i _ (List.getElem?_eq_getElem hi)
    simp [Kernel.isMeasure, ho, ho', hencodes.kind, hencodes'.kind]

/-- An operation of a program has the same producers in each of its kernels. -/
theorem producers_eq (h : Padded p n k labels) (h' : Padded p n' k' labels')
    (hx : x < p.numQubits + p.instructions.length) : k.producers x = k'.producers x := by
  rcases Program.sourceOp_or_instruction (Nat.le_refl _) hx with ⟨v, hv, rfl⟩ | ⟨i, hi, rfl⟩
  · rw [h.producers_source (Nat.lt_of_lt_of_le hv h.le),
      h'.producers_source (Nat.lt_of_lt_of_le hv h'.le)]
  · have hp := h.producers_instruction (List.getElem?_eq_getElem hi)
    have hp' := h'.producers_instruction (List.getElem?_eq_getElem hi)
    generalize k.producers _ = l, k'.producers _ = l' at hp hp'
    generalize p.instructions[i].qubits = qubits at hp hp'
    induction hp generalizing l' with
    | nil => rw [List.forall₂_nil_right_iff.mp hp']
    | cons horigin _ ih =>
        obtain ⟨y, rest, horigin', hrest, rfl⟩ := List.forall₂_cons_right_iff.mp hp'
        rw [horigin.unique horigin', ih _ hrest]

/-- What is behind a measurement in one kernel of a program is so in each of them. -/
theorem behindMeasure (h : Padded p n k labels) (h' : Padded p n' k' labels')
    (hx : x < p.numQubits + p.instructions.length) (hbehind : k.BehindMeasure x) :
    k'.BehindMeasure x := by
  induction hbehind with
  | measure hmeasure => exact .measure (h.isMeasure_eq h' hx ▸ hmeasure)
  | consume hy _ ih =>
      exact .consume (h.producers_eq h' hx ▸ hy) (ih (Nat.lt_trans (h.producer_lt hy) hx))

end Padded

/-! ## Erasing spare allocations -/

/-- A kernel in which some operations may have been erased. -/
structure Kernel.Thins (k : Kernel) (gone : List Nat) (k' : Kernel) : Prop where
  entry : k'.entry.Sublist k.entry
  stays : ∀ x ∈ k.entry, x ∉ gone → x ∈ k'.entry
  op : ∀ x, k'.op? x = k.op? x ∨ x ∈ gone ∧ k'.op? x = none

/-- Erasing makes no measurements. -/
theorem Kernel.Thins.isMeasure {gone : List Nat} {k k' : Kernel} (h : k.Thins gone k') {x : Nat}
    (hx : k'.isMeasure x = true) : k.isMeasure x = true := by
  unfold Kernel.isMeasure at hx ⊢
  rcases h.op x with heq | ⟨-, hnone⟩
  · rwa [← heq]
  · rw [hnone] at hx
    cases hx

namespace Mapping

variable {p : Program} {k : Kernel} {files : FileReader} {target : Target} {props : Properties}
  {c : Compilation}

/-- Erasing operations touches nothing else. -/
theorem prune_thins (l : List Nat) (c : Compilation) :
    Ensures (prune l) c fun _ c' => c.kernel.Thins l c'.kernel := by
  have hstart : c.kernel.Thins l c.kernel :=
    ⟨List.Sublist.refl _, fun _ hx _ => hx, fun _ => .inl rfl⟩
  refine (prune_invariant (P := fun c' => c.kernel.Thins l c'.kernel) l ?_ c hstart).ensures
  intro c' x out hx h _ herase
  obtain ⟨o, -, -, -, rfl⟩ := Kernel.erase_eq_ok_iff.mp herase
  have hentry : (c'.kernel.without x o.operands).entry = c'.kernel.entry.filter (· != x) := by
    rw [Kernel.entry, Kernel.blocks_without, Kernel.entry]
    cases c'.kernel.blocks <;> rfl
  refine ⟨?_, fun y hy hkept => ?_, fun y => ?_⟩
  · show (c'.kernel.without x o.operands).entry.Sublist c.kernel.entry
    rw [hentry]
    exact List.filter_sublist.trans h.entry
  · show y ∈ (c'.kernel.without x o.operands).entry
    rw [hentry, List.mem_filter, bne_iff_ne]
    refine ⟨h.stays y hy hkept, ?_⟩
    rintro rfl
    exact hkept hx
  · show (c'.kernel.without x o.operands).op? y = _ ∨ _ ∧ (c'.kernel.without x o.operands).op? y = _
    rw [Kernel.op?_without]
    split
    · rename_i hxy
      exact .inr ⟨hxy ▸ hx, rfl⟩
    · exact h.op y

/-! ## The order of emission -/

/-- Within a run of the pass on a kernel, routing ends in a state. -/
def Routes (files : FileReader) (target : Target) (k : Kernel) (props : Properties)
    (router : Router) : Prop :=
  ∃ l d l' c placement, preflight files target k = .ok (l, d) ∧
    insertAncillas l (ancillaPosition k) (d.numQubits - l.sources.size) ⟨k, props⟩ = .ok l' c ∧
    Placement.identity d.numQubits d.numQubits = .ok placement ∧
    Router.route ⟨d, l'.labels, target.options⟩ l'.sources.toList
      (Router.start c.kernel placement d) = .ok () router

/-- In a list, what comes from the first part of another one stands before what does not. -/
private theorem lt_of_sublist {l before after : List Nat} {i j x y : Nat}
    (h : l.Sublist (before ++ after)) (hnodup : (before ++ after).Nodup) (hi : l[i]? = some x)
    (hj : l[j]? = some y) (hx : x ∈ before) (hy : y ∉ before) : i < j := by
  obtain ⟨l₁, l₂, rfl, h₁, h₂⟩ := List.sublist_append_iff.mp h
  have hfirst : i < l₁.length := by
    by_contra hge
    rw [List.getElem?_append_right (Nat.not_lt.mp hge)] at hi
    have hlater := h₂.subset (List.mem_of_getElem? hi)
    exact (List.nodup_append.mp hnodup).2.2 x hx x hlater rfl
  have hsecond : l₁.length ≤ j := by
    by_contra hlt
    rw [List.getElem?_append_left (Nat.not_le.mp hlt)] at hj
    exact hy (h₁.subset (List.mem_of_getElem? hj))
  exact Nat.lt_of_lt_of_le hfirst hsecond

/-- The routing of a compilation succeeds as the run of its router does. -/
theorem route_eq_ok_iff {task : RoutingTask} {sources : List Nat} {placement : Placement}
    {router : Router} {c' : Compilation} :
    route task sources placement c = .ok router c' ↔
      Router.route task sources (Router.start c.kernel placement task.device) = .ok () router ∧
        c' = { c with kernel := router.kernel } := by
  unfold route
  rw [get_bind]
  cases Router.route task sources (Router.start c.kernel placement task.device) with
  | error e s =>
      constructor
      · rintro ⟨⟩
      · rintro ⟨⟨⟩, -⟩
  | ok u s =>
      constructor
      · rintro ⟨⟩
        exact ⟨rfl, rfl⟩
      · rintro ⟨⟨⟩, rfl⟩
        rfl

/-- The parts of a run that succeeds, each from where the one before it ended. -/
theorem exists_parts (hrun : run files target ⟨k, props⟩ = .ok () c) :
    ∃ l d l' c₁ placement router c₂ c₃, preflight files target k = .ok (l, d) ∧
      insertAncillas l (ancillaPosition k) (d.numQubits - l.sources.size) ⟨k, props⟩ = .ok l' c₁ ∧
      Placement.identity d.numQubits d.numQubits = .ok placement ∧
      Router.route ⟨d, l'.labels, target.options⟩ l'.sources.toList
        (Router.start c₁.kernel placement d) = .ok () router ∧
      reorder router.emitted { c₁ with kernel := router.kernel } = .ok () c₂ ∧
      prune (l'.sources.toList.drop l.sources.size).reverse c₂ = .ok () c₃ ∧
      publish d router l.sources.size c₃ = .ok () c := by
  rw [run_eq] at hrun
  cases hpre : preflight files target k with
  | error e => rw [hpre] at hrun; cases hrun
  | ok out =>
      obtain ⟨l, d⟩ := out
      obtain ⟨placement, hidentity, -⟩ := Placement.identity_realizes d.numQubits
      simp only [hpre, mapOnto, get_bind, hidentity, Except.mapError, Compile.lift_ok,
        pure_bind] at hrun
      obtain ⟨l', c₁, hfilled, hrun⟩ := bind_eq_ok_iff.mp hrun
      obtain ⟨router, _, hrouted, hrun⟩ := bind_eq_ok_iff.mp hrun
      obtain ⟨hroute, rfl⟩ := route_eq_ok_iff.mp hrouted
      obtain ⟨⟨⟩, c₂, hreorder, hrun⟩ := bind_eq_ok_iff.mp hrun
      obtain ⟨⟨⟩, c₃, hprune, hpublish⟩ := bind_eq_ok_iff.mp hrun
      exact ⟨l, d, l', c₁, placement, router, c₂, c₃, rfl, hfilled, hidentity, hroute, hreorder,
        hprune, hpublish⟩

/-- Spare allocations stand behind the operations of the program. -/
private theorem le_of_mem_spare {n x : Nat}
    (hx : x ∈ (((List.range n).map p.sourceOp).drop p.numQubits).reverse) :
    p.numQubits + p.instructions.length ≤ x := by
  rw [List.mem_reverse, ← List.map_drop, List.mem_map] at hx
  obtain ⟨v, hv, rfl⟩ := hx
  have hge : p.numQubits ≤ v := by
    rw [List.range_eq_range', List.drop_range', List.mem_range'_1] at hv
    omega
  rw [Program.sourceOp, if_neg (Nat.not_lt.mpr hge)]
  omega

/-- What routing leaves within a run that succeeds on the kernel of a program, and what becomes of
it: the block is put into the order of emission, and spare allocations are erased. -/
theorem exists_routed (hk : p.lower = .ok k) (hrun : run files target ⟨k, props⟩ = .ok () c) :
    ∃ router task k₀ done π spare, Routes files target k props router ∧
      Padded p task.device.numQubits k₀ task.labels ∧
      Router.Sound task p k₀ id task.device.numQubits done π router ∧
      (∀ i < p.instructions.length, i ∈ done) ∧ Router.MeasuresLast k₀ router ∧
      (∀ x, router.kernel.isMeasure x = k₀.isMeasure x) ∧
      (∀ x ∈ spare, p.numQubits + p.instructions.length ≤ x) ∧
      Kernel.Thins { router.kernel with blocks := [router.emitted.toList] } spare c.kernel := by
  obtain ⟨l, d, l', c₁, placement, router, c₂, c₃, hpre, hfilled, hidentity, hroute, hreorder,
    hprune, hpublish⟩ := exists_parts hrun
  obtain ⟨hoptions, -, hl, -, hn⟩ := preflight_eq_ok_iff.mp hpre
  obtain ⟨hcount, hmappable, hpadding⟩ := padding_spec props hk hl hn
  obtain ⟨hpad, hsources, -⟩ := hpadding.ensures.of_ok hfilled
  let task : RoutingTask := ⟨d, l'.labels, target.options⟩
  change Padded p task.device.numQubits c₁.kernel task.labels at hpad
  have hplaced : placement.Realizes task.device.numQubits id := by
    obtain ⟨placement', hidentity', hplaced⟩ := Placement.identity_realizes d.numQubits
    cases hidentity.symm.trans hidentity'
    exact hplaced
  have hroutes : Routes files target k props router :=
    ⟨l, d, l', c₁, placement, hpre, hfilled, hidentity, hroute⟩
  rw [hsources] at hroute hprune
  have hperiod := decayPeriod_ne_zero hoptions
  obtain ⟨-, done, π, hsound, hall, -⟩ :=
    (Router.route_spec hpad hmappable hperiod hplaced).of_ok hroute
  obtain ⟨hlast, hmeasures⟩ :=
    (Router.route_measuresLast hpad hmappable hperiod hplaced).of_ok hroute
  rw [reorder_spec hsound hpad hall] at hreorder
  cases hreorder
  have hthins := (prune_thins _ _).of_ok hprune
  cases hpublish
  refine ⟨router, task, c₁.kernel, done, π, _, hroutes, hpad, hsound, hall, hlast, hmeasures,
    fun x hx => le_of_mem_spare (hcount ▸ hx), hthins.entry, hthins.stays, hthins.op⟩

/-- When the pass succeeds, each operation of the program stands in the block, and those that are
behind no measurement of the program stand before every measurement. The order of emission, into
which the block was put, has producers first, and sorting left it as it was; of it only spare
allocations were erased. -/
theorem run_defers_measurements (hk : p.lower = .ok k)
    (hrun : run files target ⟨k, props⟩ = .ok () c) :
    (∀ x < k.ops.size, x ∈ c.kernel.entry ∧ c.kernel.isMeasure x = k.isMeasure x ∧
      (¬ k.BehindMeasure x → ∀ y i j : Nat, c.kernel.isMeasure y = true →
        c.kernel.entry[i]? = some x → c.kernel.entry[j]? = some y → i < j)) ∧
    ∃ router ordered, Routes files target k props router ∧
      router.kernel.setBlockOrder 0 (router.emitted.toList ++
        router.kernel.entry.filter fun op => !router.emitted.contains op) = .ok ordered ∧
      ordered.entry = router.emitted.toList ∧ ordered.ProducersFirst ordered.entry ∧
      ordered.sortBlock 0 = .ok ordered ∧ c.kernel.entry.Sublist ordered.entry := by
  obtain ⟨tags, hlowered⟩ := Program.lower_spec hk
  obtain ⟨l, d, hl, -⟩ := (exists_of_run_eq_ok hrun).2
  have hpad₀ := hlowered.padded (Labelling.ofKernel_spec hlowered hl).2
  obtain ⟨router, task, k₀, done, π, spare, hroutes, hpad, hsound, hall,
    ⟨before, after, hparts, hbefore, hfree⟩, hmeasures, hspare, hthins⟩ := exists_routed hk hrun
  have hfinished := hsound.finished hpad hall
  refine ⟨fun x hx => ?_, router, { router.kernel with blocks := [router.emitted.toList] },
    hroutes, hsound.setBlockOrder_eq hpad hall, rfl, hfinished.first, hsound.sortBlock_eq hpad hall,
    hthins.entry⟩
  have hxlt : x < p.numQubits + p.instructions.length := hpad₀.ops ▸ hx
  have hown : x < k₀.ops.size := by
    rw [hpad.ops]
    exact Nat.lt_of_lt_of_le hxlt (Nat.add_le_add_right hpad.le _)
  have hkept : x ∉ spare := fun hmem => Nat.not_le.mpr hxlt (hspare x hmem)
  refine ⟨?_, ?_, fun hnot y i j hy hi hj => ?_⟩
  · obtain ⟨o₀, ho₀⟩ := hpad.exists_op hown
    obtain ⟨o, ho, -⟩ := hsound.wired.old x o₀ ho₀
    exact hthins.stays x (hsound.mem_emitted hpad hall ho) hkept
  · rw [Kernel.isMeasure, (hthins.op x).resolve_right fun h => hkept h.1]
    exact (hmeasures x).trans (hpad.isMeasure_eq hpad₀ hxlt)
  · have hsub : c.kernel.entry.Sublist (before ++ after) := hparts ▸ hthins.entry
    refine lt_of_sublist hsub (hparts ▸ hfinished.nodup) hi hj ?_ fun hmem => ?_
    · exact hfree x hown fun hbehind => hnot (hpad.behindMeasure hpad₀ hxlt hbehind)
    · have hy' : k₀.isMeasure y = true := by
        rw [← hmeasures]
        exact hthins.isMeasure hy
      rw [hbefore y hmem] at hy'
      cases hy'

/-- A measurement of the qubit between those of a gate. -/
def measuredFirst : Program where
  name := "measured"
  numQubits := 3
  instructions := [⟨.measure (some "c"), [1]⟩, ⟨.gate "cx" [], [0, 2]⟩]

/-- The measurement is listed first. The gate and the swap that it needs come before it, although
the swap moves the qubit that is measured. -/
theorem run_defers_measurements_swapped : ∃ k c, measuredFirst.lower = .ok k ∧
    run .none ⟨.path none, {}⟩ ⟨k, .empty⟩ = .ok () c ∧ k.isMeasure 3 = true ∧
    ¬ k.BehindMeasure 4 ∧ c.kernel.entry = [0, 1, 2, 5, 4, 3] ∧
    ∀ i j : Nat, c.kernel.entry[i]? = some 4 → c.kernel.entry[j]? = some 3 → i < j := by
  have hcomputed : (do
      let k ← measuredFirst.lower.toOption
      let l ← (Labelling.ofKernel k).toOption
      let out ← ended? (mapOnto {} l .line ⟨k, .empty⟩)
      return (l.sources.size, out.2.kernel.entry)) = some (3, [0, 1, 2, 5, 4, 3]) := by
    decide +kernel
  simp only [bind, pure, Option.bind_eq_some_iff, Except.toOption_eq_some, ended?_eq_some,
    Option.some.injEq, Prod.mk.injEq] at hcomputed
  obtain ⟨k, hk, l, hl, out, hmap, hsize, hentry⟩ := hcomputed
  have hpre : preflight .none ⟨.path none, {}⟩ k = .ok (l, .line) :=
    preflight_eq_ok_iff.mpr
      ⟨rfl, checkKernel_eq_ok hk, hl, by rw [hsize]; exact build_line, Nat.le_of_eq hsize⟩
  have hrun : run .none ⟨.path none, {}⟩ ⟨k, .empty⟩ = .ok () out.2 := by
    rw [run_eq, hpre]
    exact hmap
  obtain ⟨hwaits, -⟩ := run_defers_measurements hk hrun
  obtain ⟨hlt, hmeasure, hfree⟩ : 4 < k.ops.size ∧ k.isMeasure 3 = true ∧ ¬ k.BehindMeasure 4 := by
    cases hk
    exact ⟨by decide, by decide,
      Kernel.not_behindMeasure (P := (· ∈ [0, 2, 4])) (by decide) (by decide) 4 (by decide)⟩
  refine ⟨k, out.2, hk, hrun, hmeasure, hfree, hentry, fun i j => ?_⟩
  exact (hwaits 4 hlt).2.2 hfree 3 i j ((hwaits 3 (Nat.lt_of_succ_lt hlt)).2.1.trans hmeasure)

end Mapping

end QubitMapper
