import QubitMapper.Proofs.Mapping.Emitted
import QubitMapper.Proofs.Routing.Kept
import QubitMapper.Proofs.Routing.Underway

/-!
# Operations that are left over

A block need not list producers first. Labelling goes through it once, so what stands before the
producer of its operands passes no label on, and what consumes its results is never released: it is
left over. It stays as it is, but the wires that it consumes may stand on qubits all the same, and a
swap or another operation there takes them away from it. So a kernel that the pass has mapped is in
value semantics exactly if this did not happen.

## Main results

* `Mapping.run_leftovers`: what the pass makes of any kernel that calls have made, and when the
  outcome passes verification.
* `Mapping.run_breaks_verify`: a kernel that passes verification before the pass and not after.
-/

namespace QubitMapper

namespace Kernel

variable {k₀ k k' : Kernel} {es : List Nat} {x : Nat}

/-- The operations of a kernel come in two parts: those in `es` are mapped, and those left over are
as in `k₀`. In either part a wire has one user at most. -/
structure Parted (k₀ k : Kernel) (es : List Nat) : Prop where
  formed : k.Formed
  operand : ∀ x o, k.op? x = some o → ∀ w ∈ o.operands,
    ∃ wire, k.wire? w = some wire ∧ (k.op? wire.producer).isSome
  nodup : ∀ x ∈ es, (k.operandsOf x).Nodup
  unique : ∀ w, ∀ x ∈ es, ∀ y ∈ es, w ∈ k.operandsOf x → w ∈ k.operandsOf y → x = y
  mapped : ∀ x ∈ es, ∀ o, k.op? x = some o → o.Annotated
  left : ∀ x, x ∉ es → k.op? x = k₀.op? x

namespace Parted

/-- What is in the blocks and what a kernel says of itself does not matter. -/
theorem congr (h : Parted k₀ k es) (hk' : k'.Formed) (hops : k'.ops = k.ops)
    (hwires : k'.wires = k.wires) : Parted k₀ k' es := by
  obtain ⟨name, ops, wires, blocks, level, mapping⟩ := k'
  simp only at hops hwires
  subst hops hwires
  exact ⟨hk', h.operand, h.nodup, h.unique, h.mapped, h.left⟩

/-- Erasing a mapped operation that nothing uses leaves the two parts. -/
theorem erase (h : Parted k₀ k es) (hx : x ∈ es) (hunused : k.users x = .ok [])
    {out : Kernel × Operation} (herase : k.erase x = .ok out) : Parted k₀ out.1 es := by
  have hformed := h.formed.erase herase
  obtain ⟨o, ho, -, -, rfl⟩ := erase_eq_ok_iff.mp herase
  simp only at hformed ⊢
  have hop : ∀ y o', (k.without x o.operands).op? y = some o' → k.op? y = some o' := by
    intro y o' hy
    rw [op?_without] at hy
    split at hy
    · cases hy
    · exact hy
  have hoperands : ∀ y, (k.without x o.operands).operandsOf y ⊆ k.operandsOf y := by
    intro y w hw
    obtain ⟨o', ho', hw⟩ := mem_operandsOf.mp hw
    exact mem_operandsOf.mpr ⟨o', hop y o' ho', hw⟩
  refine ⟨hformed, fun y o' hy w hw => ?_, fun y hy => ?_, fun w y hy z hz hwy hwz =>
    h.unique w y hy z hz (hoperands y hwy) (hoperands z hwz), fun y hy o' ho' =>
    h.mapped y hy o' (hop y o' ho'), fun y hy => ?_⟩
  · obtain ⟨wire, hwire, hlive⟩ := h.operand y o' (hop y o' hy) w hw
    have hne : x ≠ wire.producer := by
      rintro rfl
      exact h.formed.unconsumed ho hunused y w (h.formed.made w wire o hwire ho)
        (mem_operandsOf.mpr ⟨o', hop y o' hy, hw⟩)
    refine ⟨_, by rw [wire?_without, hwire, Option.map_some], ?_⟩
    rwa [op?_without, if_neg hne]
  · unfold operandsOf
    rw [op?_without]
    split
    · exact List.nodup_nil
    · exact h.nodup y hy
  · rw [op?_without, if_neg, h.left y hy]
    rintro rfl
    exact hy hx

/-- A kernel in two parts passes verification exactly if no wire has a user in either part. -/
theorem verify_eq_ok_iff (h : Parted k₀ k es) (hk₀ : k₀.Formed) (hverified : k₀.ValueSemantics) :
    k.verify = .ok () ↔ ∀ w, ∀ x ∈ es, ∀ y, y ∉ es → w ∈ k.operandsOf x → w ∉ k.operandsOf y := by
  obtain ⟨hnodup, hunique⟩ := hk₀.single_iff.mp hverified.single
  have hleft : ∀ x, x ∉ es → k.operandsOf x = k₀.operandsOf x :=
    fun x hx => operandsOf_congr (h.left x hx)
  rw [Kernel.verify_eq_ok_iff]
  constructor
  · intro hk w x hx y hy hwx hwy
    exact hy ((h.formed.single_iff.mp hk.single).2 w x y hwx hwy ▸ hx)
  · intro happart
    refine h.formed.valueSemantics h.operand (h.formed.single_iff.mpr ⟨fun x => ?_,
      fun w x y hwx hwy => ?_⟩)
    · by_cases hx : x ∈ es
      · exact h.nodup x hx
      · rw [hleft x hx]
        exact hnodup x
    · by_cases hx : x ∈ es <;> by_cases hy : y ∈ es
      · exact h.unique w x hx y hy hwx hwy
      · exact absurd hwy (happart w x hx y hy hwx)
      · exact absurd hwx (happart w y hy x hx hwy)
      · exact hunique w x y (hleft x hx ▸ hwx) (hleft y hy ▸ hwy)

end Parted

end Kernel

namespace Router

variable {task : RoutingTask} {k k₀ : Kernel} {sources : List Nat} {s : Router}

/-- A run on any kernel leaves it in two parts: what it has retired or made, and the rest. -/
theorem Underway.parted (h : Underway task k₀ sources [] s)
    (hprep : k₀.Prepared task.labels sources) (hformed : s.kernel.Formed) :
    k₀.Parted s.kernel s.emitted.toList where
  formed := hformed
  operand x o hx w hw := by
    have hwx : w ∈ s.kernel.operandsOf x := Kernel.mem_operandsOf.mpr ⟨o, hx, hw⟩
    by_cases hmem : x ∈ s.emitted.toList
    · obtain ⟨i, hi⟩ := List.mem_iff_getElem?.mp hmem
      obtain ⟨wire, hwire, hproducer⟩ := h.wired.ordered i x hi w hwx
      obtain ⟨o', ho', -⟩ := h.wired.mapped _ (List.mem_of_mem_take hproducer)
      exact ⟨wire, hwire, by simp [ho']⟩
    · -- the producer of a wire that is left alone is the same and has stayed
      obtain ⟨wire, hwire, hlive⟩ := hprep.verified.operand x o
        ((h.wired.pending x hmem).symm.trans hx) w hw
      obtain ⟨o₀, ho₀⟩ := Option.isSome_iff_exists.mp hlive
      obtain ⟨o', ho', -, hresults⟩ := h.wired.old _ o₀ ho₀
      obtain ⟨wire', hwire', hproducer⟩ := h.wired.consistent.producer_of_mem ho'
        (hresults ▸ hprep.formed.made w wire o₀ hwire ho₀)
      exact ⟨wire', hwire', by simp [hproducer, ho']⟩
  nodup := (List.nodup_flatMap.mp h.wired.consumed).1
  unique w x hx y hy := h.wired.eq_of_consumed hx hy
  mapped x hx o ho := by
    obtain ⟨o', ho', hmapped⟩ := h.wired.mapped x hx
    cases ho.symm.trans ho'
    exact hmapped
  left := h.wired.pending

/-- What consumes only labelled wires that have been produced has been retired. -/
private theorem Underway.retired_of_produced (h : Underway task k₀ sources [] s)
    (hdeferred : s.frontier.deferred = []) (hlabelled : k₀.OperandsLabelled task.labels) {x : Nat}
    (hproduced : ∀ w ∈ k₀.operandsOf x, w ∈ s.emitted.toList.flatMap k₀.resultsOf)
    (hne : k₀.operandsOf x ≠ []) : x ∈ s.emitted.toList := by
  by_contra hnot
  obtain ⟨qubits, hqubits⟩ := exists_forall₂ (hlabelled x)
  have hsome : ((k₀.operandsOf x).mapM (task.labels[·]?)).isSome := by
    rw [mapM_eq_some_iff.mpr hqubits]
    rfl
  have hwaits := (h.tracks.ready x).mpr ⟨hnot, hne, hsome, hproduced⟩
  rw [hdeferred] at hwaits
  cases hwaits

/-- If the block of the kernel lists everything, and producers first, a run retires everything that
has operands. -/
theorem Underway.all_retired (h : Underway task k₀ sources [] s)
    (hdeferred : s.frontier.deferred = []) (hprep : k₀.Prepared task.labels sources)
    (hlabelled : k₀.OperandsLabelled task.labels) (hk : k.Formed)
    (hordered : k.ProducersFirst k.entry) (hall : ∀ x, (k.op? x).isSome → x ∈ k.entry)
    (hkept : ∀ x o, k.op? x = some o → k₀.op? x = some o)
    (hother : ∀ x, x ∉ sources → k₀.op? x = k.op? x) :
    ∀ x, x ∉ s.emitted.toList → k₀.operandsOf x = [] := by
  have hlive : ∀ y ∈ k.entry, (k.op? y).isSome := fun y hy => hk.live y (k.entry_sublist.subset hy)
  -- by induction on the place in the block: the producers of the operands come before
  have hretired : ∀ i x : Nat, k.entry[i]? = some x → k₀.operandsOf x ≠ [] →
      x ∈ s.emitted.toList := by
    intro i
    induction i using Nat.strongRecOn with
    | ind i ih =>
        intro x hi hne
        refine h.retired_of_produced hdeferred hlabelled (fun w hw => ?_) hne
        obtain ⟨o, ho⟩ := Option.isSome_iff_exists.mp (hlive x (List.mem_of_getElem? hi))
        have hwx : w ∈ k.operandsOf x := by
          rwa [Kernel.operandsOf_of_op? ho, ← Kernel.operandsOf_of_op? (hkept x o ho)]
        obtain ⟨y, hy, hwy⟩ := List.mem_flatMap.mp (hk.produced_before hlive hordered hi w hwx)
        obtain ⟨o', ho', hmem⟩ := Kernel.mem_resultsOf.mp hwy
        have hwy₀ : w ∈ k₀.resultsOf y := Kernel.mem_resultsOf.mpr ⟨o', hkept y o' ho', hmem⟩
        refine List.mem_flatMap.mpr ⟨y, ?_, hwy₀⟩
        by_cases hempty : k₀.operandsOf y = []
        · -- the wire has not got its label from an operand, so the producer is an allocation
          obtain ⟨v, hv⟩ := hlabelled x w hw
          obtain ⟨-, z, hpasses⟩ := hprep.label w v hv
          obtain rfl := hprep.formed.producer_unique hwy₀ hpasses.result
          obtain ⟨o'', ho'', ⟨hsource, -⟩ | ⟨-, j, u, -, hu, -⟩⟩ := hpasses
          · exact h.allocated (List.mem_of_getElem? hsource)
          · rw [Kernel.operandsOf_of_op? ho''] at hempty
            simp [hempty] at hu
        · obtain ⟨j, hj⟩ := List.mem_iff_getElem?.mp hy
          rw [List.getElem?_take] at hj
          split at hj
          · rename_i hji
            exact ih j hji y hj hempty
          · cases hj
  intro x hnot
  by_contra hne
  obtain ⟨w, hw⟩ := List.exists_mem_of_ne_nil _ hne
  obtain ⟨o, ho, -⟩ := Kernel.mem_operandsOf.mp hw
  have hx : k.op? x = some o := (hother x fun hx => hnot (h.allocated hx)).symm.trans ho
  obtain ⟨i, hi⟩ := List.mem_iff_getElem?.mp (hall x (by simp [hx]))
  exact hnot (hretired i x hi hne)

end Router

namespace Mapping

variable {files : FileReader} {target : Target} {props : Properties} {c : Compilation} {k : Kernel}
  {es : List Nat}

/-! ## Behind the run -/

/-- Putting the block into order leaves the two parts. -/
theorem reorder_parted (emitted : Array Nat) (h : k.Parted c.kernel es) :
    Ensures (reorder emitted) c fun _ c' => k.Parted c'.kernel es := by
  unfold reorder
  rw [ensures_get_bind]
  dsimp only
  cases horder : c.kernel.setBlockOrder 0
      (emitted.toList ++ c.kernel.entry.filter fun op => !emitted.contains op) with
  | error reason => trivial
  | ok k₁ =>
      have hformed := h.formed.setBlockOrder horder
      obtain ⟨current, -, -, -, -, rfl⟩ := Kernel.setBlockOrder_eq_ok_iff.mp horder
      rw [Compile.liftCircuit_ok, pure_bind]
      cases hsort : (c.kernel.setBlock 0 _).sortBlock 0 with
      | error reason => trivial
      | ok k₂ =>
          have hformed' := hformed.sortBlock hsort
          obtain ⟨order, sorted, -, -, rfl⟩ := Kernel.sortBlock_perm hsort
          simp only [Compile.liftCircuit_ok, pure_bind]
          exact h.congr hformed' rfl rfl

/-- Erasing fresh qubits leaves the two parts. -/
theorem prune_parted (l : List Nat) (hl : ∀ x ∈ l, x ∈ es) (h : k.Parted c.kernel es) :
    Ensures (prune l) c fun _ c' => k.Parted c'.kernel es :=
  (prune_invariant (P := fun c => k.Parted c.kernel es) l
    (fun _ x _ hx h husers herase => h.erase (hl x hx) husers herase) c h).ensures

/-! ## The pass on any kernel -/

/-- A kernel that the pass accepts is in value semantics. -/
theorem valueSemantics_of_check (h : checkKernel k = .ok ()) : k.ValueSemantics := by
  obtain ⟨⟨⟩, hverify, -⟩ := Except.bind_eq_ok.mp h
  exact Kernel.verify_eq_ok_iff.mp (Except.mapError_eq_ok.mp hverify)

/-- What the pass makes of a kernel: a kernel in two parts, of which the one that is left over has
no operands if the block listed everything, and producers first. -/
theorem mapOnto_parted {options : Options} {l : Labelling} {d : Device} (hk : k.Formed)
    (hverified : k.ValueSemantics) (hl : Labelling.ofKernel k = .ok l)
    (hn : l.sources.size ≤ d.numQubits) :
    Ensures (mapOnto options l d) ⟨k, props⟩ fun _ c' => ∃ es, k.Parted c'.kernel es ∧
      (k.ProducersFirst k.entry → (∀ x, (k.op? x).isSome → x ∈ k.entry) →
        ∀ x, x ∉ es → k.operandsOf x = []) := by
  have hprep : k.Prepared l.labels l.sources.toList :=
    ⟨Labelling.ofKernel_labelled hk hl, hk, hverified⟩
  obtain ⟨placement, hidentity, hplaced⟩ := Placement.identity_realizes d.numQubits
  unfold mapOnto
  rw [ensures_get_bind]
  refine (insertAncillas_prepared _ hprep).bind fun l' c₁ hextended => ?_
  rw [hidentity]
  simp only [Except.mapError, Compile.lift_ok, pure_bind]
  let task : RoutingTask := ⟨d, l'.labels, options⟩
  have hsources : l'.sources.toList.length = task.device.numQubits := by
    obtain ⟨fresh, hfresh, hlength⟩ := hextended.sources
    rw [hfresh, List.length_append, hlength, Array.length_toList]
    exact Nat.add_sub_cancel' hn
  have hroute : Ensures (Router.route task l'.sources.toList)
      (Router.start c₁.kernel placement task.device) fun _ s =>
      Router.Underway task c₁.kernel l'.sources.toList [] s ∧ s.frontier.deferred = [] :=
    Router.route_underway hextended.prepared hsources hplaced
  have hkeeps := Router.keeps_route task l'.sources.toList
    (Router.start c₁.kernel placement task.device)
  refine (route_meets (hroute.and hkeeps.ensures)).ensures.bind ?_
  rintro router _ ⟨⟨⟨hunderway, hdeferred⟩, hkept⟩, rfl⟩
  have hparted := hunderway.parted hextended.prepared (hkept.formed hextended.prepared.formed)
  have hother : ∀ x, x ∉ router.emitted.toList → c₁.kernel.op? x = k.op? x :=
    fun x hx => hextended.other x fun hmem => hx (hunderway.allocated hmem)
  have hleft : k.Parted router.kernel router.emitted.toList :=
    { hparted with left := fun x hx => Eq.trans (hparted.left x hx) (hother x hx) }
  refine (reorder_parted router.emitted hleft).bind fun _ c₂ h₂ => ?_
  refine (prune_parted _ (fun x hx => ?_) h₂).bind fun _ c₃ h₃ => ?_
  · exact hunderway.allocated (List.mem_of_mem_drop (List.mem_reverse.mp hx))
  · refine ⟨router.emitted.toList, h₃.congr (h₃.formed.blocks_congr
      ⟨h₃.formed.toConsistent.congr rfl rfl, h₃.formed.live, h₃.formed.placed⟩ rfl rfl) rfl rfl, ?_⟩
    intro hordered hall x hx
    have hlabelled := hextended.labelled
      (Labelling.ofKernel_operandsLabelled hk hl hordered hall)
    have hnone := hunderway.all_retired hdeferred hextended.prepared hlabelled hk hordered hall
      hextended.kept hextended.other x hx
    rwa [Kernel.operandsOf_congr (hother x hx)] at hnone

/-- Any kernel that calls have made, when the pass has mapped it, falls into what it has retired or
made, which has physical qubits, and what it has left over, which is as it was. It passes
verification exactly if no wire has a user in either part. So it does if the block listed
everything, and producers first. -/
theorem run_leftovers {name : String} {cs : List Kernel.Call}
    (hrun : run files target ⟨(Kernel.empty name).calls cs, props⟩ = .ok () c) :
    ∃ retired : List Nat,
      (∀ x ∈ retired, ∀ o, c.kernel.op? x = some o → o.Annotated) ∧
      (∀ x, x ∉ retired → c.kernel.op? x = ((Kernel.empty name).calls cs).op? x) ∧
      (c.kernel.verify = .ok () ↔ ∀ w, ∀ x ∈ retired, ∀ y, y ∉ retired →
        w ∈ c.kernel.operandsOf x → w ∉ c.kernel.operandsOf y) ∧
      (((Kernel.empty name).calls cs).ProducersFirst ((Kernel.empty name).calls cs).entry →
        (∀ x, (((Kernel.empty name).calls cs).op? x).isSome →
          x ∈ ((Kernel.empty name).calls cs).entry) → c.kernel.verify = .ok ()) := by
  have hk : ((Kernel.empty name).calls cs).Formed := (Kernel.Formed.empty name).calls cs
  generalize (Kernel.empty name).calls cs = k at hrun hk ⊢
  rw [run_eq] at hrun
  cases hpre : preflight files target k with
  | error e => rw [hpre] at hrun; cases hrun
  | ok out =>
      obtain ⟨l, d⟩ := out
      simp only [hpre] at hrun
      obtain ⟨-, hcheck, hl, -, hn⟩ := preflight_eq_ok_iff.mp hpre
      have hverified := valueSemantics_of_check hcheck
      obtain ⟨es, hparted, hnone⟩ := (mapOnto_parted hk hverified hl hn).of_ok hrun
      have hiff := hparted.verify_eq_ok_iff hk hverified
      refine ⟨es, hparted.mapped, hparted.left, hiff, fun hordered hall => hiff.mpr ?_⟩
      intro w x _ y hy _ hwy
      rw [Kernel.operandsOf_congr (hparted.left y hy), hnone hordered hall y hy] at hwy
      cases hwy

/-! ## A wire that is taken away -/

/-- Three qubits with two gates on the second and one on the other two. The first gate is listed
before the allocation of its qubit. -/
def outOfOrder : List Kernel.Call :=
  [.alloc, .alloc, .alloc, .apply (.gate "h" []) [1], .apply (.gate "x" []) [3],
    .apply (.gate "cx" []) [0, 2], .setBlockOrder 0 [3, 0, 1, 2, 4, 5]]

/-- The pass accepts the kernel and maps it, and the outcome does not pass verification. -/
theorem exists_run_outOfOrder :
    ∃ c, checkKernel ((Kernel.empty "leftover").calls outOfOrder) = .ok () ∧
      run .none ⟨.path none, {}⟩ ⟨(Kernel.empty "leftover").calls outOfOrder, .empty⟩ = .ok () c ∧
      c.kernel.verify ≠ .ok () := by
  have hcomputed : (do
      let k := (Kernel.empty "leftover").calls outOfOrder
      let () ← (checkKernel k).toOption
      let l ← (Labelling.ofKernel k).toOption
      let out ← ended? (mapOnto {} l .line ⟨k, .empty⟩)
      return (l.sources.size, out.2.kernel.verify.toOption.isSome)) = some (3, false) := by
    decide +kernel
  simp only [bind, pure, Option.bind_eq_some_iff, Except.toOption_eq_some, ended?_eq_some,
    Option.some.injEq, Prod.mk.injEq] at hcomputed
  obtain ⟨⟨⟩, hcheck, l, hl, out, hmap, hsize, hverify⟩ := hcomputed
  have hpre : preflight .none ⟨.path none, {}⟩ ((Kernel.empty "leftover").calls outOfOrder) =
      .ok (l, .line) :=
    preflight_eq_ok_iff.mpr
      ⟨rfl, hcheck, hl, by rw [hsize]; exact build_line, Nat.le_of_eq hsize⟩
  refine ⟨out.2, hcheck, by rw [run_eq, hpre]; exact hmap, fun hok => ?_⟩
  rw [hok] at hverify
  cases hverify

/-- The second gate is left over, and the swap that brings the other two qubits together takes its
wire. -/
theorem run_leftovers_outOfOrder : ∃ c,
    run .none ⟨.path none, {}⟩ ⟨(Kernel.empty "leftover").calls outOfOrder, .empty⟩ = .ok () c ∧
    ∃ w x y, x ≠ y ∧ w ∈ c.kernel.operandsOf x ∧ w ∈ c.kernel.operandsOf y ∧
      c.kernel.op? y = ((Kernel.empty "leftover").calls outOfOrder).op? y := by
  obtain ⟨c, -, hrun, hverify⟩ := exists_run_outOfOrder
  obtain ⟨retired, -, hleft, hiff, -⟩ := run_leftovers hrun
  rw [ne_eq, hiff] at hverify
  simp only [not_forall, not_not] at hverify
  obtain ⟨w, x, hx, y, hy, hwx, hwy⟩ := hverify
  exact ⟨c, hrun, w, x, y, fun heq => hy (heq ▸ hx), hwx, hwy, hleft y hy⟩

/-- A kernel in value semantics is mapped, and is in value semantics no longer. -/
theorem run_breaks_verify : ∃ c e, ((Kernel.empty "leftover").calls outOfOrder).verify = .ok () ∧
    run .none ⟨.path none, {}⟩ ⟨(Kernel.empty "leftover").calls outOfOrder, .empty⟩ = .ok () c ∧
    c.kernel.verify = .error e := by
  obtain ⟨c, hcheck, hrun, hverify⟩ := exists_run_outOfOrder
  have hbefore := Kernel.verify_eq_ok_iff.mpr (valueSemantics_of_check hcheck)
  cases hafter : c.kernel.verify with
  | error e => exact ⟨c, e, hbefore, hrun, hafter⟩
  | ok _ => exact absurd hafter hverify

end Mapping

end QubitMapper
