import QubitMapper.Proofs.Finishing
import QubitMapper.Proofs.Padding

/-!
# A run of the mapping pass

The pass checks its kernel, pads it, routes it from the placement of equal numbers and finishes the
kernel. `Mapped` says what it leaves.

## Main results

* `Mapping.run_eq`: a run is the checks, and then the work on the kernel.
* `Mapping.run_spec`: on the kernel of a program that can be mapped, the pass leaves a mapped
  kernel, or meets an operation whose qubits no way joins.
* `Mapping.exists_of_run_eq_ok`: what must have been in order when the pass succeeds.
-/

namespace QubitMapper

namespace Mapping

variable {p : Program} {k : Kernel} {files : FileReader} {target : Target} {d : Device}
  {props : Properties}

theorem checkKernel_eq_ok (hk : p.lower = .ok k) : checkKernel k = .ok () := by
  obtain ⟨tags, hlowered⟩ := Program.lower_spec hk
  have hlen : ¬ 1 < k.blocks.length := by simp [hlowered.blocks]
  simp only [checkKernel, hlowered.verify, hlen, ↓reduceIte]
  rfl

theorem buildDevice_eq_ok_iff {n : Nat} :
    buildDevice files target.spec n = .ok d ↔
      target.spec.build files n = .ok d ∧ n ≤ d.numQubits := by
  unfold buildDevice
  rw [Except.bind_eq_ok]
  constructor
  · rintro ⟨d', hd', h⟩
    split at h
    · cases h
    · cases h
      exact ⟨Except.mapError_eq_ok.mp hd', by omega⟩
  · rintro ⟨hd, hn⟩
    exact ⟨d, Except.mapError_eq_ok.mpr hd, by rw [if_neg (Nat.not_lt.mpr hn)]; rfl⟩

/-! ## The parts of a run -/

/-- What is checked before a kernel is touched: its labels, and the device for it. -/
def preflight (files : FileReader) (target : Target) (k : Kernel) :
    Except MappingError (Labelling × Device) := do
  target.options.validate.mapError .options
  checkKernel k
  let l ← Labelling.ofKernel k
  return (l, ← buildDevice files target.spec l.sources.size)

/-- A labelled kernel mapped onto a device that is large enough for it. -/
def mapOnto (options : Options) (l : Labelling) (device : Device) : Compile Unit := do
  let count := l.sources.size
  let position := ancillaPosition (← get).kernel
  let l ← insertAncillas l position (device.numQubits - count)
  let placement ← Compile.lift
    ((Placement.identity device.numQubits device.numQubits).mapError .placement)
  let router ← route ⟨device, l.labels, options⟩ l.sources.toList placement
  reorder router.emitted
  prune (l.sources.toList.drop count).reverse
  publish device router count

private theorem lift_bind {α β : Type} {x : Except MappingError α} {f : α → Compile β}
    {c : Compilation} :
    (Compile.lift x >>= f) c = match x with
      | .error e => .error e c
      | .ok a => f a c := by
  cases x <;> rfl

/-- A run is the checks, and then the work on the kernel. -/
theorem run_eq {c : Compilation} : run files target c =
    match preflight files target c.kernel with
    | .error e => .error e c
    | .ok (l, device) => mapOnto target.options l device c := by
  unfold run preflight
  rw [lift_bind]
  cases target.options.validate.mapError MappingError.options with
  | error e => rfl
  | ok _ =>
      dsimp only
      rw [get_bind, lift_bind]
      cases checkKernel c.kernel with
      | error e => rfl
      | ok _ =>
          dsimp only
          rw [lift_bind]
          cases Labelling.ofKernel c.kernel with
          | error e => rfl
          | ok l =>
              dsimp only
              rw [lift_bind]
              cases hdevice : buildDevice files target.spec l.sources.size with
              | error e => simp only [bind, Except.bind, hdevice]
              | ok d => simp only [bind, Except.bind, hdevice]; rfl

theorem preflight_eq_ok_iff {l : Labelling} :
    preflight files target k = .ok (l, d) ↔
      target.options.validate = .ok () ∧ checkKernel k = .ok () ∧ Labelling.ofKernel k = .ok l ∧
        target.spec.build files l.sources.size = .ok d ∧ l.sources.size ≤ d.numQubits := by
  unfold preflight
  simp only [Except.bind_eq_ok, Except.mapError_eq_ok, ← buildDevice_eq_ok_iff]
  constructor
  · rintro ⟨⟨⟩, hoptions, ⟨⟩, hkernel, l', hl, d', hd, h⟩
    cases h
    exact ⟨hoptions, hkernel, hl, hd⟩
  · rintro ⟨hoptions, hkernel, hl, hd⟩
    exact ⟨⟨⟩, hoptions, ⟨⟩, hkernel, l, hl, d, hd, rfl⟩

/-! ## What a run leaves -/

/-- What the pass leaves of a program with `n` qubits on a device: a finished kernel that stands for
the history of a run, and what is published about it. -/
structure Mapped (p : Program) (d : Device) (c : Compilation) (done : List Nat) (π : Nat → Nat)
    (trace : List Instruction) (stats : RoutingStats) (placement : Placement) : Prop where
  valid : p.Valid
  le : p.numQubits ≤ d.numQubits
  history : History d p id done π trace stats.swaps
  all : ∀ i < p.instructions.length, i ∈ done
  finished : ∃ order, c.kernel.Finished order trace
  placed : placement.Realizes d.numQubits π
  level : c.kernel.level = .physical
  mapping : c.kernel.mapping = some ((List.range p.numQubits).map π)
  unmapped : stats.unmapped = 0
  device : c.properties.get? .device = some d
  placement : c.properties.get? .placement = some placement
  assignment : c.properties.get? .assignment = some ⟨(List.range p.numQubits).map π⟩
  stats : c.properties.get? .stats = some stats

/-- The results of a run published. -/
private theorem publish_spec {c : Compilation} {order : List Nat} {trace : List Instruction}
    {π : Nat → Nat} {router : Router} {done : List Nat} (hvalid : p.Valid)
    (hle : p.numQubits ≤ d.numQubits) (hfinished : c.kernel.Finished order trace)
    (hhistory : History d p id done π trace router.stats.swaps)
    (hall : ∀ i < p.instructions.length, i ∈ done)
    (hplaced : router.placement.Realizes d.numQubits π) (hunmapped : router.stats.unmapped = 0) :
    Returns (publish d router p.numQubits) c fun _ c' =>
      Mapped p d c' done π trace router.stats router.placement := by
  have hplaces : (Assignment.freeze router.placement p.numQubits).places =
      (List.range p.numQubits).map π := hplaced.firstSlots hle
  unfold publish
  rw [returns_modify]
  exact
    { valid := hvalid
      le := hle
      history := hhistory
      all := hall
      finished := ⟨order, hfinished.consistent.congr rfl rfl, hfinished.made, hfinished.single,
        hfinished.blocks, hfinished.nodup, hfinished.live, hfinished.first, hfinished.mapped,
        (hfinished.threaded.congr fun _ _ => rfl), hfinished.trace⟩
      placed := hplaced
      level := rfl
      mapping := congrArg some hplaces
      unmapped := hunmapped
      device := rfl
      placement := rfl
      assignment := congrArg (some <| Assignment.mk ·) hplaces
      stats := rfl }

/-- The kernel routed, with the state of the router. -/
theorem route_meets {task : RoutingTask} {sources : List Nat} {placement : Placement}
    {c : Compilation} {post : Unit → Router → Prop} {fail : MappingError → Router → Prop}
    (h : Meets (Router.route task sources) (Router.start c.kernel placement task.device) post
      fail) :
    Meets (route task sources placement) c
      (fun router c' => post () router ∧ c' = ⟨router.kernel, c.properties⟩)
      (fun e _ => ∃ router, fail e router) := by
  unfold Meets at h
  unfold route
  rw [meets_get_bind]
  cases hrun : Router.route task sources (Router.start c.kernel placement task.device) with
  | ok _ router =>
      rw [hrun] at h
      exact ⟨h, rfl⟩
  | error e router =>
      rw [hrun] at h
      exact ⟨router, h⟩

theorem decayPeriod_ne_zero {options : Options} (h : options.validate = .ok ()) :
    options.decayPeriod ≠ 0 := by
  intro hzero
  rw [Options.validate, if_pos hzero] at h
  cases h

/-- A run over the kernel of a program that passes the checks is its routing, from the placement of
equal numbers and on a padded kernel, and what comes behind that. -/
theorem run_meets {l : Labelling} {post : Unit → Compilation → Prop}
    {fail : MappingError → Compilation → Prop} (hk : p.lower = .ok k)
    (hoptions : target.options.validate = .ok ()) (hl : Labelling.ofKernel k = .ok l)
    (hd : target.spec.build files p.numQubits = .ok d) (hn : p.numQubits ≤ d.numQubits)
    (hrest : ∀ labels placement c, Padded p d.numQubits c.kernel labels →
      (∀ ins ∈ p.instructions, ins.Mappable) → placement.Realizes d.numQubits id →
      Meets (do
        let sources := (List.range d.numQubits).map p.sourceOp
        let router ← route ⟨d, labels, target.options⟩ sources placement
        reorder router.emitted
        prune (sources.drop p.numQubits).reverse
        publish d router p.numQubits : Compile Unit) c post fail) :
    Meets (run files target) ⟨k, props⟩ post fail := by
  obtain ⟨tags, hlowered⟩ := Program.lower_spec hk
  have hsize : l.sources.size = p.numQubits := by
    simp [(Labelling.ofKernel_spec hlowered hl).1]
  obtain ⟨-, hmappable, hpadding⟩ := padding_spec props hk hl
    (n := d.numQubits) (hsize ▸ hn)
  obtain ⟨placement, hidentity, hplaced⟩ := Placement.identity_realizes d.numQubits
  have hpre : preflight files target k = .ok (l, d) :=
    preflight_eq_ok_iff.mpr ⟨hoptions, checkKernel_eq_ok hk, hl, hsize ▸ hd, hsize ▸ hn⟩
  unfold Meets
  rw [run_eq, hpre]
  change Meets (mapOnto target.options l d) ⟨k, props⟩ _ _
  unfold mapOnto
  rw [meets_get_bind]
  apply Meets.bind hpadding.meets
  rintro l' c ⟨hpad, hsources, hprops⟩
  rw [hidentity, hsources, hsize]
  simp only [Except.mapError, Compile.lift_ok, pure_bind]
  exact hrest l'.labels placement c hpad hmappable hplaced

/-- A run over the kernel of a program that passes the checks before routing. -/
theorem run_spec {l : Labelling} (props : Properties) (hk : p.lower = .ok k)
    (hoptions : target.options.validate = .ok ()) (hl : Labelling.ofKernel k = .ok l)
    (hd : target.spec.build files p.numQubits = .ok d) (hn : p.numQubits ≤ d.numQubits) :
    Meets (run files target) ⟨k, props⟩
      (fun _ c => ∃ done π trace stats placement, Mapped p d c done π trace stats placement)
      (fun e _ => (∃ a b, e = .unroutable a b) ∧ ¬ Router.Routable d p id) := by
  refine run_meets hk hoptions hl hd hn fun labels placement c hpad hmappable hplaced => ?_
  let task : RoutingTask := ⟨d, labels, target.options⟩
  change Padded p task.device.numQubits c.kernel task.labels at hpad
  have hroute := Router.route_spec hpad hmappable (decayPeriod_ne_zero hoptions) hplaced
  refine meets_bind.mpr ((route_meets hroute).mono ?_ ?_)
  · rintro router _ ⟨⟨hunmapped, done, π, hsound, hall, -⟩, rfl⟩
    -- the kernel is put into order, and what the program does not need is taken out
    rw [meets_bind_of_eq (reorder_spec hsound hpad hall c.properties)]
    have hspare : ∀ x ∈ (((List.range d.numQubits).map p.sourceOp).drop p.numQubits).reverse,
        ∃ o, router.kernel.op? x = some o ∧ o.kind.isAlloc = true := by
      intro x hx
      obtain ⟨v, hv, rfl⟩ := List.mem_map.mp (List.mem_of_mem_drop (List.mem_reverse.mp hx))
      obtain ⟨w, -, ho₀⟩ := hpad.source v (List.mem_range.mp hv)
      obtain ⟨o, ho, hkind, -⟩ := hsound.wired.old _ _ ho₀
      exact ⟨o, ho, by rw [hkind]; rfl⟩
    have hnodup : (((List.range d.numQubits).map p.sourceOp).drop p.numQubits).reverse.Nodup := by
      rw [List.nodup_reverse]
      refine (List.drop_sublist _ _).nodup (List.Nodup.map_on ?_ List.nodup_range)
      exact fun u _ v _ heq => Program.sourceOp_inj heq
    refine Returns.meets ((prune_spec _ (hsound.finished hpad hall) hnodup hspare).bind ?_)
    rintro _ c' ⟨-, order, hfinished⟩
    refine (publish_spec hpad.valid hn hfinished hsound.history hall hsound.placed ?_).mono ?_
    · rw [hunmapped]
      exact hsound.unmappedCount_eq_zero hpad hall
    · exact fun _ c'' hmapped => ⟨done, π, _, _, _, hmapped⟩
  · rintro e _ ⟨router, hrefused⟩
    exact ⟨hrefused.error, hrefused.unroutable⟩

/-- When the pass succeeds on a kernel, its options can be used, the kernel is labelled, and there
is a device with enough qubits. -/
theorem exists_of_run_eq_ok {c : Compilation} (hrun : run files target ⟨k, props⟩ = .ok () c) :
    target.options.validate = .ok () ∧ ∃ l d, Labelling.ofKernel k = .ok l ∧
      target.spec.build files l.sources.size = .ok d ∧ l.sources.size ≤ d.numQubits := by
  rw [run_eq] at hrun
  cases hpre : preflight files target k with
  | error e => rw [hpre] at hrun; cases hrun
  | ok out =>
      obtain ⟨hoptions, -, hl, hd⟩ := preflight_eq_ok_iff.mp hpre
      exact ⟨hoptions, out.1, out.2, hl, hd⟩

/-- The device that a successful run built, and what it leaves of the kernel of a program on it. -/
theorem built_of_run_eq_ok {c : Compilation} (hk : p.lower = .ok k)
    (hrun : run files target ⟨k, props⟩ = .ok () c) :
    target.options.validate = .ok () ∧ ∃ l d, Labelling.ofKernel k = .ok l ∧
      target.spec.build files p.numQubits = .ok d ∧ p.numQubits ≤ d.numQubits ∧
      ∃ done π trace stats placement, Mapped p d c done π trace stats placement := by
  obtain ⟨hoptions, l, d, hl, hd, hn⟩ := exists_of_run_eq_ok hrun
  obtain ⟨tags, hlowered⟩ := Program.lower_spec hk
  have hsize : l.sources.size = p.numQubits := by
    simp [(Labelling.ofKernel_spec hlowered hl).1]
  rw [hsize] at hd hn
  exact ⟨hoptions, l, d, hl, hd, hn, (run_spec props hk hoptions hl hd hn).of_ok hrun⟩

/-- What the pass leaves of the kernel of a program whenever it succeeds. -/
theorem mapped_of_run_eq_ok {c : Compilation} (hk : p.lower = .ok k)
    (hrun : run files target ⟨k, props⟩ = .ok () c) :
    ∃ d done π trace stats placement, Mapped p d c done π trace stats placement := by
  obtain ⟨-, l, d, -, -, -, hmapped⟩ := built_of_run_eq_ok hk hrun
  exact ⟨d, hmapped⟩

/-! ## An example -/

/-- A path of three qubits joins the outer two of them. -/
theorem build_outerPair : ∃ d, Spec.build .none (.path none) 3 = .ok d ∧ d.numQubits = 3 ∧
    d.Joined 0 2 := by
  obtain ⟨d, hd, hn, hedges⟩ : ∃ d, Spec.build .none (.path none) 3 = .ok d ∧ d.numQubits = 3 ∧
      d.edges = [(0, 1), (1, 2)] := ⟨_, rfl, rfl, rfl⟩
  have hfirst : d.isAdjacent 0 1 = true := (d.isAdjacent_iff 0 1).mpr (by simp [hedges])
  have hsecond : d.isAdjacent 1 2 = true := (d.isAdjacent_iff 1 2).mpr (by simp [hedges])
  exact ⟨d, hd, hn, ((Device.Joined.refl d 0).step hfirst).step hsecond⟩

/-- The pass maps the gate on the outer two of three qubits onto a path. -/
theorem exists_run_outerPair : ∃ k c, Program.outerPair.lower = .ok k ∧
    run .none ⟨.path none, {}⟩ ⟨k, .empty⟩ = .ok () c := by
  obtain ⟨d, hd, hn, hjoined⟩ := build_outerPair
  have hroutable : Router.Routable d Program.outerPair id := by
    intro ins hins _ u v huv
    rcases List.mem_pair.mp hins with rfl | rfl
    · cases huv
      exact hjoined
    · cases huv
  obtain ⟨k, hk⟩ : ∃ k, Program.outerPair.lower = .ok k := ⟨_, rfl⟩
  obtain ⟨l, hl⟩ : ∃ l, Labelling.ofKernel k = .ok l := by
    cases hk
    exact ⟨_, rfl⟩
  have hmeets : Meets (run .none ⟨.path none, {}⟩) ⟨k, .empty⟩ _ _ :=
    run_spec .empty hk rfl hl hd (Nat.le_of_eq hn.symm)
  unfold Meets at hmeets
  cases hrun : run .none ⟨.path none, {}⟩ ⟨k, .empty⟩ with
  | ok _ c => exact ⟨k, c, hk, hrun⟩
  | error e c =>
      rw [hrun] at hmeets
      exact absurd hroutable hmeets.2

end Mapping

end QubitMapper
