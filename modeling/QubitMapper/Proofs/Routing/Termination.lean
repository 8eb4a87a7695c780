import QubitMapper.Proofs.Routing.Turns

/-!
# Termination of a run

A run over the kernel of a program ends, whatever the costs are, and its counters stay within bounds
that the number of operations, the device and `releaseAfter` give.

## Main results

* `Router.route_terminates`: a run ends within the bounds, searches for a swap included, and every
  release is followed by a round that retires something (`Router.Terminates`).
-/

namespace QubitMapper

/-! ## The number of operations -/

/-- The number of operations other than allocations. -/
def Kernel.workCount (k : Kernel) : Nat := k.liveOps.countP fun x => !x.2.kind.isAlloc

/-- The work of a kernel, counted by keys. -/
private theorem Kernel.workCount_eq (k : Kernel) : k.workCount =
    (List.range k.ops.size).countP fun x => (k.op? x).any (!·.kind.isAlloc) := by
  have hzip : k.ops.toList.zipIdx = (List.range k.ops.size).map fun x => (k.op? x, x) := by
    refine List.ext_getElem? fun x => ?_
    by_cases hx : x < k.ops.size
    · simp [hx, Kernel.op?]
    · simp [hx]
  have hlive : k.liveOps =
      (List.range k.ops.size).filterMap fun x => (k.op? x).map (x, ·) := by
    rw [Kernel.liveOps, hzip, List.filterMap_map]
    rfl
  rw [workCount, hlive, List.countP_filterMap]
  apply List.countP_congr
  intro x _
  cases k.op? x <;> simp

/-- Only the instructions of a padded kernel are no allocations. -/
theorem Padded.workCount {p : Program} {n : Nat} {k : Kernel} {labels : Labels}
    (h : Padded p n k labels) : k.workCount = p.instructions.length := by
  have hsum : k.ops.size = p.numQubits + p.instructions.length + (n - p.numQubits) := by
    have := h.le
    rw [h.ops]
    omega
  have hsource : ∀ v < n, (k.op? (p.sourceOp v)).any (!·.kind.isAlloc) = false := by
    intro v hv
    obtain ⟨w, -, ho⟩ := h.source v hv
    rw [ho]
    rfl
  -- the keys are those of the program's allocations, its instructions and the spare allocations
  rw [Kernel.workCount_eq, hsum, List.range_add, List.range_add, List.countP_append,
    List.countP_append, List.countP_map, List.countP_map]
  have hfirst : (List.range p.numQubits).countP
      (fun x => (k.op? x).any (!·.kind.isAlloc)) = 0 := by
    rw [List.countP_eq_zero]
    intro v hv
    rw [List.mem_range] at hv
    have := hsource v (Nat.lt_of_lt_of_le hv h.le)
    rw [Program.sourceOp, if_pos hv] at this
    simp [this]
  have hlast : (List.range (n - p.numQubits)).countP
      ((fun x => (k.op? x).any (!·.kind.isAlloc)) ∘
        (p.numQubits + p.instructions.length + ·)) = 0 := by
    rw [List.countP_eq_zero]
    intro v hv
    rw [List.mem_range] at hv
    have := hsource (p.numQubits + v) (by omega)
    rw [Program.sourceOp, if_neg (by omega), Nat.add_right_comm] at this
    simp [this]
  have hmiddle : (List.range p.instructions.length).countP
      ((fun x => (k.op? x).any (!·.kind.isAlloc)) ∘ (p.numQubits + ·)) =
      p.instructions.length := by
    conv_rhs => rw [← List.length_range (n := p.instructions.length)]
    rw [List.countP_eq_length]
    intro i hi
    rw [List.mem_range] at hi
    have hins := List.getElem?_eq_getElem hi
    obtain ⟨o, ho, hencodes⟩ := h.instruction i _ hins
    have halloc := (h.valid _ (List.mem_of_getElem? hins)).alloc
    rw [← hencodes.kind] at halloc
    simp [ho, halloc]
  rw [hfirst, hmiddle, hlast]
  omega

namespace Router

/-! ## States between turns -/

/-- The tallies and states that a run comes through, from where the sources are placed. -/
inductive Reaches (task : RoutingTask) (sources : List Nat) (s₀ : Router) : Tally → Router → Prop
    where
  | placed {s : Router} (h : sources.forM (placeSource task) s₀ = .ok ⟨⟩ s) :
      Reaches task sources s₀ {} s
  | turn {t t' : Tally} {s s' : Router} (h : Reaches task sources s₀ t s)
      (hturn : turn task t s = .ok (some t') s') : Reaches task sources s₀ t' s'

/-- A round that emits an operation of the circuit which was not emitted before. -/
def Retires (task : RoutingTask) (k₀ : Kernel) (s : Router) : Prop :=
  Returns (round task) s fun progress s' => progress = true ∧
    ∃ x o, k₀.op? x = some o ∧ o.kind.isAlloc = false ∧ x ∉ s.emitted.toList ∧
      x ∈ s'.emitted.toList

/-- What termination within bounds means for a run over a kernel from a placement. -/
structure Terminates (task : RoutingTask) (k₀ : Kernel) (sources : List Nat)
    (placement : Placement) : Prop where
  /-- The run ends with its counters within the bounds, and it fails only at two qubits with no way
  between them. -/
  ends : Meets (route task sources) (start k₀ placement task.device)
    (fun _ s => Bounded task.options.releaseAfter task.device.numQubits k₀.workCount s.stats)
    (fun e s => (∃ a b, e = .unroutable a b) ∧
      Bounded task.options.releaseAfter task.device.numQubits k₀.workCount s.stats)
  /-- There is a turn that no other one follows. -/
  last : ∃ t s, Reaches task sources (start k₀ placement task.device) t s ∧
    ∀ t' s', turn task t s ≠ .ok (some t') s'
  /-- At no time have there been more searches for a swap than `releaseAfter` for each operation. -/
  searches : ∀ t s, Reaches task sources (start k₀ placement task.device) t s →
    t.searches ≤ k₀.workCount * task.options.releaseAfter
  /-- A turn that fails does so in its round, before it searches for a swap. -/
  fails : ∀ t s, Reaches task sources (start k₀ placement task.device) t s →
    ∀ e s', turn task t s = .error e s' → round task s = .error e s'
  /-- After a release, something waits, and the next round retires something. -/
  retires : ∀ t s, Reaches task sources (start k₀ placement task.device) t s →
    ∀ t' s', turn task t s = .ok (some t') s' → s.stats.releases < s'.stats.releases →
      s'.front ≠ [] ∧ Retires task k₀ s'

variable {task : RoutingTask} {p : Program} {k₀ : Kernel} {π₀ : Nat → Nat} {s s' : Router}
  {placement : Placement} {t t' : Tally}

section Runs

variable (hpad : Padded p task.device.numQubits k₀ task.labels)
  (hmappable : ∀ ins ∈ p.instructions, ins.Mappable) (hperiod : task.options.decayPeriod ≠ 0)
  (hplaced : placement.Realizes task.device.numQubits π₀)

include hpad hmappable hperiod hplaced

theorem Reaches.between (h : Reaches task ((List.range task.device.numQubits).map p.sourceOp)
    (start k₀ placement task.device) t s) : ∃ done π, Between task p k₀ π₀ done π t s := by
  induction h with
  | placed hs =>
      have hbetween := placed_spec hpad hplaced
      rw [returns_of_eq hs] at hbetween
      exact ⟨[], π₀, hbetween⟩
  | turn _ hturn ih =>
      obtain ⟨done, π, hbetween⟩ := ih
      have hmeets := turn_spec hbetween hpad hmappable hperiod
      unfold Meets at hmeets
      rw [hturn] at hmeets
      obtain ⟨-, done', π', hbetween', -⟩ := hmeets
      exact ⟨done', π', hbetween'⟩

/-- Not every turn is followed by another one. -/
theorem exists_last_turn :
    ∃ t s, Reaches task ((List.range task.device.numQubits).map p.sourceOp)
      (start k₀ placement task.device) t s ∧ ∀ t' s', turn task t s ≠ .ok (some t') s' := by
  by_contra hnone
  have hnext : ∀ t s, Reaches task ((List.range task.device.numQubits).map p.sourceOp)
      (start k₀ placement task.device) t s → ∃ t' s', turn task t s = .ok (some t') s' := by
    intro t s h
    by_contra hstop
    exact hnone ⟨t, s, h, fun t' s' hturn => hstop ⟨t', s', hturn⟩⟩
  -- otherwise states of every age would be reached
  have hold : ∀ n, ∃ t s, Reaches task ((List.range task.device.numQubits).map p.sourceOp)
      (start k₀ placement task.device) t s ∧ n ≤ age s := by
    intro n
    induction n with
    | zero =>
        obtain ⟨_, s, hs, -⟩ := returns_iff.mp (placed_spec hpad hplaced)
        exact ⟨{}, s, .placed hs, Nat.zero_le _⟩
    | succ n ih =>
        obtain ⟨t, s, h, hage⟩ := ih
        obtain ⟨t', s', hturn⟩ := hnext t s h
        obtain ⟨done, π, hbetween⟩ := h.between hpad hmappable hperiod hplaced
        have hmeets := turn_spec hbetween hpad hmappable hperiod
        unfold Meets at hmeets
        rw [hturn] at hmeets
        exact ⟨t', s', h.turn hturn, hmeets.1.1 ▸ Nat.succ_le_succ hage⟩
  obtain ⟨t, s, h, hage⟩ := hold (p.instructions.length * (task.options.releaseAfter + 2) + 2)
  obtain ⟨done, π, hbetween⟩ := h.between hpad hmappable hperiod hplaced
  have := hbetween.age_le hpad
  omega

end Runs

/-- The round after a release retires something. -/
theorem Cleared.retires {done : List Nat} {π : Nat → Nat} (hcleared : Cleared task π₀ π s)
    (h : Ready task p k₀ π₀ task.device.numQubits done π s.front s)
    (hpad : Padded p task.device.numQubits k₀ task.labels)
    (hmappable : ∀ ins ∈ p.instructions, ins.Mappable) : Retires task k₀ s := by
  refine (hcleared.round h hpad hmappable).mono ?_
  rintro progress s' ⟨hprogress, htried⟩
  obtain ⟨more, hready, hne, -⟩ := htried.ready
  obtain ⟨i, hi⟩ := List.exists_mem_of_ne_nil _ (hne hprogress)
  have hmem : i ∈ done ++ more := List.mem_append_right _ hi
  have hilt := hready.sound.history.lt_length i hmem
  have hnot : i ∉ done := by
    have := hready.sound.history.nodup
    rw [List.nodup_append] at this
    exact fun hdone => this.2.2 i hdone i hi rfl
  have hins := List.getElem?_eq_getElem hilt
  obtain ⟨o, ho, hencodes⟩ := hpad.instruction i _ hins
  have hlt := Kernel.lt_of_op?_eq_some ho
  refine ⟨hprogress, p.numQubits + i, o, ho, ?_, ?_, ?_⟩
  · rw [hencodes.kind]
    exact (hpad.valid _ (List.mem_of_getElem? hins)).alloc
  · rw [h.sound.visited _ hlt, Program.instruction_mem_visited hilt]
    exact hnot
  · rw [hready.sound.visited _ hlt, Program.instruction_mem_visited hilt]
    exact hmem

/-! ## Termination -/

/-- Whatever the costs are, a run over the kernel of a program, filled up to the size of the device,
terminates within bounds from every full placement. -/
theorem route_terminates {k : Kernel} {l l' : Labelling} {d : Device} {options : Options}
    {props : Properties} {c : Compilation} (hk : p.lower = .ok k)
    (hl : Labelling.ofKernel k = .ok l) (hn : l.sources.size ≤ d.numQubits)
    (hfilled : Mapping.insertAncillas l (Mapping.ancillaPosition k) (d.numQubits - l.sources.size)
      ⟨k, props⟩ = .ok l' c)
    (hplaces : placement.places.size = d.numQubits)
    (hholders : placement.holders.size = d.numQubits) (hcomplete : placement.isComplete = true)
    (hbijective : placement.isBijective = true) (hperiod : 1 ≤ options.decayPeriod) :
    Terminates ⟨d, l'.labels, options⟩ c.kernel l'.sources.toList placement := by
  obtain ⟨-, hmappable, hreturns⟩ := Mapping.padding_spec props hk hl hn
  rw [returns_of_eq hfilled] at hreturns
  obtain ⟨hpad, hsources, -⟩ := hreturns
  obtain ⟨π₀, hplaced⟩ := Placement.exists_realizes hplaces hholders hcomplete hbijective
  have hperiod' : options.decayPeriod ≠ 0 := Nat.ne_of_gt hperiod
  let task : RoutingTask := ⟨d, l'.labels, options⟩
  change Padded p task.device.numQubits c.kernel task.labels at hpad
  rw [hsources]
  refine
    { ends := ?_
      last := exists_last_turn hpad hmappable hperiod' hplaced
      searches := ?_
      fails := ?_
      retires := ?_ }
  · rw [hpad.workCount]
    refine (route_spec hpad hmappable hperiod' hplaced).mono ?_ ?_
    · rintro _ s ⟨-, done, π, -, -, hbounded⟩
      exact hbounded
    · exact fun e s hrefused => ⟨hrefused.error, hrefused.bounded⟩
  · intro t s hreaches
    obtain ⟨done, π, hbetween⟩ := hreaches.between hpad hmappable hperiod' hplaced
    rw [hpad.workCount]
    exact (hbetween.bounded hpad).2
  · intro t s hreaches e s' hturn
    obtain ⟨done, π, hbetween⟩ := hreaches.between hpad hmappable hperiod' hplaced
    have hmeets := turn_spec hbetween hpad hmappable hperiod'
    unfold Meets at hmeets
    rw [hturn] at hmeets
    exact hmeets.2
  · intro t s hreaches t' s' hturn hreleases
    obtain ⟨done, π, hbetween⟩ := hreaches.between hpad hmappable hperiod' hplaced
    have hmeets := turn_spec hbetween hpad hmappable hperiod'
    unfold Meets at hmeets
    rw [hturn] at hmeets
    obtain ⟨-, done', π', hbetween', hcleared⟩ := hmeets
    have hcleared := hcleared.resolve_left (Nat.ne_of_gt hreleases)
    obtain ⟨r, rest, hfront, -⟩ := hcleared.oldest
    exact ⟨by simp [hfront], hcleared.retires hbetween'.ready hpad hmappable⟩

/-- Three qubits on a path of four, with a release after the first swap that did not help. -/
theorem route_terminates_outerPair :
    ∃ k l l' c d placement, Program.outerPair.lower = .ok k ∧ Labelling.ofKernel k = .ok l ∧
      Device.path 4 = .ok d ∧
      Mapping.insertAncillas l (Mapping.ancillaPosition k) (d.numQubits - l.sources.size)
        ⟨k, .empty⟩ = .ok l' c ∧
      Placement.identity 4 4 = .ok placement ∧
      Terminates ⟨d, l'.labels, { releaseAfter := 1 }⟩ c.kernel l'.sources.toList placement := by
  obtain ⟨placement, hplacement, hplaced⟩ := Placement.identity_realizes 4
  refine ⟨_, _, _, _, _, placement, rfl, rfl, rfl, rfl, hplacement, ?_⟩
  exact route_terminates (p := Program.outerPair) rfl rfl (by decide) rfl hplaced.places
    hplaced.holders hplaced.isComplete hplaced.isBijective (by decide)

end Router

end QubitMapper
