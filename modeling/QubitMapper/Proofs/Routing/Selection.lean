import QubitMapper.Proofs.Routing.Costs
import QubitMapper.Proofs.Routing.Traceless

/-!
# The swap that is chosen

Where a run stalls, the search for a swap goes through the edges at the involved qubits in ascending
order. Each is judged on the placement with this one swap, and as long as the costs are ranked the
first cheapest is chosen.

## Main results

* `Router.candidates_ascending`: the candidates in lexicographic order, each once.
* `Router.Stalls.searches`: what a search does, in a run over any kernel.
* `Router.Stalls.chooses`: in a run over the kernel of a program it finds a swap.
* `Router.chooseSwap_cheapest`: the two together, and costs that are ranked.
-/

namespace QubitMapper.Router

variable {task : RoutingTask} {sources : List Nat} {s₀ s s' : Router} {ahead : List ReadyOp}

/-! ## Candidates -/

/-- The candidates are listed in strictly ascending lexicographic order. -/
theorem candidates_ascending (d : Device) (involved : List Nat) :
    (candidates d involved).Pairwise (Prod.Lex (· < ·) (· < ·)) := by
  unfold candidates
  rw [List.pairwise_flatMap]
  constructor
  · intro a _
    rw [List.pairwise_map]
    exact (d.sortedLT_neighbors a).pairwise.imp fun hlt => Prod.Lex.right a hlt
  · have hqubits : ((List.range d.numQubits).filter involved.contains).Pairwise (· < ·) :=
      List.pairwise_lt_range.sublist List.filter_sublist
    refine hqubits.imp fun hlt c hc c' hc' => ?_
    obtain ⟨b, -, rfl⟩ := List.mem_map.mp hc
    obtain ⟨b', -, rfl⟩ := List.mem_map.mp hc'
    exact Prod.Lex.left b b' hlt

/-! ## Searches -/

/-- A run stalls: a round of it retires nothing of a layer. -/
def Stalls (task : RoutingTask) (sources : List Nat) (s₀ s : Router) : Prop :=
  ∃ t s₁, Reaches task sources s₀ t s₁ ∧ s₁.front ≠ [] ∧ round task s₁ = .ok false s

theorem Stalls.comes (h : Stalls task sources s₀ s) : Comes task sources s₀ s := by
  obtain ⟨t, s₁, hreaches, -, hround⟩ := h
  exact ⟨t, s₁, hreaches, .inr ⟨false, hround⟩⟩

/-- What the search for a swap does in a state. -/
structure Searches (task : RoutingTask) (s : Router) : Prop where
  /-- The candidates are an involved qubit and a neighbor of it each. -/
  pairs : ∀ a b, (a, b) ∈ candidates task.device s.involved ↔
    a ∈ s.involved ∧ b ∈ task.device.neighbors a
  /-- They come in strictly ascending order. -/
  ascending : (candidates task.device s.involved).Pairwise (Prod.Lex (· < ·) (· < ·))
  /-- They are edges of the device. -/
  edges : ∀ c ∈ candidates task.device s.involved,
    c ∈ task.device.edges ∨ c.swap ∈ task.device.edges
  /-- After a look ahead each has its cost, that of the placement as it is with this one swap. They
  are tried one by one, and whatever candidates have been tried before, trying the next one gives
  its cost and unmakes the swap again. -/
  judged : ∀ ahead s', lookAhead task s = .ok ahead s' →
    task.device.numQubits ≤ s.placement.physicalCount →
    ∃ cost : Nat × Nat → Float,
      (∀ c ∈ candidates task.device s.involved, Judged task s ahead c (cost c)) ∧
      ∀ before c after, candidates task.device s.involved = before ++ c :: after →
        before.mapM (trySwap task ahead) s' = .ok (before.map cost) s' ∧
          trySwap task ahead c s' = .ok (cost c) s'
  /-- The candidate that is chosen is the first cheapest, if the costs are ranked. -/
  chosen : ∀ c s', chooseSwap task s = .ok c s' → c ∈ candidates task.device s.involved ∧
    ∃ ahead cost, lookAhead task s = .ok ahead s' ∧
      (∀ c ∈ candidates task.device s.involved, Judged task s ahead c (cost c)) ∧
      (Ranked ((candidates task.device s.involved).map cost) →
        FirstCheapest cost (candidates task.device s.involved) c)
  /-- No candidate is chosen only if there is none, or if it cannot be judged. -/
  fails : ∀ e s', chooseSwap task s = .error e s' →
    (e = .noCandidate ∧ candidates task.device s.involved = []) ∨
      lookAhead task s = .error e s' ∨ ∃ q, e = .fault (.noSuchQubit q)

/-- The search for a swap on tables that are inverse to each other, while qubits have weights. -/
theorem searches_of_isBijective (hp : s.placement.isBijective = true)
    (hw : task.device.numQubits ≤ s.decay.size) : Searches task s := by
  refine
    { pairs := fun a b => ?_
      ascending := candidates_ascending _ _
      edges := fun c hc => (task.device.isAdjacent_iff c.1 c.2).mp (mem_candidates.mp hc).2
      judged := ?_
      chosen := ?_
      fails := fun e s' herror => ?_ }
  · rw [mem_candidates]
    simp [Device.isAdjacent]
  · intro ahead s' hahead hcount
    obtain ⟨⟨f, -, rfl⟩, -⟩ := (lookAhead_meets task s).of_ok hahead
    have hlt : ∀ c ∈ candidates task.device s.involved,
        c.1 < s.decay.size ∧ c.2 < s.decay.size := fun c hc => candidates_lt hc hw
    obtain ⟨cost, hcost⟩ := exists_judged task ahead hlt
    refine ⟨cost, hcost, fun before c after hsplit => ?_⟩
    rw [hsplit] at hcost
    have hmissed : ∀ c' ∈ before ++ c :: after, s.placement.missed? c'.1 c'.2 = none := by
      intro c' hc'
      rw [← hsplit] at hc'
      obtain ⟨ha, hb⟩ := candidates_lt hc' hcount
      exact Placement.missed?_eq_none hp ha hb
    rw [List.forall_mem_append, List.forall_mem_cons] at hcost hmissed
    exact ⟨trySwaps_eq (s := { s with frontier := f }) hp hmissed.1 hcost.1,
      trySwap_eq (s := { s with frontier := f }) hp hmissed.2.1 hcost.2.1⟩
  · intro c s' hchosen
    obtain ⟨-, ahead, cost, hahead, hcost, hcheapest⟩ := (chooseSwap_meets hp).of_ok hchosen
    exact ⟨mem_of_firstCheapest hcheapest, ahead, cost, hahead, hcost,
      fun hranked => hranked.firstCheapest hcheapest⟩
  · have hfails : Meets (chooseSwap task) s _ _ := chooseSwap_meets hp
    unfold Meets at hfails
    rw [herror] at hfails
    exact hfails.2

/-- Where a run stalls, its search is one on tables that are inverse to each other. -/
theorem Stalls.searches {k : Kernel} {placement : Placement}
    (h : Stalls task sources (start k placement task.device) s)
    (hp : placement.isBijective = true) : Searches task s :=
  searches_of_isBijective ((h.comes.allows : StaysBijective _ s) hp) h.comes.weights.ge

/-! ## Programs -/

/-- Where a run over the kernel of a program stalls, everything in its layer is stuck. -/
theorem Stalls.stuck {p : Program} {k₀ : Kernel} {π₀ : Nat → Nat} {placement : Placement}
    (hpad : Padded p task.device.numQubits k₀ task.labels)
    (hmappable : ∀ ins ∈ p.instructions, ins.Mappable) (hperiod : task.options.decayPeriod ≠ 0)
    (hplaced : placement.Realizes task.device.numQubits π₀)
    (h : Stalls task ((List.range task.device.numQubits).map p.sourceOp)
      (start k₀ placement task.device) s) :
    ∃ done π, Ready task p k₀ π₀ task.device.numQubits done π s.front s ∧ s.front ≠ [] ∧
      ∀ r ∈ s.front, Stuck task.device π₀ π s.involved r := by
  obtain ⟨t, s₁, hreaches, hne, hround⟩ := h
  obtain ⟨done, π, hbetween⟩ := hreaches.between hpad hmappable hperiod hplaced
  obtain ⟨hfront, hready, hstuck⟩ :=
    ((round_spec hbetween.ready hpad hmappable).of_ok hround).idle
  exact ⟨done, π, hready, hfront ▸ hne, hstuck⟩

/-- There the search finds a swap. -/
theorem Stalls.chooses {p : Program} {k₀ : Kernel} {π₀ : Nat → Nat} {placement : Placement}
    (hpad : Padded p task.device.numQubits k₀ task.labels)
    (hmappable : ∀ ins ∈ p.instructions, ins.Mappable) (hperiod : task.options.decayPeriod ≠ 0)
    (hplaced : placement.Realizes task.device.numQubits π₀)
    (h : Stalls task ((List.range task.device.numQubits).map p.sourceOp)
      (start k₀ placement task.device) s) : ∃ c s', chooseSwap task s = .ok c s' := by
  obtain ⟨done, π, hready, hne, hstuck⟩ := h.stuck hpad hmappable hperiod hplaced
  obtain ⟨r, hr⟩ := List.exists_mem_of_ne_nil _ hne
  obtain ⟨c, s', hchosen, -⟩ := returns_iff.mp (chooseSwap_spec hready hpad (hstuck r hr) hr)
  exact ⟨c, s', hchosen⟩

/-- Wherever a run stalls, the search for a swap judges the edges at the involved qubits, in
ascending order and each on the placement with this one swap, and chooses the first cheapest, as
long as the costs are ranked. They are if all of them are numbers. In a run over the kernel of a
program it always finds a swap. -/
theorem chooseSwap_cheapest :
    (∀ (task : RoutingTask) (k : Kernel) (placement : Placement) (sources : List Nat) (s : Router),
      placement.isBijective = true →
        Stalls task sources (start k placement task.device) s → Searches task s) ∧
    (∀ costs : List Float, (∀ x ∈ costs, x.isNaN = false) → Ranked costs) ∧
    ∀ (p : Program) (k : Kernel) (l l' : Labelling) (d : Device) (options : Options)
      (props : Properties) (c : Compilation) (placement : Placement) (s : Router),
      p.lower = .ok k → Labelling.ofKernel k = .ok l → l.sources.size ≤ d.numQubits →
      Mapping.insertAncillas l (Mapping.ancillaPosition k) (d.numQubits - l.sources.size)
        ⟨k, props⟩ = .ok l' c →
      placement.places.size = d.numQubits → placement.holders.size = d.numQubits →
      placement.isComplete = true → placement.isBijective = true → 1 ≤ options.decayPeriod →
      Stalls ⟨d, l'.labels, options⟩ l'.sources.toList (start c.kernel placement d) s →
        ∃ chosen s', chooseSwap ⟨d, l'.labels, options⟩ s = .ok chosen s' := by
  refine ⟨fun task k placement sources s hp h => h.searches hp, fun _ => ranked_of_isNaN_eq_false,
    ?_⟩
  intro p k l l' d options props c placement s hk hl hn hfilled hplaces hholders hcomplete
    hbijective hperiod hstalls
  obtain ⟨-, hmappable, hreturns⟩ := Mapping.padding_spec props hk hl hn
  rw [returns_of_eq hfilled] at hreturns
  obtain ⟨hpad, hsources, -⟩ := hreturns
  obtain ⟨π₀, hplaced⟩ := Placement.exists_realizes hplaces hholders hcomplete hbijective
  rw [hsources] at hstalls
  exact hstalls.chooses hpad hmappable (Nat.ne_of_gt hperiod) hplaced

/-- On a path the outer two of three qubits wait for each other. Moving either one costs the same,
and the lower one is moved. -/
theorem chooseSwap_cheapest_outerPair :
    ∃ k l l' c s chosen s' ahead, Program.outerPair.lower = .ok k ∧ Labelling.ofKernel k = .ok l ∧
      Mapping.insertAncillas l (Mapping.ancillaPosition k) 0 ⟨k, .empty⟩ = .ok l' c ∧
      Stalls ⟨.line, l'.labels, {}⟩ l'.sources.toList
        (start c.kernel ⟨#[some 0, some 1, some 2], #[some 0, some 1, some 2]⟩ .line) s ∧
      Searches ⟨.line, l'.labels, {}⟩ s ∧
      candidates .line s.involved = [(0, 1), (2, 1)] ∧
      lookAhead ⟨.line, l'.labels, {}⟩ s = .ok ahead s' ∧
      chooseSwap ⟨.line, l'.labels, {}⟩ s = .ok chosen s' ∧ chosen = (0, 1) ∧
      ∃ cost, (∀ c ∈ [(0, 1), (2, 1)], Judged ⟨.line, l'.labels, {}⟩ s ahead c (cost c)) ∧
        FirstCheapest cost [(0, 1), (2, 1)] (0, 1) := by
  have hcomputed : (do
      let k ← Program.outerPair.lower.toOption
      let l ← (Labelling.ofKernel k).toOption
      let filled ← ended? (Mapping.insertAncillas l (Mapping.ancillaPosition k) 0 ⟨k, .empty⟩)
      let task : RoutingTask := ⟨.line, filled.1.labels, {}⟩
      let placed ← ended? (filled.1.sources.toList.forM (placeSource task)
        (start filled.2.kernel ⟨#[some 0, some 1, some 2], #[some 0, some 1, some 2]⟩ .line))
      let tried ← ended? (round task placed.2)
      let found ← ended? (lookAhead task tried.2)
      let candidates := candidates .line tried.2.involved
      let costs ← ended? (candidates.mapM (trySwap task found.1) tried.2)
      let chosen ← ended? (chooseSwap task tried.2)
      return (l.sources.size != 3 || placed.2.front.isEmpty || tried.1 || costs.1.any (·.isNaN),
        candidates, chosen.1)) = some (false, [(0, 1), (2, 1)], (0, 1)) := by
    decide +kernel
  simp only [bind, pure, Option.bind_eq_some_iff, Except.toOption_eq_some, ended?_eq_some,
    Option.some.injEq, Prod.mk.injEq, Bool.or_eq_false_iff, bne_eq_false_iff_eq] at hcomputed
  obtain ⟨k, hk, l, hl, filled, hfilled, placed, hplaced, tried, htried, found, hfound, costs,
    hcosts, chosen, hchosen, ⟨⟨⟨hsize, hfront⟩, hround⟩, hnumbers⟩, hcandidates, hpair⟩ := hcomputed
  have hstalls : Stalls ⟨.line, filled.1.labels, {}⟩ filled.1.sources.toList
      (start filled.2.kernel ⟨#[some 0, some 1, some 2], #[some 0, some 1, some 2]⟩ .line)
        tried.2 := by
    refine ⟨{}, placed.2, .placed hplaced, by simpa using hfront, ?_⟩
    rw [htried, hround]
  have hplacement : Placement.isBijective
      ⟨#[some 0, some 1, some 2], #[some 0, some 1, some 2]⟩ = true := by decide
  have hsearches := chooseSwap_cheapest.1 _ _ _ _ _ hplacement hstalls
  obtain ⟨chosen', s', hchosen'⟩ := chooseSwap_cheapest.2.2 Program.outerPair k l filled.1 .line {}
    .empty filled.2 _ tried.2 hk hl (by rw [hsize]; decide) (by rw [hsize]; exact hfilled) rfl rfl
    (by decide +kernel) hplacement (by decide) hstalls
  obtain ⟨rfl, rfl⟩ : chosen' = chosen.1 ∧ s' = chosen.2 := by
    rw [hchosen'] at hchosen
    cases hchosen
    exact ⟨rfl, rfl⟩
  obtain ⟨-, ahead, cost, hahead, hcost, hcheapest⟩ := hsearches.chosen _ _ hchosen
  obtain rfl : ahead = found.1 := by
    rw [hahead] at hfound
    exact (EStateM.Result.ok.inj hfound).1
  have hbijective := (hstalls.comes.allows : StaysBijective _ tried.2) hplacement
  have hmap : costs.1 = (candidates .line tried.2.involved).map cost :=
    Judged.eq_map ((trySwaps_meets hbijective).of_ok hcosts).2 hcost
  have hranked := chooseSwap_cheapest.2.1 costs.1 (by simpa using hnumbers)
  have hfirst := hcheapest (hmap ▸ hranked)
  simp only [hcandidates, hpair] at hfirst hcost
  exact ⟨k, l, filled.1, filled.2, tried.2, chosen.1, chosen.2, found.1, hk, hl, hfilled, hstalls,
    hsearches, hcandidates, hahead, hchosen, hpair, cost, hcost, hfirst⟩

end QubitMapper.Router
