import QubitMapper.Proofs.Device.Metric
import QubitMapper.Proofs.Routing.Rollback
import QubitMapper.Proofs.Routing.Steps

/-!
# Trials

The search for a swap tries things on the state of the run itself: it looks ahead on the frontier,
and it makes each candidate in the placement to judge it. All of it is taken back, so that the
search ends in a state that cannot be told from the one it began in, whether it finds a swap or
fails.

## Main results

* `Router.Judged`: what a candidate costs.
* `Router.trySwap_eq`, `Router.trySwap_meets`: a trial, and what is left of one that fails.
* `Router.chooseSwap_meets`: what the search finds, how it fails, and the state it leaves.
* `Router.chooseSwap_ok`: when it finds something.
-/

namespace QubitMapper

/-! ## The first cheapest thing -/

section Cheapest

variable {α γ : Type} [LT γ] [DecidableLT γ] {cost : α → γ}

private theorem go_mem (l : List α) : ∀ (best : α) (lowest : γ),
    firstCheapest.go cost best lowest l ∈ best :: l := by
  induction l with
  | nil => exact fun best _ => List.mem_singleton_self best
  | cons a rest ih =>
      intro best lowest
      unfold firstCheapest.go
      simp only
      split
      · exact List.mem_cons_of_mem _ (ih a _)
      · rcases List.mem_cons.mp (ih best lowest) with h | h
        · rw [h]
          exact List.mem_cons_self
        · exact List.mem_cons_of_mem _ (List.mem_cons_of_mem _ h)

/-- Whatever the costs are, one of some things is chosen. -/
theorem firstCheapest_mem (cost : α → γ) {l : List α} (hl : l ≠ []) :
    ∃ a ∈ l, firstCheapest cost l = some a := by
  cases l with
  | nil => exact absurd rfl hl
  | cons a rest => exact ⟨_, go_mem rest a (cost a), rfl⟩

/-- What is chosen as cheapest is one of the things to choose from. -/
theorem mem_of_firstCheapest {l : List α} {a : α} (h : firstCheapest cost l = some a) : a ∈ l := by
  have hne : l ≠ [] := by
    rintro rfl
    cases h
  obtain ⟨a', ha', h'⟩ := firstCheapest_mem cost hne
  cases h.symm.trans h'
  exact ha'

private theorem go_zip (l : List α) : ∀ (best : α) (lowest : γ),
    firstCheapest.go (·.2) (best, cost best) lowest (l.zip (l.map cost)) =
      (firstCheapest.go cost best lowest l, cost (firstCheapest.go cost best lowest l)) := by
  induction l with
  | nil => exact fun _ _ => rfl
  | cons a rest ih =>
      intro best lowest
      rw [List.map_cons, List.zip_cons_cons]
      unfold firstCheapest.go
      dsimp only
      split
      · exact ih a (cost a)
      · exact ih best lowest

/-- The costs may be taken before any two of them are compared. -/
theorem firstCheapest_zip (cost : α → γ) (l : List α) :
    firstCheapest (·.2) (l.zip (l.map cost)) = (firstCheapest cost l).map fun a => (a, cost a) := by
  cases l with
  | nil => rfl
  | cons a rest => exact congrArg some (go_zip rest a (cost a))

end Cheapest

namespace Router

variable {task : RoutingTask} {s s' s'' : Router} {ahead : List ReadyOp} {cs : List (Nat × Nat)}

/-! ## Candidates -/

theorem mem_candidates {d : Device} {involved : List Nat} {c : Nat × Nat} :
    c ∈ candidates d involved ↔ c.1 ∈ involved ∧ d.isAdjacent c.1 c.2 = true := by
  obtain ⟨a, b⟩ := c
  simp only [candidates, List.mem_flatMap, List.mem_filter, List.mem_range, List.contains_iff_mem,
    List.mem_map, Prod.mk.injEq]
  constructor
  · rintro ⟨_, ⟨-, ha⟩, _, hb, rfl, rfl⟩
    exact ⟨ha, by simpa [Device.isAdjacent] using hb⟩
  · rintro ⟨ha, hadjacent⟩
    exact ⟨a, ⟨(d.isAdjacent_lt hadjacent).1, ha⟩, b, by simpa [Device.isAdjacent] using hadjacent,
      rfl, rfl⟩

/-- Candidates are qubits of the device. -/
theorem candidates_lt {d : Device} {involved : List Nat} {c : Nat × Nat}
    (hc : c ∈ candidates d involved) {n : Nat} (hn : d.numQubits ≤ n) : c.1 < n ∧ c.2 < n := by
  obtain ⟨ha, hb⟩ := d.isAdjacent_lt (mem_candidates.mp hc).2
  exact ⟨Nat.lt_of_lt_of_le ha hn, Nat.lt_of_lt_of_le hb hn⟩

/-! ## Trials -/

/-- Two states that cannot be told apart: they differ at most in frontiers that cannot. -/
def Same (s s' : Router) : Prop := ∃ f, s.frontier.Same f ∧ s' = { s with frontier := f }

theorem Same.refl (s : Router) : s.Same s := ⟨s.frontier, .refl _, rfl⟩

/-- What a swap costs: the greater weight of its two qubits, times the cost of the layers on the
placement with this one swap. -/
def Judged (task : RoutingTask) (s : Router) (ahead : List ReadyOp) (c : Nat × Nat)
    (cost : Float) : Prop :=
  ∃ x y, s.decay[c.1]? = some x ∧ s.decay[c.2]? = some y ∧
    cost = Cost.greater x y * Cost.layers task.device (s.placement.swap c.1 c.2) s.front ahead
      task.options.lookaheadWeight

/-- A swap has at most one cost. -/
theorem Judged.unique {c : Nat × Nat} {cost cost' : Float} (h : Judged task s ahead c cost)
    (h' : Judged task s ahead c cost') : cost = cost' := by
  obtain ⟨x, y, hx, hy, rfl⟩ := h
  obtain ⟨x', y', hx', hy', rfl⟩ := h'
  cases hx.symm.trans hx'
  cases hy.symm.trans hy'
  rfl

/-- Swaps of qubits that have weights have costs. -/
theorem exists_judged (task : RoutingTask) (ahead : List ReadyOp)
    (hcs : ∀ c ∈ cs, c.1 < s.decay.size ∧ c.2 < s.decay.size) :
    ∃ cost : Nat × Nat → Float, ∀ c ∈ cs, Judged task s ahead c (cost c) := by
  have hcost : ∀ c, ∃ x, c ∈ cs → Judged task s ahead c x := by
    intro c
    by_cases hc : c ∈ cs
    · obtain ⟨ha, hb⟩ := hcs c hc
      exact ⟨_, fun _ => ⟨_, _, Array.getElem?_eq_getElem ha, Array.getElem?_eq_getElem hb, rfl⟩⟩
    · exact ⟨0.0, fun hmem => absurd hmem hc⟩
  choose cost hcost using hcost
  exact ⟨cost, hcost⟩

/-- The costs of some swaps, however they were come by. -/
theorem Judged.eq_map {costs : List Float} (h : List.Forall₂ (Judged task s ahead) cs costs)
    {cost : Nat × Nat → Float} (hcost : ∀ c ∈ cs, Judged task s ahead c (cost c)) :
    costs = cs.map cost := by
  induction h with
  | nil => rfl
  | cons hjudged _ ih =>
      rw [List.forall_mem_cons] at hcost
      rw [List.map_cons, hjudged.unique hcost.1, ← ih hcost.2]

/-- Swaps that have costs have weights. -/
theorem Judged.lt_size {c : Nat × Nat} {cost : Float} (h : Judged task s ahead c cost) :
    c.1 < s.decay.size ∧ c.2 < s.decay.size := by
  obtain ⟨x, y, hx, hy, -⟩ := h
  exact ⟨(Array.getElem?_eq_some_iff.mp hx).1, (Array.getElem?_eq_some_iff.mp hy).1⟩

/-- The costs of some swaps are those that a function gives. -/
theorem Judged.exists_cost {costs : List Float}
    (h : List.Forall₂ (Judged task s ahead) cs costs) :
    ∃ cost, costs = cs.map cost ∧ ∀ c ∈ cs, Judged task s ahead c (cost c) := by
  have hlt : ∀ c ∈ cs, c.1 < s.decay.size ∧ c.2 < s.decay.size := fun c hc => by
    obtain ⟨_, -, hjudged⟩ := forall₂_mem_left h hc
    exact hjudged.lt_size
  obtain ⟨cost, hcost⟩ := exists_judged task ahead hlt
  exact ⟨cost, eq_map h hcost, hcost⟩

theorem weightOf_eq {q : Nat} {weight : Float} (h : s.decay[q]? = some weight) :
    weightOf q s = .ok weight s := by
  unfold weightOf
  rw [get_bind, h]
  rfl

theorem weightOf_meets (q : Nat) : Meets (weightOf q) s
    (fun weight s' => s' = s ∧ s.decay[q]? = some weight)
    fun e s' => e = .fault (.noSuchQubit q) ∧ s' = s ∧ s.decay.size ≤ q := by
  unfold weightOf
  rw [meets_get_bind]
  cases h : s.decay[q]? with
  | some weight => exact ⟨rfl, rfl⟩
  | none => exact ⟨rfl, rfl, Array.getElem?_eq_none_iff.mp h⟩

theorem swapPlaces_meets (c : Nat × Nat) : Meets (swapPlaces c) s
    (fun _ s' => s' = s.exchanged c ∧ s.placement.missed? c.1 c.2 = none)
    fun e s' => (∃ q, e = .fault (.noSuchQubit q)) ∧ s' = s := by
  unfold swapPlaces
  rw [meets_get_bind]
  cases h : s.placement.missed? c.1 c.2 with
  | some q => exact ⟨⟨q, rfl⟩, rfl⟩
  | none => exact ⟨rfl, rfl⟩

/-- A swap that is made can be unmade. -/
theorem swapPlaces_exchanged (hp : s.placement.isBijective = true) {c : Nat × Nat}
    (hmissed : s.placement.missed? c.1 c.2 = none) :
    swapPlaces c (s.exchanged c) = .ok ⟨⟩ s := by
  obtain ⟨⟨ha, hb⟩, -⟩ := Placement.missed?_eq_none_iff.mp hmissed
  have hback : (s.exchanged c).exchanged c = s := by
    unfold exchanged
    rw [Placement.swap_swap hp ha hb]
  have hmissed' : (s.exchanged c).placement.missed? c.1 c.2 = none :=
    Placement.missed?_eq_none (Placement.isBijective_swap hp ha hb)
      (by simpa [exchanged] using ha) (by simpa [exchanged] using hb)
  rw [swapPlaces_eq hmissed', hback]

/-- A swap that is tried is judged by the placement that has it, and unmade. -/
theorem trySwap_eq (hp : s.placement.isBijective = true) {c : Nat × Nat} {cost : Float}
    (hmissed : s.placement.missed? c.1 c.2 = none) (hcost : Judged task s ahead c cost) :
    trySwap task ahead c s = .ok cost s := by
  obtain ⟨x, y, hx, hy, rfl⟩ := hcost
  have hx' : (s.exchanged c).decay[c.1]? = some x := hx
  have hy' : (s.exchanged c).decay[c.2]? = some y := hy
  unfold trySwap swapCost
  rw [bind_of_eq (swapPlaces_eq hmissed)]
  simp only [bind_assoc]
  rw [bind_of_eq (weightOf_eq hx'), bind_of_eq (weightOf_eq hy'), get_bind, pure_bind,
    bind_of_eq (swapPlaces_exchanged hp hmissed)]
  rfl

/-- A trial that fails has met a qubit that is missing. The swap is left made only if a weight is
the one missed. -/
theorem trySwap_meets (hp : s.placement.isBijective = true) (c : Nat × Nat) :
    Meets (trySwap task ahead c) s (fun cost s' => s' = s ∧ Judged task s ahead c cost)
      fun e s' => (∃ q, e = .fault (.noSuchQubit q)) ∧
        (c.1 < s.decay.size → c.2 < s.decay.size → s' = s) := by
  unfold trySwap swapCost
  refine ((swapPlaces_meets c).mono (fun _ _ => id) fun e s' ⟨he, hs'⟩ =>
    ⟨he, fun _ _ => hs'⟩).bind ?_
  rintro _ _ ⟨rfl, hmissed⟩
  simp only [bind_assoc]
  refine ((weightOf_meets c.1).mono (fun _ _ => id) fun e s' ⟨he, _, hsize⟩ =>
    ⟨⟨_, he⟩, fun hlt => absurd hlt (Nat.not_lt.mpr hsize)⟩).bind ?_
  rintro x _ ⟨rfl, hx⟩
  refine ((weightOf_meets c.2).mono (fun _ _ => id) fun e s' ⟨he, _, hsize⟩ =>
    ⟨⟨_, he⟩, fun _ hlt => absurd hlt (Nat.not_lt.mpr hsize)⟩).bind ?_
  rintro y _ ⟨rfl, hy⟩
  rw [meets_get_bind, pure_bind, meets_bind_of_eq (swapPlaces_exchanged hp hmissed), meets_pure]
  exact ⟨rfl, x, y, hx, hy, rfl⟩

/-- Swaps are tried one by one, each on the placement as it was. -/
theorem trySwaps_eq (hp : s.placement.isBijective = true) {cost : Nat × Nat → Float}
    (hmissed : ∀ c ∈ cs, s.placement.missed? c.1 c.2 = none)
    (hcost : ∀ c ∈ cs, Judged task s ahead c (cost c)) :
    cs.mapM (trySwap task ahead) s = .ok (cs.map cost) s := by
  induction cs with
  | nil => rfl
  | cons c rest ih =>
      rw [List.forall_mem_cons] at hmissed hcost
      rw [List.mapM_cons, bind_of_eq (trySwap_eq hp hmissed.1 hcost.1),
        bind_of_eq (ih hmissed.2 hcost.2)]
      rfl

theorem trySwaps_meets (hp : s.placement.isBijective = true) :
    Meets (cs.mapM (trySwap task ahead)) s
      (fun costs s' => s' = s ∧ List.Forall₂ (Judged task s ahead) cs costs)
      fun e s' => (∃ q, e = .fault (.noSuchQubit q)) ∧
        ((∀ c ∈ cs, c.1 < s.decay.size ∧ c.2 < s.decay.size) → s' = s) := by
  induction cs with
  | nil => exact ⟨rfl, .nil⟩
  | cons c rest ih =>
      rw [List.mapM_cons]
      simp only [List.forall_mem_cons]
      refine ((trySwap_meets hp c).mono (fun _ _ => id) fun e s' ⟨he, hs'⟩ =>
        ⟨he, fun hcs => hs' hcs.1.1 hcs.1.2⟩).bind ?_
      rintro cost _ ⟨rfl, hcost⟩
      refine (ih.mono (fun _ _ => id) fun e s' ⟨he, hs'⟩ => ⟨he, fun hcs => hs' hcs.2⟩).bind ?_
      rintro costs _ ⟨rfl, hcosts⟩
      exact ⟨rfl, .cons hcost hcosts⟩

/-- A look ahead leaves no trace. -/
theorem lookAhead_meets (task : RoutingTask) (s : Router) : Meets (lookAhead task) s
    (fun ops s' => s.Same s' ∧ ∀ r ∈ ops, r.Labelled task.labels) fun _ s' => s.Same s' := by
  unfold lookAhead
  split
  · exact ⟨.refl s, by simp⟩
  · rw [meets_get_bind]
    cases h : Lookahead.layer s.kernel task.labels s.frontier s.front
      task.options.lookaheadSize with
    | error e => exact .refl s
    | ok out =>
        obtain ⟨hsame, hops⟩ := Lookahead.layer_spec h
        exact ⟨⟨out.1, hsame, rfl⟩, hops⟩

/-- In a consistent kernel it succeeds. -/
theorem lookAhead_ok (task : RoutingTask) (hk : s.kernel.Consistent) :
    ∃ ops s', lookAhead task s = .ok ops s' := by
  unfold lookAhead
  split
  · exact ⟨_, _, rfl⟩
  · obtain ⟨out, hlayer⟩ := Lookahead.layer_ok task.labels hk s.frontier s.front
      task.options.lookaheadSize
    rw [get_bind, hlayer]
    exact ⟨_, _, rfl⟩

/-! ## The search -/

/-- After a look ahead the candidates are tried, if it knows the places of all operations. -/
private theorem chooseSwap_eq (hahead : lookAhead task s = .ok ahead s') (hsame : s.Same s') :
    chooseSwap task s =
      match strayQubit? s ahead (candidates task.device s.involved) with
      | some q => .error (.fault (.noSuchQubit q)) s'
      | none => (do
          let costs ← (candidates task.device s.involved).mapM (trySwap task ahead)
          match firstCheapest (·.2) ((candidates task.device s.involved).zip costs) with
          | some (c, _) => return c
          | none => throw .noCandidate : Route (Nat × Nat)) s' := by
  obtain ⟨f, -, rfl⟩ := hsame
  unfold chooseSwap
  rw [get_bind, bind_of_eq hahead, get_bind]
  -- the frontier plays no part in the judgement
  have hstrays : strayQubit? { s with frontier := f } ahead = strayQubit? s ahead := rfl
  rw [hstrays]
  cases strayQubit? s ahead (candidates task.device s.involved) <;> rfl

/-- If the look ahead fails, so does the search. -/
theorem chooseSwap_eq_error {e : MappingError} (h : lookAhead task s = .error e s') :
    chooseSwap task s = .error e s' := by
  unfold chooseSwap
  rw [get_bind, bind_of_eq_error h]

/-- The search for a swap judges every candidate on the placement with this one swap, chooses the
first cheapest and leaves no trace, also if it fails. -/
theorem chooseSwap_meets (hp : s.placement.isBijective = true) : Meets (chooseSwap task) s
    (fun c s' => s.Same s' ∧ ∃ ahead cost, lookAhead task s = .ok ahead s' ∧
      (∀ c ∈ candidates task.device s.involved, Judged task s ahead c (cost c)) ∧
        firstCheapest cost (candidates task.device s.involved) = some c)
    fun e s' => (task.device.numQubits ≤ s.decay.size → s.Same s') ∧
      ((e = .noCandidate ∧ candidates task.device s.involved = []) ∨
        lookAhead task s = .error e s' ∨ ∃ q, e = .fault (.noSuchQubit q)) := by
  have hlook := lookAhead_meets task s
  unfold Meets at hlook
  cases hahead : lookAhead task s with
  | error e s' =>
      rw [hahead] at hlook
      unfold Meets
      rw [chooseSwap_eq_error hahead]
      exact ⟨fun _ => hlook, .inr (.inl rfl)⟩
  | ok ahead s' =>
      rw [hahead] at hlook
      obtain ⟨⟨f, hsame, rfl⟩, -⟩ := hlook
      unfold Meets
      rw [chooseSwap_eq hahead ⟨f, hsame, rfl⟩]
      cases strayQubit? s ahead (candidates task.device s.involved) with
      | some q => exact ⟨fun _ => ⟨f, hsame, rfl⟩, .inr (.inr ⟨q, rfl⟩)⟩
      | none =>
          have hlt (hw : task.device.numQubits ≤ s.decay.size) :
              ∀ c ∈ candidates task.device s.involved,
                c.1 < s.decay.size ∧ c.2 < s.decay.size := fun c hc => candidates_lt hc hw
          refine ((trySwaps_meets (s := { s with frontier := f }) hp).mono (fun _ _ => id)
            fun e s' ⟨he, hs'⟩ =>
              ⟨fun hw => hs' (hlt hw) ▸ ⟨f, hsame, rfl⟩, .inr (.inr he)⟩).bind ?_
          rintro costs _ ⟨rfl, hcosts⟩
          obtain ⟨cost, rfl, hcost⟩ := Judged.exists_cost hcosts
          rw [firstCheapest_zip]
          cases hc : firstCheapest cost (candidates task.device s.involved) with
          | some c => exact ⟨⟨f, hsame, rfl⟩, ahead, cost, rfl, hcost, hc⟩
          | none =>
              refine ⟨fun _ => ⟨f, hsame, rfl⟩, .inl ⟨rfl, ?_⟩⟩
              by_contra hne
              obtain ⟨c, -, hc'⟩ := firstCheapest_mem cost hne
              cases hc.symm.trans hc'

/-- The search for a swap finds a candidate and leaves no trace, also if it fails. -/
theorem chooseSwap_same (hp : s.placement.isBijective = true)
    (hw : task.device.numQubits ≤ s.decay.size) : Meets (chooseSwap task) s
    (fun c s' => s.Same s' ∧ c ∈ candidates task.device s.involved) fun _ s' => s.Same s' :=
  (chooseSwap_meets hp).mono
    (fun _ _ ⟨hsame, _, _, _, _, hc⟩ => ⟨hsame, mem_of_firstCheapest hc⟩) fun _ _ h => h.1 hw

/-- It succeeds where there are candidates and no qubit is missed. -/
theorem chooseSwap_ok (hp : s.placement.isBijective = true)
    (hahead : lookAhead task s = .ok ahead s') (hsame : s.Same s')
    (hstrays : strayQubit? s ahead (candidates task.device s.involved) = none)
    (hne : candidates task.device s.involved ≠ [])
    (hmissed : ∀ c ∈ candidates task.device s.involved, s.placement.missed? c.1 c.2 = none)
    (hw : task.device.numQubits ≤ s.decay.size) :
    ∃ c ∈ candidates task.device s.involved, chooseSwap task s = .ok c s' := by
  have hlt : ∀ c ∈ candidates task.device s.involved,
      c.1 < s.decay.size ∧ c.2 < s.decay.size := fun c hc => candidates_lt hc hw
  obtain ⟨cost, hcost⟩ := exists_judged task ahead hlt
  obtain ⟨c, hc, hcheapest⟩ := firstCheapest_mem cost hne
  refine ⟨c, hc, ?_⟩
  rw [chooseSwap_eq hahead hsame, hstrays]
  obtain ⟨f, -, rfl⟩ := hsame
  dsimp only
  rw [bind_of_eq (trySwaps_eq (s := { s with frontier := f }) hp hmissed hcost), firstCheapest_zip,
    hcheapest]
  rfl

end Router

end QubitMapper
