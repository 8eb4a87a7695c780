import QubitMapper.Proofs.Routing.Unblocking

/-!
# Turns of a run

No quantity falls at every turn, because swaps may be chosen back and forth. But after
`releaseAfter` swaps without progress the oldest operation is brought together, and the next turn
retires it. So the counters are bounded by the number of operations retired, and a run has enough
fuel.

## Main results

* `Router.turn_spec`: what a turn keeps, and when it fails.
* `Router.route_spec`: a run retires everything within the bounds, or meets an operation whose
  qubits no way joins.
-/

namespace QubitMapper.Router

/-! ## Counters -/

/-- The counters at the end of a run over `r` operations on a device of `n` qubits, released after
`v` swaps. -/
structure Bounded (v n r : Nat) (stats : RoutingStats) : Prop where
  rounds : stats.rounds ≤ r * (v + 2)
  releases : stats.releases ≤ r
  swaps : stats.swaps ≤ r * (v + n)

/-- The counters after `m` operations, with `t.stalled` swaps since the last one. -/
structure Paced (v n m : Nat) (t : Tally) (stats : RoutingStats) : Prop where
  rounds : stats.rounds ≤ m * (v + 2) + t.stalled
  releases : stats.releases ≤ m
  swaps : stats.swaps ≤ m * (v + n) + t.stalled
  searches : t.searches ≤ m * v + t.stalled
  stalled : t.stalled ≤ v

/-- The counters after `m` operations when the next one has been brought together. -/
structure Forced (v n m : Nat) (t : Tally) (stats : RoutingStats) : Prop where
  rounds : stats.rounds ≤ m * (v + 2) + (v + 1)
  releases : stats.releases ≤ m + 1
  swaps : stats.swaps ≤ m * (v + n) + (v + (n - 2))
  searches : t.searches ≤ m * v + v

section Counters

variable {v n m r : Nat} {t : Tally} {stats stats' : RoutingStats}

theorem Paced.start : Paced v n 0 {} {} where
  rounds := by simp
  releases := Nat.le_refl _
  swaps := by simp
  searches := by simp
  stalled := Nat.zero_le _

private theorem succ_mul_le (h : m < r) (c : Nat) : m * c + c ≤ r * c :=
  Nat.succ_mul m c ▸ Nat.mul_le_mul_right c h

theorem Paced.bounded (h : Paced v n m t stats) (hm : m ≤ r) (hidle : t.stalled = 0 ∨ m < r) :
    Bounded v n r stats ∧ t.searches ≤ r * v := by
  obtain ⟨hrounds, hreleases, hswaps, hsearches, hstalled⟩ := h
  rcases hidle with hidle | hlt
  · have h₁ := Nat.mul_le_mul_right (v + 2) hm
    have h₂ := Nat.mul_le_mul_right (v + n) hm
    have h₃ := Nat.mul_le_mul_right v hm
    exact ⟨⟨by omega, by omega, by omega⟩, by omega⟩
  · have h₁ := succ_mul_le hlt (v + 2)
    have h₂ := succ_mul_le hlt (v + n)
    have h₃ := succ_mul_le hlt v
    exact ⟨⟨by omega, by omega, by omega⟩, by omega⟩

/-- One more round stays within the bounds while something is left to do. -/
theorem Paced.round (h : Paced v n m t stats) (hlt : m < r) :
    Bounded v n r { stats with rounds := stats.rounds + 1 } := by
  obtain ⟨hrounds, hreleases, hswaps, -, hstalled⟩ := h
  have h₁ := succ_mul_le hlt (v + 2)
  have h₂ := succ_mul_le hlt (v + n)
  exact ⟨by simp only; omega, by simp only; omega, by simp only; omega⟩

theorem Forced.bounded (h : Forced v n m t stats) (hlt : m < r) :
    Bounded v n r stats ∧ t.searches ≤ r * v := by
  obtain ⟨hrounds, hreleases, hswaps, hsearches⟩ := h
  have h₁ := succ_mul_le hlt (v + 2)
  have h₂ := succ_mul_le hlt (v + n)
  have h₃ := succ_mul_le hlt v
  exact ⟨⟨by omega, by omega, by omega⟩, by omega⟩

/-- A round that retires something pays for everything since the last one. -/
theorem Paced.retire (h : Paced v n m t stats) (hlt : m < r) :
    Paced v n r { t with stalled := 0 } { stats with rounds := stats.rounds + 1 } := by
  obtain ⟨hrounds, hreleases, hswaps, hsearches, hstalled⟩ := h
  have h₁ := succ_mul_le hlt (v + 2)
  have h₂ := succ_mul_le hlt (v + n)
  have h₃ := succ_mul_le hlt v
  exact ⟨by simp only; omega, by simp only; omega, by simp only; omega, by simp only; omega,
    Nat.zero_le v⟩

theorem Forced.retire (h : Forced v n m t stats) (hlt : m < r) :
    Paced v n r { t with stalled := 0 } { stats with rounds := stats.rounds + 1 } := by
  obtain ⟨hrounds, hreleases, hswaps, hsearches⟩ := h
  have h₁ := succ_mul_le hlt (v + 2)
  have h₂ := succ_mul_le hlt (v + n)
  have h₃ := succ_mul_le hlt v
  exact ⟨by simp only; omega, by simp only; omega, by simp only; omega, by simp only; omega,
    Nat.zero_le v⟩

/-- A round that retires nothing, and a swap. -/
theorem Paced.swap (h : Paced v n m t stats) (hlt : t.stalled < v)
    (hrounds : stats'.rounds = stats.rounds + 1) (hreleases : stats'.releases = stats.releases)
    (hswaps : stats'.swaps = stats.swaps + 1) :
    Paced v n m ⟨t.searches + 1, t.stalled + 1⟩ stats' := by
  obtain ⟨h₁, h₂, h₃, h₄, -⟩ := h
  exact ⟨by simp only; omega, by omega, by simp only; omega, by simp only; omega, hlt⟩

/-- A round that retires nothing, and a release. -/
theorem Paced.release (h : Paced v n m t stats) (hrounds : stats'.rounds = stats.rounds + 1)
    (hreleases : stats'.releases = stats.releases + 1)
    (hswaps : stats'.swaps ≤ stats.swaps + (n - 2)) :
    Forced v n m { t with stalled := 0 } stats' := by
  obtain ⟨h₁, h₂, h₃, h₄, h₅⟩ := h
  exact ⟨by omega, by omega, by omega, by simp only; omega⟩

end Counters

variable {task : RoutingTask} {p : Program} {k₀ : Kernel} {π₀ π : Nat → Nat} {m : Nat}
  {done : List Nat} {waiting : List ReadyOp} {s s' : Router} {t t' : Tally}

/-! ## Rounds -/

/-- As long as something waits, not everything is done. -/
theorem Ready.length_lt (h : Ready task p k₀ π₀ m done π waiting s)
    (hpad : Padded p task.device.numQubits k₀ task.labels) (hne : waiting ≠ []) :
    done.length < p.instructions.length := by
  obtain ⟨r, hr⟩ := List.exists_mem_of_ne_nil _ hne
  obtain ⟨i, ins, -, hi, -, hnew, -⟩ :=
    hpad.waiting_spec h.sound.history h.tracks (List.mem_append_left _ hr)
  have hsub : (i :: done).Subperm (List.range p.instructions.length) := by
    refine List.subperm_of_subset (List.nodup_cons.mpr ⟨hnew, h.sound.history.nodup⟩) ?_
    intro j hj
    rw [List.mem_range]
    rcases List.mem_cons.mp hj with rfl | hj
    · exact (List.getElem?_eq_some_iff.mp hi).1
    · exact h.sound.history.lt_length j hj
  have := hsub.length_le
  rw [List.length_cons, List.length_range] at this
  omega

/-- The state in which a round tries the front layer. -/
def begun (s : Router) : Router :=
  { s with front := [], stats := { s.stats with rounds := s.stats.rounds + 1 } }

/-- The front layer is tried once. -/
theorem round_spec (h : Ready task p k₀ π₀ m done π s.front s)
    (hpad : Padded p task.device.numQubits k₀ task.labels)
    (hmappable : ∀ ins ∈ p.instructions, ins.Mappable) :
    Meets (round task) s
      (fun progress s' =>
        Tried task p k₀ π₀ m done π s.front [] (begun s) (s'.front, progress) s')
      (Apart task p π₀ s.front (begun s).stats) := by
  have hready : Ready task p k₀ π₀ m done π (s.front ++ []) (begun s) := by
    rw [List.append_nil]
    exact ⟨h.sound.congr rfl rfl rfl rfl rfl rfl, h.tracks⟩
  unfold round
  refine meets_get_bind.mpr (meets_bind.mpr (meets_set.mpr (meets_bind.mpr ?_)))
  refine (retireLayer_spec hpad hmappable s.front hready).mono ?_ ?_
  · rintro ⟨next, progress⟩ s₁ ⟨hstats, hmeasuring, hinvolved, ⟨more, hready', hmore⟩, hstuck⟩
    exact ⟨hstats, hmeasuring, hinvolved,
      ⟨more, ⟨hready'.sound.congr rfl rfl rfl rfl rfl rfl, hready'.tracks⟩, hmore⟩, hstuck⟩
  · exact fun e s₁ hapart => hapart

/-- A round that retires nothing leaves the layer as it is, and everything in it is stuck. -/
theorem Tried.idle {layer : List ReadyOp}
    (h : Tried task p k₀ π₀ m done π layer [] (begun s) (s'.front, false) s') :
    s'.front = layer ∧ Ready task p k₀ π₀ m done π s'.front s' ∧
      ∀ r ∈ s'.front, Stuck task.device π₀ π s'.involved r := by
  obtain ⟨more, hready, -, hnone⟩ := h.ready
  obtain ⟨hfront, hstuck⟩ := h.stuck rfl
  rw [hnone rfl, List.append_nil, List.append_nil] at hready
  simp only at hfront hready
  rw [← hfront] at hstuck
  exact ⟨hfront, hready, hstuck⟩

/-! ## Turns -/

/-- The oldest operation is not blocked, and nothing that waits makes a round fail. -/
structure Cleared (task : RoutingTask) (π₀ π : Nat → Nat) (s : Router) : Prop where
  together : ∀ r ∈ s.front, Together task.device π₀ r
  oldest : ∃ r rest, s.front = r :: rest ∧
    ∀ u v, r.qubits = [u, v] → task.device.isAdjacent (π u) (π v) = true

/-- A round with the oldest operation brought together retires something. -/
theorem Cleared.round (hcleared : Cleared task π₀ π s)
    (h : Ready task p k₀ π₀ m done π s.front s)
    (hpad : Padded p task.device.numQubits k₀ task.labels)
    (hmappable : ∀ ins ∈ p.instructions, ins.Mappable) :
    Returns (round task) s fun progress s' => progress = true ∧
      Tried task p k₀ π₀ m done π s.front [] (begun s) (s'.front, progress) s' := by
  refine (round_spec h hpad hmappable).mono ?_ ?_
  · intro progress s' htried
    refine ⟨?_, htried⟩
    by_contra hnot
    obtain ⟨r, rest, hfront, hadjacent⟩ := hcleared.oldest
    obtain ⟨-, hall⟩ := htried.stuck (by simpa using hnot)
    obtain ⟨u, v, hqubits, -, hapart, -⟩ := hall r (by simp [hfront])
    rw [hadjacent u v hqubits] at hapart
    cases hapart
  · intro e s' hapart
    exact hapart.apart hcleared.together

/-- How a run stands between two turns. -/
inductive Between (task : RoutingTask) (p : Program) (k₀ : Kernel) (π₀ : Nat → Nat)
    (done : List Nat) (π : Nat → Nat) (t : Tally) (s : Router) : Prop where
  | paced (ready : Ready task p k₀ π₀ task.device.numQubits done π s.front s)
      (pace : Paced task.options.releaseAfter task.device.numQubits done.length t s.stats)
      (idle : t.stalled = 0 ∨ s.front ≠ [])
  | forced (ready : Ready task p k₀ π₀ task.device.numQubits done π s.front s)
      (pace : Forced task.options.releaseAfter task.device.numQubits done.length t s.stats)
      (cleared : Cleared task π₀ π s)

theorem Between.ready (h : Between task p k₀ π₀ done π t s) :
    Ready task p k₀ π₀ task.device.numQubits done π s.front s := by
  cases h <;> assumption

theorem Between.bounded (h : Between task p k₀ π₀ done π t s)
    (hpad : Padded p task.device.numQubits k₀ task.labels) :
    Bounded task.options.releaseAfter task.device.numQubits p.instructions.length s.stats ∧
      t.searches ≤ p.instructions.length * task.options.releaseAfter := by
  cases h with
  | paced ready pace idle =>
      exact pace.bounded ready.sound.history.length_le
        (idle.imp_right (ready.length_lt hpad))
  | forced ready pace cleared =>
      obtain ⟨r, rest, hfront, -⟩ := cleared.oldest
      exact pace.bounded (ready.length_lt hpad (by simp [hfront]))

/-- The number of turns that a run has taken. -/
def age (s : Router) : Nat := s.stats.rounds + if s.frontier.measuring then 1 else 0

/-- The bound on rounds leaves no state that is older. -/
theorem Between.age_le (h : Between task p k₀ π₀ done π t s)
    (hpad : Padded p task.device.numQubits k₀ task.labels) :
    age s ≤ p.instructions.length * (task.options.releaseAfter + 2) + 1 := by
  have hrounds := (h.bounded hpad).1.rounds
  unfold age
  split <;> omega

/-- A qubit that has a weight can have it raised. -/
theorem raiseWeight_eq (step : Float) {q : Nat} (hq : q < s.decay.size) :
    ∃ decay, decay.size = s.decay.size ∧
      raiseWeight step q s = .ok () { s with decay := decay } := by
  have hweight : weightOf q s = .ok s.decay[q] s := weightOf_eq (Array.getElem?_eq_getElem hq)
  exact ⟨s.decay.setIfInBounds q (s.decay[q] + step), Array.size_setIfInBounds,
    bind_of_eq hweight⟩

/-- Weights are raised where there are weights, and there are as many then. -/
theorem updateDecay_eq (options : Options) (hperiod : options.decayPeriod ≠ 0)
    (searches : Nat) {a b : Nat} (ha : a < s.decay.size) (hb : b < s.decay.size) :
    ∃ decay, decay.size = s.decay.size ∧
      updateDecay options searches a b s = .ok () { s with decay := decay } := by
  unfold updateDecay
  rw [if_neg hperiod]
  split
  · exact ⟨_, Array.size_replicate, rfl⟩
  · obtain ⟨decay, hsize, hraised⟩ := raiseWeight_eq options.decayStep ha
    obtain ⟨decay', hsize', hraised'⟩ :=
      raiseWeight_eq (s := { s with decay := decay }) options.decayStep (hsize ▸ hb)
    exact ⟨decay', hsize'.trans hsize, (bind_of_eq hraised).trans hraised'⟩

theorem raiseWeight_ensures (step : Float) (q : Nat) (s : Router) :
    Ensures (raiseWeight step q) s fun _ s' =>
      ∃ decay, decay.size = s.decay.size ∧ s' = { s with decay := decay } := by
  refine (weightOf_meets q).ensures.bind ?_
  rintro weight _ ⟨rfl, -⟩
  exact ⟨_, Array.size_setIfInBounds, rfl⟩

/-- Other weights are put for as many, and nothing else changes. -/
theorem updateDecay_ensures (options : Options) (searches a b : Nat) :
    Ensures (updateDecay options searches a b) s fun _ s' =>
      ∃ decay, decay.size = s.decay.size ∧ s' = { s with decay := decay } := by
  unfold updateDecay
  split
  · trivial
  · split
    · exact ⟨_, Array.size_replicate, rfl⟩
    · refine (raiseWeight_ensures options.decayStep a s).bind ?_
      rintro _ _ ⟨decay, hsize, rfl⟩
      exact (raiseWeight_ensures options.decayStep b _).mono fun _ _ ⟨decay', hsize', h⟩ =>
        ⟨decay', hsize'.trans hsize, h⟩

/-- A stuck layer is unblocked by a swap or a release. -/
theorem unblock_spec {stats : RoutingStats}
    (h : Ready task p k₀ π₀ task.device.numQubits done π s.front s)
    (hpad : Padded p task.device.numQubits k₀ task.labels)
    (hperiod : task.options.decayPeriod ≠ 0)
    (hpace : Paced task.options.releaseAfter task.device.numQubits done.length t stats)
    (hstats : s.stats = { stats with rounds := stats.rounds + 1 }) (hne : s.front ≠ [])
    (hstuck : ∀ r ∈ s.front, Stuck task.device π₀ π s.involved r) :
    Returns (unblock task t) s fun t' s' => (∃ π', Between task p k₀ π₀ done π' t' s' ∧
      (s'.stats.releases = stats.releases ∨ Cleared task π₀ π' s')) ∧
      s'.stats.rounds = s.stats.rounds ∧ s'.frontier.measuring = s.frontier.measuring := by
  obtain ⟨r, rest, hfront⟩ := List.exists_cons_of_ne_nil hne
  have hr : r ∈ s.front := by simp [hfront]
  have hrounds : s.stats.rounds = stats.rounds + 1 := by rw [hstats]
  have hreleases : s.stats.releases = stats.releases := by rw [hstats]
  have hswaps : s.stats.swaps = stats.swaps := by rw [hstats]
  unfold unblock
  split
  · refine (release_spec h hpad hfront (hstuck r hr)).bind ?_
    rintro _ s' ⟨hfront', hfrontier, hrounds', hreleases', hswaps', π', hready, hadjacent⟩
    have hcleared : Cleared task π₀ π' s' := by
      refine ⟨fun r' hr' u v hqubits => ?_, r, rest, hfront'.trans hfront, hadjacent⟩
      rw [hfront'] at hr'
      obtain ⟨u', v', hqubits', -, -, hjoined, -⟩ := hstuck r' hr'
      rw [hqubits'] at hqubits
      cases hqubits
      exact hjoined
    refine ⟨⟨π', .forced (hfront' ▸ hready) (hpace.release ?_ ?_ ?_) hcleared, .inr hcleared⟩,
      hrounds', congrArg (·.measuring) hfrontier⟩
    · rw [hrounds', hrounds]
    · rw [hreleases', hreleases]
    · rw [← hswaps]
      exact hswaps'
  · rename_i hstalled
    refine (chooseSwap_spec h hpad (hstuck r hr) hr).bind ?_
    rintro ⟨a, b⟩ _ ⟨⟨f, hsame, rfl⟩, hadjacent⟩
    refine (h.swaps hsame hadjacent).bind ?_
    rintro _ s₁ ⟨hframe, hswaps₁, hready⟩
    refine returns_bind.mpr (returns_modify.mpr ?_)
    have hready₁ := hready [] s₁.decay rfl
    have hlt := task.device.isAdjacent_lt hadjacent
    rw [← hready₁.sound.weights] at hlt
    obtain ⟨decay, hsize, hdecay⟩ := updateDecay_eq (s := { s₁ with involved := [] }) task.options
      hperiod (t.searches + 1) hlt.1 hlt.2
    rw [returns_bind_of_eq hdecay, returns_pure]
    have hreleases₁ : s₁.stats.releases = stats.releases := hframe.releases.trans hreleases
    refine ⟨⟨_, .paced (hready [] decay hsize)
        (hpace.swap (Nat.not_le.mp hstalled) ?_ hreleases₁ ?_) (.inr ?_), .inl hreleases₁⟩,
      hframe.rounds, (congrArg (·.measuring) hframe.frontier).trans hsame.measuring⟩
    · exact hframe.rounds.trans hrounds
    · exact hswaps₁.trans (congrArg (· + 1) hswaps)
    · show s₁.front ≠ []
      rw [hframe.front]
      exact hne

/-- What a turn leaves: the run ends, or it goes on one turn older, and a release clears the way.
The measurement phase begins with an empty layer only. -/
def Turned (task : RoutingTask) (p : Program) (k₀ : Kernel) (π₀ : Nat → Nat) (s : Router) :
    Option Tally → Router → Prop
  | none, s' => s' = s ∧ s.front = [] ∧ s.frontier.measuring = true
  | some t', s' =>
      (age s' = age s + 1 ∧ (s.front ≠ [] → s'.frontier.measuring = s.frontier.measuring)) ∧
      ∃ done' π', Between task p k₀ π₀ done' π' t' s' ∧
        (s'.stats.releases = s.stats.releases ∨ Cleared task π₀ π' s')

/-- How a run fails: within its bounds, and only if it had to. -/
structure Refused (task : RoutingTask) (p : Program) (π₀ : Nat → Nat) (e : MappingError)
    (s : Router) : Prop where
  error : ∃ a b, e = .unroutable a b
  unroutable : ¬ Routable task.device p π₀
  bounded :
    Bounded task.options.releaseAfter task.device.numQubits p.instructions.length s.stats

/-- An empty layer begins the measurement phase or ends the run. -/
private theorem turn_empty (h : Between task p k₀ π₀ done π t s) (hempty : s.front = []) :
    Returns (turn task t) s (Turned task p k₀ π₀ s) := by
  have hisEmpty : s.front.isEmpty = true := by simp [hempty]
  unfold turn
  rw [returns_get_bind, if_pos hisEmpty]
  cases hmeasuring : s.frontier.measuring with
  | true =>
      rw [if_pos rfl, returns_pure]
      exact ⟨rfl, hempty, hmeasuring⟩
  | false =>
      simp only [Bool.false_eq_true, ↓reduceIte]
      refine meets_bind.mpr (meets_set.mpr (meets_pure.mpr
        ⟨⟨?_, fun hne => absurd hempty hne⟩, done, π, ?_, .inl rfl⟩))
      · simp [age, hmeasuring, Frontier.enterMeasurement]
      · cases h with
        | paced ready pace idle =>
            refine .paced ⟨ready.sound.congr rfl rfl rfl rfl rfl rfl, ?_⟩ pace
              (.inl (idle.resolve_right (by simp [hempty])))
            have htracks := ready.tracks
            rw [hempty] at htracks
            exact htracks.enterMeasurement
        | forced ready pace cleared =>
            obtain ⟨r, rest, hfront, -⟩ := cleared.oldest
            rw [hempty] at hfront
            cases hfront

private theorem Tried.age {layer : List ReadyOp} {out : List ReadyOp × Bool}
    (h : Tried task p k₀ π₀ m done π layer [] (begun s) out s') : age s' = age s + 1 := by
  simp only [Router.age, h.stats, h.measuring, begun]
  omega

/-- A round that retires something makes a turn. -/
private theorem Tried.turned {layer : List ReadyOp}
    (h : Tried task p k₀ π₀ task.device.numQubits done π layer [] (begun s) (s'.front, true) s')
    (hpace : ∀ {r}, done.length < r → Paced task.options.releaseAfter task.device.numQubits r
      { t with stalled := 0 } { s.stats with rounds := s.stats.rounds + 1 }) :
    Turned task p k₀ π₀ s (some { t with stalled := 0 }) s' := by
  obtain ⟨more, hready, hne, -⟩ := h.ready
  rw [List.append_nil] at hready
  have hlt : done.length < (done ++ more).length := by
    have := List.length_pos_iff.mpr (hne rfl)
    rw [List.length_append]
    omega
  have hpaced : Paced task.options.releaseAfter task.device.numQubits (done ++ more).length
      { t with stalled := 0 } s'.stats := by
    rw [h.stats]
    exact hpace hlt
  exact ⟨⟨h.age, fun _ => h.measuring⟩, done ++ more, π, .paced hready hpaced (.inl rfl),
    .inl (by rw [h.stats]; rfl)⟩

/-- A turn ends the run, keeps it within its bounds, or fails in its round. -/
theorem turn_spec (h : Between task p k₀ π₀ done π t s)
    (hpad : Padded p task.device.numQubits k₀ task.labels)
    (hmappable : ∀ ins ∈ p.instructions, ins.Mappable)
    (hperiod : task.options.decayPeriod ≠ 0) :
    Meets (turn task t) s (Turned task p k₀ π₀ s)
      (fun e s' => Refused task p π₀ e s' ∧ round task s = .error e s') := by
  by_cases hempty : s.front = []
  · exact (turn_empty h hempty).meets
  · have hisEmpty : ¬ s.front.isEmpty = true := by simpa using hempty
    have hlt := h.ready.length_lt hpad hempty
    unfold turn
    rw [meets_get_bind, if_neg hisEmpty]
    cases h with
    | paced ready pace idle =>
        refine meets_bind.mpr ((round_spec ready hpad hmappable).error_eq.mono ?_ ?_)
        · intro progress s₁ htried
          cases progress with
          | true =>
              simp only [↓reduceIte, meets_pure]
              exact htried.turned pace.retire
          | false =>
              obtain ⟨hfront, hready, hstuck⟩ := htried.idle
              rw [← hfront] at hempty
              simp only [Bool.false_eq_true, ↓reduceIte]
              refine Returns.meets ((unblock_spec hready hpad hperiod pace htried.stats hempty
                hstuck).bind ?_)
              rintro t' s₂ ⟨⟨π', hbetween, hreleases⟩, hrounds, hfrontier⟩
              refine returns_pure.mpr
                ⟨⟨?_, fun _ => hfrontier.trans htried.measuring⟩, done, π', hbetween, hreleases⟩
              rw [← htried.age, age, age, hrounds, hfrontier]
        · rintro e s₁ ⟨hapart, herror⟩
          exact ⟨⟨hapart.error, hapart.unroutable, hapart.stats ▸ pace.round hlt⟩, herror⟩
    | forced ready pace cleared =>
        refine Returns.meets ((cleared.round ready hpad hmappable).bind ?_)
        rintro progress s₁ ⟨rfl, htried⟩
        simp only [↓reduceIte, returns_pure]
        exact htried.turned pace.retire

/-! ## The run -/

/-- How a run ends: everything is done, within the bounds. -/
def Ended (task : RoutingTask) (p : Program) (k₀ : Kernel) (π₀ : Nat → Nat) (s : Router) : Prop :=
  ∃ done π, Sound task p k₀ π₀ task.device.numQubits done π s ∧
    (∀ i < p.instructions.length, i ∈ done) ∧
    Bounded task.options.releaseAfter task.device.numQubits p.instructions.length s.stats

/-- Turns with enough fuel end the run, or one of them fails. -/
theorem turns_spec (hpad : Padded p task.device.numQubits k₀ task.labels)
    (hmappable : ∀ ins ∈ p.instructions, ins.Mappable)
    (hperiod : task.options.decayPeriod ≠ 0) (fuel : Nat) :
    ∀ {done : List Nat} {π : Nat → Nat} {t : Tally} {s : Router},
      Between task p k₀ π₀ done π t s →
      p.instructions.length * (task.options.releaseAfter + 2) + 2 ≤ fuel + age s →
      Meets (turns task fuel t) s (fun _ s' => Ended task p k₀ π₀ s')
        (Refused task p π₀) := by
  induction fuel with
  | zero =>
      intro done π t s h hfuel
      have := h.age_le hpad
      omega
  | succ fuel ih =>
      intro done π t s h hfuel
      unfold turns
      refine meets_bind.mpr ((turn_spec h hpad hmappable hperiod).mono ?_ ?_)
      · rintro (_ | t') s' hnext
        · obtain ⟨rfl, hfront, hmeasuring⟩ := hnext
          have htracks := h.ready.tracks
          have hdeferred := htracks.unheld hmeasuring
          refine ⟨done, π, h.ready.sound, hpad.all_done (fun ins hins => ?_) htracks ?_,
            (h.bounded hpad).1⟩
          · exact (hmappable ins hins).nonempty
          · rw [hfront, hdeferred]
            rfl
        · obtain ⟨⟨hage, -⟩, done', π', hbetween, -⟩ := hnext
          exact ih hbetween (by omega)
      · exact fun e s' hfail => hfail.1

/-- The allocations of the circuit are placed, nothing has been counted, and the measurement phase
has not begun. -/
theorem placed_ready (hpad : Padded p task.device.numQubits k₀ task.labels) {placement : Placement}
    (hplaced : placement.Realizes task.device.numQubits π₀) :
    Returns (((List.range task.device.numQubits).map p.sourceOp).forM (placeSource task))
      (start k₀ placement task.device) fun _ s =>
        Ready task p k₀ π₀ task.device.numQubits [] π₀ s.front s ∧ s.stats = {} ∧
          s.frontier.measuring = false := by
  have hstart : Ready task p k₀ π₀ 0 [] π₀ [] (start k₀ placement task.device) := by
    refine ⟨⟨.start hpad.consistent _, ?_, hplaced, Array.size_replicate, .start⟩, ?_⟩
    · intro x _
      simp [start, Program.visited]
    · exact .initial
  have hempty : EmptyFrom task.device.numQubits 0 π₀ (start k₀ placement task.device).onQubit := by
    intro v _ hv
    simp [start, hplaced.lt v hv]
  exact placeSources_spec hstart hpad hempty

/-- The state once the allocations of the circuit are placed. -/
theorem placed_spec (hpad : Padded p task.device.numQubits k₀ task.labels) {placement : Placement}
    (hplaced : placement.Realizes task.device.numQubits π₀) :
    Returns (((List.range task.device.numQubits).map p.sourceOp).forM (placeSource task))
      (start k₀ placement task.device) fun _ s => Between task p k₀ π₀ [] π₀ {} s :=
  (placed_ready hpad hplaced).mono fun _ _ ⟨hready, hstats, _⟩ =>
    .paced hready (hstats ▸ .start) (.inl rfl)

/-- A run retires everything within the bounds, or it meets an operation whose qubits no way
joins. -/
theorem route_spec (hpad : Padded p task.device.numQubits k₀ task.labels)
    (hmappable : ∀ ins ∈ p.instructions, ins.Mappable)
    (hperiod : task.options.decayPeriod ≠ 0) {placement : Placement}
    (hplaced : placement.Realizes task.device.numQubits π₀) :
    Meets (route task ((List.range task.device.numQubits).map p.sourceOp))
      (start k₀ placement task.device)
      (fun _ s => s.stats.unmapped = unmappedCount s.kernel ∧ Ended task p k₀ π₀ s)
      (Refused task p π₀) := by
  unfold route
  apply Meets.bind (placed_spec hpad hplaced).meets
  intro _ s hbetween
  have hfuel : p.instructions.length * (task.options.releaseAfter + 2) + 2 ≤
      fuel task s.kernel + age s := by
    have hsize := hbetween.ready.sound.wired.size
    rw [hpad.ops] at hsize
    have := Nat.mul_le_mul_right (task.options.releaseAfter + 2)
      (show p.instructions.length ≤ s.kernel.ops.size + 1 by omega)
    unfold fuel
    omega
  rw [meets_get_bind]
  refine (turns_spec hpad hmappable hperiod _ hbetween hfuel).bind ?_
  rintro _ s' ⟨done, π, hsound, hall, hbounded⟩
  exact ⟨rfl, done, π, hsound.congr rfl rfl rfl rfl rfl rfl, hall, hbounded.rounds,
    hbounded.releases, hbounded.swaps⟩

end QubitMapper.Router
