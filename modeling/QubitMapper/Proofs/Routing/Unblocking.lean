import QubitMapper.Proofs.Routing.Layers
import QubitMapper.Proofs.Routing.Trials

/-!
# Unblocking a layer

When everything in a layer is stuck, a swap is inserted, or the oldest operation is brought together
along a shortest path. Whatever the costs are, there is a swap to choose, and the walk ends with the
two qubits of the operation next to each other.

## Main results

* `Router.chooseSwap_spec`: some swap of neighbors is chosen.
* `Router.release_spec`: the oldest operation is brought together.
-/

namespace QubitMapper

namespace Router

variable {task : RoutingTask} {p : Program} {k₀ : Kernel} {π₀ π : Nat → Nat} {m : Nat}
  {done : List Nat} {waiting : List ReadyOp} {s : Router}

/-! ## Choosing a swap -/

/-- A qubit from which a way leads to another one has a neighbor. -/
theorem exists_isAdjacent {d : Device} {a b : Nat} (h : d.Joined a b) (hne : a ≠ b) :
    ∃ c, d.isAdjacent a c = true := by
  obtain ⟨k, hw⟩ := h
  induction hw with
  | stay => exact absurd rfl hne
  | @go b c k hw hadjacent ih =>
      by_cases hab : a = b
      · subst hab
        exact ⟨c, hadjacent⟩
      · exact ih hab

/-- Judging the candidates misses no qubit. -/
private theorem strayQubit?_eq_none {n : Nat} (h : s.placement.Realizes n π)
    {ahead : List ReadyOp} {cs : List (Nat × Nat)}
    (hops : ∀ r ∈ s.front ++ ahead, ∀ v ∈ r.qubits, v < n) : strayQubit? s ahead cs = none := by
  unfold strayQubit?
  split
  · rfl
  · simp only [List.find?_eq_none, decide_eq_true_eq, Nat.not_le, h.virtualCount]
    intro v hv
    obtain ⟨r, hr, hv⟩ := List.mem_flatMap.mp hv
    split at hv
    · exact hops r hr v hv
    · cases hv

/-- The qubits of what waits are virtual qubits. -/
theorem Ready.qubits_lt (h : Ready task p k₀ π₀ m done π waiting s)
    (hpad : Padded p task.device.numQubits k₀ task.labels) :
    ∀ r ∈ waiting, ∀ v ∈ r.qubits, v < task.device.numQubits := by
  intro r hr v hv
  obtain ⟨i, ins, -, hi, hqubits, -⟩ :=
    hpad.waiting_spec h.sound.history h.tracks (List.mem_append_left _ hr)
  rw [hqubits] at hv
  exact hpad.qubits_lt hi v hv

/-- Next to something stuck there is a swap to choose, and choosing leaves no trace. -/
theorem chooseSwap_spec (h : Ready task p k₀ π₀ m done π s.front s)
    (hpad : Padded p task.device.numQubits k₀ task.labels) {r : ReadyOp}
    (hr : Stuck task.device π₀ π s.involved r) (hmem : r ∈ s.front) :
    Returns (chooseSwap task) s fun c s' =>
      s.Same s' ∧ task.device.isAdjacent c.1 c.2 = true := by
  obtain ⟨ops, s', hahead⟩ := lookAhead_ok task h.sound.wired.consistent
  obtain ⟨hsame, hlabelled⟩ := (lookAhead_meets task s).of_ok hahead
  have hmissed : ∀ c ∈ candidates task.device s.involved,
      s.placement.missed? c.1 c.2 = none := by
    intro c hc
    obtain ⟨ha, hb⟩ := candidates_lt hc le_rfl
    exact h.sound.placed.missed?_eq_none ha hb
  have hops : ∀ r ∈ s.front ++ ops, ∀ v ∈ r.qubits, v < task.device.numQubits := by
    intro r hr v hv
    rcases List.mem_append.mp hr with hr | hr
    · exact h.qubits_lt hpad r hr v hv
    · obtain ⟨w, hw⟩ := hlabelled r hr v hv
      exact hpad.label_lt hw
  have hne : candidates task.device s.involved ≠ [] := by
    obtain ⟨u, v, hqubits, huv, -, hjoined, hinvolved⟩ := hr
    have hlt := h.qubits_lt hpad r hmem
    have hplaces : π u ≠ π v := fun heq =>
      huv (h.sound.placed.inj (hlt u (by simp [hqubits])) (hlt v (by simp [hqubits])) heq)
    obtain ⟨c, hc⟩ := exists_isAdjacent ((joined_iff h.sound.history u v).mpr hjoined) hplaces
    exact List.ne_nil_of_mem ((mem_candidates (c := (π u, c))).mpr ⟨hinvolved, hc⟩)
  obtain ⟨c, hc, hchosen⟩ := chooseSwap_ok h.sound.placed.isBijective hahead hsame
    (strayQubit?_eq_none h.sound.placed hops) hne hmissed h.sound.weights.ge
  exact (returns_of_eq hchosen).mpr ⟨hsame, (mem_candidates.mp hc).2⟩

/-- After a search, two neighbors are exchanged. What waits waits on, whatever is noted and weighed
then. -/
theorem Ready.swaps (h : Ready task p k₀ π₀ m done π s.front s) {f : Frontier}
    (hsame : s.frontier.Same f) {a b : Nat} (hadjacent : task.device.isAdjacent a b = true) :
    Returns (insertSwap a b) { s with frontier := f } fun _ s' =>
      Frame { s with frontier := f } s' ∧ s'.stats.swaps = s.stats.swaps + 1 ∧
      ∀ involved decay, decay.size = s'.decay.size →
        Ready task p k₀ π₀ m done (fun v => Equiv.swap a b (π v)) s'.front
          { s' with involved := involved, decay := decay } := by
  have hsearched : Sound task p k₀ π₀ m done π { s with frontier := f } :=
    h.sound.congr rfl rfl rfl rfl rfl rfl
  refine (hsearched.insertSwap hadjacent).mono ?_
  rintro _ s' ⟨hframe, hsound, hswaps⟩
  refine ⟨hframe, hswaps, fun _ _ hsize => ⟨hsound.congr rfl rfl rfl rfl hsize rfl, ?_⟩⟩
  rw [hframe.front]
  exact hframe.frontier ▸ h.tracks.same hsame

/-! ## Walking along a path -/

/-- The swaps along a path that begins at one virtual qubit and ends at another bring the two next
to each other. -/
theorem walk_spec {v w : Nat} (path : List Nat) :
    ∀ {π : Nat → Nat} {s : Router}, Ready task p k₀ π₀ m done π waiting s →
    path.head? = some (π v) → path.getLast? = some (π w) → π v ≠ π w →
    path.IsChain (fun a b => task.device.isAdjacent a b = true) → path.Nodup →
    Returns ((walkSwaps path).forM fun (a, b) => insertSwap a b) s fun _ s' =>
      Frame s s' ∧ s'.stats.swaps = s.stats.swaps + (path.length - 2) ∧
      ∃ π', Ready task p k₀ π₀ m done π' waiting s' ∧
        task.device.isAdjacent (π' v) (π' w) = true := by
  induction path with
  | nil => simp
  | cons a rest ih =>
      intro π s h hhead hlast hne hchain hnodup
      obtain rfl : a = π v := by simpa using hhead
      cases rest with
      | nil => exact absurd (by simpa using hlast) hne
      | cons b rest =>
          cases rest with
          | nil =>
              obtain rfl : b = π w := by simpa using hlast
              exact ⟨.refl s, rfl, π, h, by simpa using hchain⟩
          | cons c rest =>
              rw [List.isChain_cons_cons] at hchain
              rw [List.nodup_cons] at hnodup
              rw [List.getLast?_cons_cons] at hlast
              have hb : π w ≠ b := by
                rintro rfl
                rw [List.getLast?_cons_cons] at hlast
                exact (List.nodup_cons.mp hnodup.2).1 (List.mem_of_getLast? hlast)
              -- the swap moves the first qubit along the path and leaves the other where it is
              have hv : Equiv.swap (π v) b (π v) = b := Equiv.swap_apply_left _ _
              have hw : Equiv.swap (π v) b (π w) = π w :=
                Equiv.swap_apply_of_ne_of_ne (Ne.symm hne) hb
              unfold walkSwaps
              refine (h.sound.insertSwap hchain.1).bind
                fun _ s₁ ⟨hframe, hsound, hswaps⟩ => ?_
              have hready : Ready task p k₀ π₀ m done (fun x => Equiv.swap (π v) b (π x)) waiting
                  s₁ := ⟨hsound, hframe.frontier ▸ h.tracks⟩
              refine (ih hready (by simp [hv]) (by rw [hlast, hw]) ?_ hchain.2 hnodup.2).mono ?_
              · rw [hv, hw]
                exact Ne.symm hb
              · rintro _ s₂ ⟨hframe', hswaps', π', hready', hadjacent⟩
                refine ⟨hframe.trans hframe', ?_, π', hready', hadjacent⟩
                rw [hswaps', hswaps]
                simp only [List.length_cons]
                omega

/-- The oldest operation, if it is stuck, is brought together by at most `n - 2` swaps on a device
of `n` qubits. -/
theorem release_spec (h : Ready task p k₀ π₀ m done π s.front s)
    (hpad : Padded p task.device.numQubits k₀ task.labels) {r : ReadyOp} {rest : List ReadyOp}
    (hfront : s.front = r :: rest) (hr : Stuck task.device π₀ π s.involved r) :
    Returns (release task) s fun _ s' =>
      s'.front = s.front ∧ s'.frontier = s.frontier ∧ s'.stats.rounds = s.stats.rounds ∧
      s'.stats.releases = s.stats.releases + 1 ∧
      s'.stats.swaps ≤ s.stats.swaps + (task.device.numQubits - 2) ∧
      ∃ π', Ready task p k₀ π₀ m done π' s.front s' ∧
        ∀ u v, r.qubits = [u, v] → task.device.isAdjacent (π' u) (π' v) = true := by
  obtain ⟨u, v, hqubits, huv, -, hjoined, -⟩ := hr
  have hlt := h.qubits_lt hpad r (by simp [hfront])
  have hu : u < task.device.numQubits := hlt u (by simp [hqubits])
  have hv : v < task.device.numQubits := hlt v (by simp [hqubits])
  have hne : π u ≠ π v := fun heq => huv (h.sound.placed.inj hu hv heq)
  have hway := (joined_iff h.sound.history u v).mpr hjoined
  obtain ⟨path, hpath⟩ : ∃ path, task.device.shortestPath? (π u) (π v) = some path := by
    rw [← Option.isSome_iff_exists, task.device.shortestPath?_isSome,
      task.device.distance?_isSome_iff (h.sound.placed.lt u hu)]
    exact hway
  obtain ⟨hhead, hlast, hchain, hnodup, hlength⟩ := task.device.shortestPath?_spec hpath
  have hoperation : s.front.head?.map (·.qubits) = some [u, v] := by
    rw [hfront, List.head?_cons, Option.map_some, hqubits]
  unfold release
  rw [returns_get_bind, hoperation]
  simp only
  rw [returns_bind_of_eq (placeOf_eq h.sound.placed hu),
    returns_bind_of_eq (placeOf_eq h.sound.placed hv), hpath]
  refine (walk_spec path h hhead hlast hne hchain hnodup).bind
    fun _ s' ⟨hframe, hswaps, π', hready, hadjacent⟩ => ?_
  rw [returns_modify]
  refine ⟨hframe.front, hframe.frontier, hframe.rounds, congrArg (· + 1) hframe.releases, ?_,
    π', ⟨hready.sound.congr rfl rfl rfl rfl Array.size_replicate rfl, hready.tracks⟩, ?_⟩
  · show s'.stats.swaps ≤ _
    rw [hswaps]
    omega
  · intro u' v' huv'
    rw [hqubits] at huv'
    cases huv'
    exact hadjacent

end Router

end QubitMapper
