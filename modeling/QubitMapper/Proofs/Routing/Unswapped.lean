import QubitMapper.Proofs.Routing.Turns

/-!
# Runs without swaps

A program *fits* the device if everything that needs adjacent qubits has them where the virtual
qubits stand. Then nothing is ever blocked: every round retires what it tries, and the run ends
without a swap. A run without a swap in turn leaves every virtual qubit where it started, and has
retired everything there.

## Main results

* `History.of_unswapped`: what a run without swaps shows of its program.
* `Router.route_unswapped`: a program that fits is routed without swaps.
-/

namespace QubitMapper

/-- What needs adjacent qubits has them with the virtual qubits at `π`. -/
def Program.Fits (p : Program) (d : Device) (π : Nat → Nat) : Prop :=
  ∀ ins ∈ p.instructions, ins.isConstrained = true → ∀ u v, ins.qubits = [u, v] →
    d.isAdjacent (π u) (π v) = true

/-- Without a swap the virtual qubits stay where they started, and what was retired had adjacent
qubits there. -/
theorem History.of_unswapped {d : Device} {p : Program} {π₀ π : Nat → Nat} {done : List Nat}
    {trace : List Instruction} {swaps : Nat} (h : History d p π₀ done π trace swaps)
    (hswaps : swaps = 0) : π = π₀ ∧ ∀ i ∈ done, ∀ ins, p.instructions[i]? = some ins →
      ins.isConstrained = true → ∀ u v, ins.qubits = [u, v] →
        d.isAdjacent (π₀ u) (π₀ v) = true := by
  induction h with
  | start => exact ⟨rfl, by simp⟩
  | retire h hi _ _ hadjacent ih =>
      obtain ⟨rfl, hdone⟩ := ih hswaps
      refine ⟨rfl, fun j hj other hother hconstrained u v huv => ?_⟩
      rcases List.mem_append.mp hj with hj | hj
      · exact hdone j hj other hother hconstrained u v huv
      · rw [List.mem_singleton] at hj
        subst hj
        cases hi.symm.trans hother
        exact hadjacent hconstrained _ _ (by rw [huv]; rfl)
  | swap => cases hswaps

namespace Router

variable {task : RoutingTask} {p : Program} {k₀ : Kernel} {π₀ π : Nat → Nat} {m : Nat}
  {done : List Nat} {s : Router} {t : Tally}

/-- In a program that fits, no instruction is blocked. -/
theorem not_blocked_of_fits {d : Device} (hfits : p.Fits d π) {ins : Instruction}
    (hins : ins ∈ p.instructions) : ¬ Blocked d π ins := by
  rintro ⟨hconstrained, u, v, huv, hapart⟩
  rw [hfits ins hins hconstrained u v huv] at hapart
  cases hapart

/-- The first operation of a layer is retired if the program fits. -/
theorem retireLayer_progress (hpad : Padded p task.device.numQubits k₀ task.labels)
    (hmappable : ∀ ins ∈ p.instructions, ins.Mappable) (hfits : p.Fits task.device π)
    {r : ReadyOp} {rest : List ReadyOp} (h : Ready task p k₀ π₀ m done π (r :: rest) s) :
    Meets (retireLayer task (r :: rest)) s (fun out _ => out.2 = true) fun _ _ => True := by
  obtain ⟨i, ins, hop, hi, hqubits, hnew, hawaits⟩ :=
    hpad.waiting_spec h.sound.history h.tracks (r := r) (by simp)
  have hins := List.mem_of_getElem? hi
  unfold retireLayer
  refine (Returns.meets (h.sound.retire hpad hop hi hqubits hnew hawaits
    (hmappable ins hins).nonempty (not_blocked_of_fits hfits hins))).bind ?_
  rintro _ s₁ ⟨rfl, -⟩
  simp only [↓reduceIte]
  exact meets_true.bind fun released s₂ _ => meets_true.bind fun out s₃ _ => meets_pure.mpr rfl

/-- A round of a program that fits retires something. -/
theorem round_progress (hpad : Padded p task.device.numQubits k₀ task.labels)
    (hmappable : ∀ ins ∈ p.instructions, ins.Mappable) (hfits : p.Fits task.device π)
    (h : Ready task p k₀ π₀ m done π s.front s) (hne : s.front ≠ []) :
    Meets (round task) s (fun progress _ => progress = true) fun _ _ => True := by
  obtain ⟨r, rest, hfront⟩ := List.exists_cons_of_ne_nil hne
  have hready : Ready task p k₀ π₀ m done π (r :: rest) (begun s) :=
    ⟨h.sound.congr rfl rfl rfl rfl rfl rfl, hfront ▸ h.tracks⟩
  unfold round
  refine meets_get_bind.mpr (meets_bind.mpr (meets_set.mpr ?_))
  rw [hfront]
  exact (retireLayer_progress hpad hmappable hfits hready).bind fun out s₁ hout =>
    meets_true.bind fun _ s₂ _ => meets_pure.mpr hout

/-- A turn of a program that fits moves no qubit. -/
theorem turn_unswapped (hpad : Padded p task.device.numQubits k₀ task.labels)
    (hmappable : ∀ ins ∈ p.instructions, ins.Mappable) (hfits : p.Fits task.device π)
    (h : Ready task p k₀ π₀ m done π s.front s) :
    Meets (turn task t) s
      (fun _ s' => s'.stats.swaps = s.stats.swaps ∧
        ∃ done', Ready task p k₀ π₀ m done' π s'.front s')
      fun _ _ => True := by
  unfold turn
  rw [meets_get_bind]
  by_cases hempty : s.front = []
  · have hisEmpty : s.front.isEmpty = true := by simp [hempty]
    rw [if_pos hisEmpty]
    split
    · exact meets_pure.mpr ⟨rfl, done, h⟩
    · refine meets_bind.mpr (meets_set.mpr (meets_pure.mpr ⟨rfl, done,
        h.sound.congr rfl rfl rfl rfl rfl rfl, ?_⟩))
      have htracks := h.tracks
      rw [hempty] at htracks
      exact htracks.enterMeasurement
  · have hisEmpty : ¬ s.front.isEmpty = true := by simpa using hempty
    rw [if_neg hisEmpty]
    refine meets_bind.mpr (((round_spec h hpad hmappable).and
      (round_progress hpad hmappable hfits h hempty)).mono ?_ fun _ _ _ => trivial)
    rintro _ s₁ ⟨htried, rfl⟩
    obtain ⟨more, hready, -⟩ := htried.ready
    rw [List.append_nil] at hready
    simp only [↓reduceIte, meets_pure]
    exact ⟨by rw [htried.stats]; rfl, _, hready⟩

theorem turns_unswapped (hpad : Padded p task.device.numQubits k₀ task.labels)
    (hmappable : ∀ ins ∈ p.instructions, ins.Mappable) (hfits : p.Fits task.device π)
    (fuel : Nat) : ∀ {t : Tally} {done : List Nat} {s : Router},
      Ready task p k₀ π₀ m done π s.front s →
      Meets (turns task fuel t) s (fun _ s' => s'.stats.swaps = s.stats.swaps)
        fun _ _ => True := by
  induction fuel with
  | zero => exact fun _ => trivial
  | succ fuel ih =>
      intro t done s h
      unfold turns
      refine (turn_unswapped hpad hmappable hfits h).bind ?_
      rintro (_ | t') s₁ ⟨hswaps, done', hready⟩
      · exact hswaps
      · exact (ih hready).mono (fun _ _ hswaps' => hswaps'.trans hswaps) fun _ _ => id

/-- A program that fits the device from the start is routed without swaps. -/
theorem route_unswapped (hpad : Padded p task.device.numQubits k₀ task.labels)
    (hmappable : ∀ ins ∈ p.instructions, ins.Mappable) {placement : Placement}
    (hplaced : placement.Realizes task.device.numQubits π₀) (hfits : p.Fits task.device π₀) :
    Meets (route task ((List.range task.device.numQubits).map p.sourceOp))
      (start k₀ placement task.device) (fun _ s => s.stats.swaps = 0) fun _ _ => True := by
  unfold route
  refine Meets.bind (placed_ready hpad hplaced).meets ?_
  rintro _ s ⟨hready, hstats, -⟩
  rw [meets_get_bind]
  refine (turns_unswapped hpad hmappable hfits _ hready).bind fun _ s' hswaps => ?_
  show s'.stats.swaps = 0
  rw [hswaps, hstats]

end Router

end QubitMapper
