import Mathlib.Data.List.Infix
import QubitMapper.Proofs.Routing.Kept
import QubitMapper.Proofs.Routing.Termination

/-!
# Measurements wait

The measurement phase begins when the front layer is empty. Whatever is not emitted then is held
back behind a measurement: were there anything else, the first such operation in the order of the
program would have its producers emitted, so it would wait in the front layer.

## Main results

* `Router.Reaches.measuresLast`: in the measurement phase everything that is behind no measurement
  has been emitted, before any measurement.
* `Router.route_measuresLast`: so it is at the end of a run.
-/

namespace QubitMapper

/-- An operation that is a measurement, or consumes a wire of an operation that is behind one. -/
inductive Kernel.BehindMeasure (k : Kernel) : Nat → Prop where
  | measure {x : Nat} (hmeasure : k.isMeasure x = true) : BehindMeasure k x
  | consume {x y : Nat} (hy : y ∈ k.producers x) (hbehind : BehindMeasure k y) : BehindMeasure k x

/-- What no measurement has, while producers share it, is had by nothing behind a measurement. -/
theorem Kernel.not_behindMeasure {k : Kernel} {P : Nat → Prop}
    (hmeasure : ∀ x, P x → k.isMeasure x = false)
    (hclosed : ∀ x, P x → ∀ y ∈ k.producers x, P y) : ∀ x, P x → ¬ k.BehindMeasure x := by
  intro x hx hbehind
  induction hbehind with
  | measure htrue => exact absurd htrue (by simp [hmeasure _ hx])
  | consume hy _ ih => exact ih (hclosed _ hx _ hy)

namespace Router

/-! ## What is emitted, and what is measured -/

/-- More is emitted behind what was, and no measurement comes or goes. -/
structure Extends (s s' : Router) : Prop where
  emitted : s.emitted.toList <+: s'.emitted.toList
  isMeasure : ∀ x, s'.kernel.isMeasure x = s.kernel.isMeasure x

instance : IsPreorder Router Extends where
  refl _ := ⟨List.prefix_rfl, fun _ => rfl⟩
  trans _ _ _ h h' :=
    ⟨h.emitted.trans h'.emitted, fun x => (h'.isMeasure x).trans (h.isMeasure x)⟩

/-- Of the kernel only measurements matter. -/
private theorem Extends.of_isMeasure {s : Router} {k : Kernel}
    (h : ∀ x, k.isMeasure x = s.kernel.isMeasure x) : Extends s { s with kernel := k } :=
  ⟨List.prefix_rfl, h⟩

instance : Allows Extends where
  aside hkernel _ hemitted _ := ⟨hemitted ▸ List.prefix_rfl, fun _ => hkernel ▸ rfl⟩
  emits s op := ⟨by simp, fun _ => rfl⟩
  creates {s kind operands out} hkind h := by
    obtain ⟨-, -, rfl⟩ := Kernel.create_eq_ok_iff.mp h
    refine .of_isMeasure fun x => ?_
    rw [Kernel.isMeasure, Kernel.isMeasure, Kernel.op?_addOp]
    split
    · rename_i hx
      subst hx
      rw [Kernel.op?_eq_none_of_le (Nat.le_refl _)]
      rcases hkind with rfl | rfl <;> rfl
    · rfl
  rewires {s op operands k} h := by
    obtain ⟨-, o, -, -, -, rfl⟩ := Kernel.setOperands_eq_ok_iff.mp h
    refine .of_isMeasure fun x => ?_
    rw [Kernel.isMeasure, Kernel.isMeasure, Kernel.op?_rewired]
    split
    · rename_i hx
      rw [hx, Option.any_map]
    · rfl
  places s op ps := by
    refine .of_isMeasure fun x => ?_
    rw [Kernel.isMeasure, Kernel.isMeasure, Kernel.op?_modifyOp]
    split
    · rename_i hx
      rw [hx, Option.any_map]
    · rfl
  swaps _ _ := ⟨List.prefix_rfl, fun _ => rfl⟩

/-- Everything that is behind no measurement of the kernel is emitted, before any measurement. -/
def MeasuresLast (k₀ : Kernel) (s : Router) : Prop :=
  ∃ before after, s.emitted.toList = before ++ after ∧
    (∀ x ∈ before, k₀.isMeasure x = false) ∧
    ∀ x < k₀.ops.size, ¬ k₀.BehindMeasure x → x ∈ before

theorem MeasuresLast.extend {k₀ : Kernel} {s s' : Router} (h : MeasuresLast k₀ s)
    (hextends : Extends s s') : MeasuresLast k₀ s' := by
  obtain ⟨before, after, heq, hbefore, hall⟩ := h
  obtain ⟨more, hmore⟩ := hextends.emitted
  exact ⟨before, after ++ more, by rw [← hmore, heq, List.append_assoc], hbefore, hall⟩

/-! ## The measurement phase -/

variable {task : RoutingTask} {p : Program} {k₀ : Kernel} {π₀ π : Nat → Nat} {done : List Nat}
  {s : Router} {t : Tally} {placement : Placement}

/-- Before the measurement phase, with an empty front layer, all that is left is behind a
measurement. -/
theorem Ready.measuresLast (h : Ready task p k₀ π₀ task.device.numQubits done π [] s)
    (hpad : Padded p task.device.numQubits k₀ task.labels)
    (hmappable : ∀ ins ∈ p.instructions, ins.Mappable) (hmeasuring : s.frontier.measuring = false) :
    MeasuresLast k₀ s := by
  obtain ⟨hvisited, -, hdeferred⟩ := h.tracks.early hmeasuring
  refine ⟨s.emitted.toList, [], (List.append_nil _).symm, fun x hx => ?_, fun x hx hfree => ?_⟩
  · by_cases hlt : x < k₀.ops.size
    · exact hvisited x ((h.sound.visited x hlt).mp hx)
    · rw [Kernel.isMeasure, Kernel.op?_eq_none_of_le (Nat.not_lt.mp hlt)]
      rfl
  · rw [h.sound.visited x hx]
    refine hpad.mem_visited_of_none_waiting (P := fun x => ¬ k₀.BehindMeasure x)
      (fun ins hins => (hmappable ins hins).nonempty) h.tracks
      (fun x hx y hy hbehind => hx (.consume hy hbehind)) (fun r hr hfree => ?_) x hx hfree
    exact hfree (.measure (hdeferred r hr))

section Runs

variable (hpad : Padded p task.device.numQubits k₀ task.labels)
  (hmappable : ∀ ins ∈ p.instructions, ins.Mappable) (hperiod : task.options.decayPeriod ≠ 0)
  (hplaced : placement.Realizes task.device.numQubits π₀)

include hpad hmappable hperiod hplaced

/-- In the measurement phase everything that is behind no measurement has been emitted, before any
measurement. -/
theorem Reaches.measuresLast
    (h : Reaches task ((List.range task.device.numQubits).map p.sourceOp)
      (start k₀ placement task.device) t s) :
    s.frontier.measuring = true → MeasuresLast k₀ s := by
  induction h with
  | placed hs =>
      obtain ⟨-, -, hmeasuring⟩ := (placed_ready hpad hplaced).ensures.of_ok hs
      exact fun h => absurd h (by simp [hmeasuring])
  | @turn t t' s s' h hturn ih =>
      obtain ⟨done, π, hbetween⟩ := h.between hpad hmappable hperiod hplaced
      have hextends : Extends s s' := (Allows.keeps_turn t s : Keeps Extends _ s).of_ok hturn
      obtain ⟨⟨-, hphase⟩, -⟩ := (turn_spec hbetween hpad hmappable hperiod).of_ok hturn
      intro hmeasuring
      by_cases hfront : s.front = []
      · cases hbefore : s.frontier.measuring with
        | true => exact (ih hbefore).extend hextends
        | false =>
            have hready := hbetween.ready
            rw [hfront] at hready
            exact (hready.measuresLast hpad hmappable hbefore).extend hextends
      · exact (ih ((hphase hfront).symm.trans hmeasuring)).extend hextends

/-- Turns that end leave a state that the run reaches, in the measurement phase. -/
theorem Reaches.turns_end (fuel : Nat) : ∀ {t : Tally} {s : Router},
    Reaches task ((List.range task.device.numQubits).map p.sourceOp)
      (start k₀ placement task.device) t s →
    Ensures (turns task fuel t) s fun _ s' => s'.frontier.measuring = true ∧
      ∃ t', Reaches task ((List.range task.device.numQubits).map p.sourceOp)
        (start k₀ placement task.device) t' s' := by
  induction fuel with
  | zero => exact fun _ => ensures_throw
  | succ fuel ih =>
      intro t s h
      obtain ⟨done, π, hbetween⟩ := h.between hpad hmappable hperiod hplaced
      unfold Router.turns
      refine Ensures.bind ensures_eq fun next s' hturn => ?_
      have hturned := (turn_spec hbetween hpad hmappable hperiod).of_ok hturn
      cases next with
      | none =>
          obtain ⟨rfl, -, hmeasuring⟩ := hturned
          exact ⟨hmeasuring, t, h⟩
      | some t' => exact ih (h.turn hturn)

/-- A run that succeeds has emitted everything that is behind no measurement before any measurement,
and its kernel has the measurements that it had. -/
theorem route_measuresLast :
    Ensures (route task ((List.range task.device.numQubits).map p.sourceOp))
      (start k₀ placement task.device) fun _ s => MeasuresLast k₀ s ∧
        ∀ x, s.kernel.isMeasure x = k₀.isMeasure x := by
  have hkeeps : Keeps Extends (route task ((List.range task.device.numQubits).map p.sourceOp))
    (start k₀ placement task.device) := Allows.keeps_route _ _ _
  have hends : Ensures (route task ((List.range task.device.numQubits).map p.sourceOp))
      (start k₀ placement task.device) fun _ s => MeasuresLast k₀ s := by
    unfold route
    obtain ⟨_, s, hs, -⟩ := returns_iff.mp (placed_spec hpad hplaced)
    rw [ensures_bind_of_eq hs, ensures_get_bind]
    refine ((Reaches.placed hs).turns_end hpad hmappable hperiod hplaced _).bind ?_
    rintro _ s' ⟨hmeasuring, t, hreaches⟩
    exact (hreaches.measuresLast hpad hmappable hperiod hplaced hmeasuring).extend
      (Allows.aside rfl rfl rfl rfl)
  exact (hends.and hkeeps.ensures).mono fun _ s h => ⟨h.1, h.2.isMeasure⟩

end Runs

end Router

end QubitMapper
