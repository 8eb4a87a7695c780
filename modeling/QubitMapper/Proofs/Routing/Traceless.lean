import QubitMapper.Proofs.Routing.Kept
import QubitMapper.Proofs.Routing.Termination

/-!
# The search for a swap leaves no trace

Whatever the kernel, the labels and the options are, and from every placement whose tables are
inverse to each other, holes or not: wherever a run searches for a swap, it goes on as if it had not
searched.

## Main results

* `Router.Reaches.allows`: what a run reaches is related to where it begins.
* `Router.Comes.weights`: every qubit has a weight.
* `Router.chooseSwap_traceless`: looks ahead that are taken back, and whole searches, change
  nothing.
-/

namespace QubitMapper.Router

variable {task : RoutingTask} {sources : List Nat} {s₀ s s' : Router} {t : Tally}

/-- What a run reaches between two turns is related to where it begins. -/
theorem Reaches.allows {R : Router → Router → Prop} [Allows R]
    (h : Reaches task sources s₀ t s) : R s₀ s := by
  induction h with
  | placed hs => exact (Keeps.forM Allows.keeps_placeSource sources s₀ : Keeps R _ s₀).of_ok hs
  | turn _ hturn ih =>
      exact IsTrans.trans _ _ _ ih ((Allows.keeps_turn _ _ : Keeps R _ _).of_ok hturn)

/-- A run comes through a state: between two turns, or within one after its round. -/
def Comes (task : RoutingTask) (sources : List Nat) (s₀ s : Router) : Prop :=
  ∃ t s₁, Reaches task sources s₀ t s₁ ∧
    (s = s₁ ∨ ∃ progress, round task s₁ = .ok progress s)

theorem Comes.allows {R : Router → Router → Prop} [Allows R] (h : Comes task sources s₀ s) :
    R s₀ s := by
  obtain ⟨t, s₁, hreaches, rfl | ⟨progress, hround⟩⟩ := h
  · exact hreaches.allows
  · exact IsTrans.trans _ _ _ hreaches.allows
      ((Allows.keeps_round s₁ : Keeps R _ s₁).of_ok hround)

/-- A placement whose tables are inverse to each other stays one. -/
def StaysBijective (s s' : Router) : Prop :=
  s.placement.isBijective = true → s'.placement.isBijective = true

instance : IsPreorder Router StaysBijective where
  refl _ := id
  trans _ _ _ h h' := h' ∘ h

instance : Allows StaysBijective where
  aside _ hplacement _ _ h := hplacement ▸ h
  emits _ _ := id
  creates _ _ := id
  rewires _ := id
  places _ _ _ := id
  swaps ha hb h := Placement.isBijective_swap h ha hb

/-- As many qubits have weights as before. -/
def SameWeights (s s' : Router) : Prop := s'.decay.size = s.decay.size

instance : IsPreorder Router SameWeights where
  refl _ := rfl
  trans _ _ _ h h' := Eq.trans h' h

instance : Allows SameWeights where
  aside _ _ _ hsize := hsize
  emits _ _ := rfl
  creates _ _ := rfl
  rewires _ := rfl
  places _ _ _ := rfl
  swaps _ _ := rfl

/-- Wherever a run comes, every qubit has a weight. -/
theorem Comes.weights {k : Kernel} {placement : Placement}
    (h : Comes task sources (start k placement task.device) s) :
    s.decay.size = task.device.numQubits :=
  (h.allows : SameWeights _ s).trans Array.size_replicate

/-- Looks ahead that are taken back leave a frontier on which all later calls give what they would
have given without them. So the search for a swap, wherever a run makes it, leaves a state that
cannot be told from the one before, whether it finds a swap or fails. -/
theorem chooseSwap_traceless {placement : Placement} (hplacement : placement.isBijective = true) :
    (∀ (k : Kernel) (labels : Labels) (f : Frontier) (ys : List Nat),
      (∀ f₁ released noted, f.exploreAll k labels ys = .ok (f₁, released, noted) →
        ∃ f₂, f₁.rollback noted = .ok f₂ ∧ f.Same f₂ ∧
          ∀ cs, (·.2) <$> f₂.calls cs = (·.2) <$> f.calls cs) ∧
      (k.Built → ∃ out, f.exploreAll k labels ys = .ok out)) ∧
    ∀ (task : RoutingTask) (k : Kernel) (sources : List Nat) (s : Router),
      Comes task sources (start k placement task.device) s →
        Meets (chooseSwap task) s (fun _ s' => s.Same s') fun _ s' => s.Same s' := by
  refine ⟨fun k labels f ys => ⟨fun f₁ released noted h => ?_, fun hk => ?_⟩, ?_⟩
  · obtain ⟨f₂, hrollback, hsame⟩ := (Frontier.explored_of_exploreAll h).rollback
    exact ⟨f₂, hrollback, hsame, fun cs => hsame.calls cs⟩
  · exact Frontier.exploreAll_ok labels hk.coherent.toConsistent f ys
  · intro task k sources s hcomes
    have hstays : StaysBijective (start k placement task.device) s := hcomes.allows
    exact (chooseSwap_same (hstays hplacement) hcomes.weights.ge).mono (fun _ _ h => h.1)
      fun _ _ h => h

/-- Two of three qubits stand on a path of three, not next to each other, and wait for a gate that
another one follows. A look ahead reaches both gates, and a run searches for a swap around the
hole. -/
theorem chooseSwap_traceless_hole :
    let k := (Kernel.empty "ahead").calls [.alloc, .alloc, .apply (.gate "cx" []) [0, 1],
      .apply (.gate "cx" []) [2, 3]]
    let labels : Labels := .ofList [(0, 0), (1, 1), (2, 0), (3, 1), (4, 0), (5, 1)]
    let placement : Placement := ⟨#[some 2, some 0], #[some 1, none, some 0]⟩
    k.Built ∧ placement.isBijective = true ∧
      (∃ f₁ f₂, Frontier.initial.exploreAll k labels [0, 1, 2] =
          .ok (f₁, [⟨2, [0, 1]⟩, ⟨3, [0, 1]⟩], [2, 2, 3, 3]) ∧
        f₁.rollback [2, 2, 3, 3] = .ok f₂ ∧ Frontier.initial.Same f₂) ∧
      ∃ s, s.front = [⟨2, [0, 1]⟩] ∧ s.involved = [2, 0] ∧
        Comes ⟨.line, labels, {}⟩ [0, 1] (start k placement .line) s ∧
        Meets (chooseSwap ⟨.line, labels, {}⟩) s (fun _ s' => s.Same s') fun _ s' => s.Same s' := by
  intro k labels placement
  have hplacement : placement.isBijective = true := by decide
  obtain ⟨hexplore, hsearch⟩ := chooseSwap_traceless hplacement
  refine ⟨(Kernel.Built.empty "ahead").calls _, hplacement, ?_, ?_⟩
  · obtain ⟨f₂, hrollback, hsame, -⟩ := (hexplore k labels .initial [0, 1, 2]).1 _ _ _ rfl
    exact ⟨_, f₂, rfl, hrollback, hsame⟩
  · have hcomputed : (do
        let task : RoutingTask := ⟨.line, labels, {}⟩
        let placed ← ended? ([0, 1].forM (placeSource task) (start k placement .line))
        let tried ← ended? (round task placed.2)
        return (tried.2.front, tried.2.involved)) = some ([⟨2, [0, 1]⟩], [2, 0]) := by
      decide +kernel
    simp only [bind, pure, Option.bind_eq_some_iff, ended?_eq_some, Option.some.injEq,
      Prod.mk.injEq] at hcomputed
    obtain ⟨placed, hplaced, tried, htried, hfront, hinvolved⟩ := hcomputed
    have hcomes : Comes ⟨.line, labels, {}⟩ [0, 1] (start k placement .line) tried.2 :=
      ⟨{}, placed.2, .placed hplaced, .inr ⟨tried.1, htried⟩⟩
    exact ⟨tried.2, hfront, hinvolved, hcomes, hsearch _ _ _ _ hcomes⟩

end QubitMapper.Router
