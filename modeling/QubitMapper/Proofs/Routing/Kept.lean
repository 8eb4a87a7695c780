import QubitMapper.Proofs.Kernel.Formed
import QubitMapper.Proofs.Kernel.Kept
import QubitMapper.Proofs.Placement
import QubitMapper.Routing.Router

/-!
# What routing keeps

Routing rewires the kernel, writes down physical qubits, adds swaps and allocations to no block,
lists what it emits and swaps what the placement has on two physical qubits. A relation between
states that allows these changes holds between any two states of a run, wherever it stops.

For one, on every kernel the blocks are as they were, the kernel has kept what `Kernel.Kept` says,
and it is formed if it was formed.

## Main results

* `Router.Allows.keeps_route`: a run ends in a state that is related to its first one, whether it
  succeeds or fails.
* `Router.keeps_route`: it keeps its kernel.
-/

namespace QubitMapper.Router

/-! ## What changes nothing -/

section Preorder

variable {R : Router → Router → Prop} [IsPreorder Router R] {task : RoutingTask}

theorem keeps_weightOf (q : Nat) (s : Router) : Keeps R (weightOf q) s := by
  unfold weightOf
  rw [keeps_get_bind]
  split
  · exact keeps_pure
  · exact keeps_throw

theorem keeps_swapCost (ahead : List ReadyOp) (c : Nat × Nat) (s : Router) :
    Keeps R (swapCost task ahead c) s :=
  (keeps_weightOf c.1 s).bind fun _ s => (keeps_weightOf c.2 s).bind fun _ _ =>
    keeps_get_bind.mpr keeps_pure

/-- The search for a swap makes swaps and looks ahead. -/
theorem keeps_chooseSwap_of (hplaces : ∀ c s, Keeps R (swapPlaces c) s)
    (hlook : ∀ s, Keeps R (lookAhead task) s) (s : Router) : Keeps R (chooseSwap task) s := by
  have htry (ahead : List ReadyOp) (c : Nat × Nat) (s : Router) :
      Keeps R (trySwap task ahead c) s :=
    (hplaces c s).bind fun _ s => (keeps_swapCost ahead c s).bind fun _ s =>
      (hplaces c s).bind fun _ _ => keeps_pure
  unfold chooseSwap
  rw [keeps_get_bind]
  refine (hlook s).bind fun ahead s => ?_
  rw [keeps_get_bind]
  split
  · exact keeps_throw
  · refine (Keeps.mapM (htry ahead) _ s).bind fun costs s => ?_
    split
    · exact keeps_pure
    · exact keeps_throw

end Preorder

/-! ## What is allowed -/

/-- A relation between states allows each change that a small step makes to the kernel, the
placement and what is emitted, and asks about nothing else but how many weights there are. -/
class Allows (R : Router → Router → Prop) : Prop extends IsPreorder Router R where
  aside : ∀ {s s' : Router}, s'.kernel = s.kernel → s'.placement = s.placement →
    s'.emitted = s.emitted → s'.decay.size = s.decay.size → R s s'
  emits : ∀ (s : Router) (op : Nat), R s { s with emitted := s.emitted.push op }
  creates : ∀ {s : Router} {kind : OpKind} {operands : List Nat} {out : Kernel × Nat × List Nat},
    kind = .alloc ∨ kind = .swap → s.kernel.create kind operands = .ok out →
      R s { s with kernel := out.1 }
  rewires : ∀ {s : Router} {op : Nat} {operands : List Nat} {k : Kernel},
    s.kernel.setOperands op operands = .ok k → R s { s with kernel := k }
  places : ∀ (s : Router) (op : Nat) (ps : List Nat),
    R s { s with kernel := s.kernel.modifyOp op ({ · with physical := ps }) }
  swaps : ∀ {s : Router} {a b : Nat}, a < s.placement.physicalCount →
    b < s.placement.physicalCount → R s { s with placement := s.placement.swap a b }

namespace Allows

variable {R : Router → Router → Prop} [Allows R]

variable {task : RoutingTask}

/-! ## Small steps -/

theorem keeps_liftCircuit {α : Type} (r : Except CircuitError α) (s : Router) :
    Keeps R (liftCircuit r) s := by
  cases r with
  | ok a => exact keeps_pure
  | error e => exact keeps_throw

theorem keeps_placeOf (v : Nat) (s : Router) : Keeps R (placeOf v) s := by
  unfold placeOf
  rw [keeps_get_bind]
  split
  · exact keeps_pure
  · exact keeps_throw

theorem keeps_swapPlaces (c : Nat × Nat) (s : Router) : Keeps R (swapPlaces c) s := by
  unfold swapPlaces
  rw [keeps_get_bind]
  split
  · exact keeps_throw
  · rename_i hmissed
    obtain ⟨⟨ha, hb⟩, -⟩ := Placement.missed?_eq_none_iff.mp hmissed
    exact keeps_set (swaps ha hb)

theorem keeps_setWire (p : Nat) (w : Option Nat) (s : Router) : Keeps R (setWire p w) s := by
  unfold setWire
  rw [keeps_get_bind]
  split
  · exact keeps_modify (aside rfl rfl rfl rfl)
  · exact keeps_throw

theorem keeps_setPhysical (op : Nat) (ps : List Nat) (s : Router) :
    Keeps R (setPhysical op ps) s := keeps_modify (places s op ps)

theorem keeps_emit (op : Nat) (s : Router) : Keeps R (emit op) s := keeps_modify (emits s op)

/-- A change of the kernel that may fail, with what becomes of its outcome. -/
theorem keeps_change {α β : Type} (change : Kernel → Except CircuitError α) (kernel : α → Kernel)
    {rest : α → Route β} (s : Router)
    (hkernel : ∀ a, change s.kernel = .ok a → R s { s with kernel := kernel a })
    (hrest : ∀ a s, Keeps R (rest a) s) :
    Keeps R (do
      let a ← liftCircuit (change (← get).kernel)
      modify fun s => { s with kernel := kernel a }
      rest a) s := by
  rw [keeps_get_bind]
  cases h : change s.kernel with
  | error e => exact keeps_throw
  | ok a => exact (keeps_modify (hkernel a h)).bind fun _ => hrest a

theorem keeps_createOp {kind : OpKind} (hkind : kind = .alloc ∨ kind = .swap)
    (operands : List Nat) (s : Router) : Keeps R (createOp kind operands) s :=
  keeps_change (·.create kind operands) (·.1) s (fun _ h => creates hkind h) fun _ _ => keeps_pure

theorem keeps_occupy (p : Nat) (s : Router) : Keeps R (occupy p) s := by
  unfold occupy
  rw [keeps_get_bind]
  split
  · exact keeps_throw
  · exact keeps_pure
  · refine (keeps_createOp (.inl rfl) _ s).bind fun out t => ?_
    exact (keeps_setPhysical _ _ t).bind fun _ t => (keeps_emit _ t).bind fun _ t =>
      (keeps_liftCircuit _ t).bind fun _ t => (keeps_setWire _ _ t).bind fun _ t => keeps_pure

theorem keeps_visit (op : Nat) (s : Router) : Keeps R (visit task op) s := by
  unfold visit
  rw [keeps_get_bind]
  refine (keeps_liftCircuit _ s).bind fun out t => ?_
  exact (keeps_modify (aside rfl rfl rfl rfl)).bind fun _ t => keeps_pure

/-! ## Layers -/

theorem keeps_settle (o : Operation) (ps : List Nat) (s : Router) :
    Keeps R (settle o ps) s := by
  unfold settle
  split
  · exact Keeps.forM (fun p => keeps_setWire p none) ps s
  · exact Keeps.forM (fun (w, p) => keeps_setWire p (some w)) _ s

theorem keeps_retire (r : ReadyOp) (s : Router) : Keeps R (retire task r) s := by
  unfold retire
  refine (Keeps.mapM keeps_placeOf r.qubits s).bind fun ps s => ?_
  rw [keeps_get_bind]
  split
  · exact keeps_throw
  · split
    · exact keeps_pure
    · rename_i o _ _
      refine (Keeps.mapM keeps_occupy ps s).bind fun ws s => ?_
      refine keeps_change (·.setOperands r.op ws) id s (fun _ h => rewires h) fun k s => ?_
      exact (keeps_setPhysical r.op ps s).bind fun _ s => (keeps_emit r.op s).bind fun _ s =>
        (keeps_settle o ps s).bind fun _ s => keeps_pure

theorem keeps_noteBlocked (d : Device) (r : ReadyOp) (s : Router) :
    Keeps R (noteBlocked d r) s := by
  unfold noteBlocked
  refine (Keeps.mapM keeps_placeOf r.qubits s).bind fun ps s => ?_
  dsimp only
  split
  · split
    · exact keeps_throw_bind
    · exact keeps_modify (aside rfl rfl rfl rfl)
  · exact keeps_modify (aside rfl rfl rfl rfl)

theorem keeps_retireLayer (layer : List ReadyOp) : ∀ s,
    Keeps R (retireLayer task layer) s := by
  induction layer with
  | nil => exact fun s => keeps_pure
  | cons r rest ih =>
      intro s
      unfold retireLayer
      refine (keeps_retire r s).bind fun retired s => ?_
      split
      · exact (keeps_visit r.op s).bind fun _ s => (ih s).bind fun _ s => keeps_pure
      · exact (keeps_noteBlocked _ r s).bind fun _ s => (ih s).bind fun _ s => keeps_pure

/-! ## Swaps -/

theorem keeps_lookAhead (s : Router) : Keeps R (lookAhead task) s := by
  unfold lookAhead
  split
  · exact keeps_pure
  · rw [keeps_get_bind]
    refine (keeps_liftCircuit _ s).bind fun out t => ?_
    exact (keeps_modify (aside rfl rfl rfl rfl)).bind fun _ t => keeps_pure

theorem keeps_chooseSwap (s : Router) : Keeps R (chooseSwap task) s :=
  keeps_chooseSwap_of keeps_swapPlaces keeps_lookAhead s

theorem keeps_insertSwap (a b : Nat) (s : Router) : Keeps R (insertSwap a b) s := by
  unfold insertSwap
  refine (keeps_occupy a s).bind fun wa s => (keeps_occupy b s).bind fun wb s => ?_
  refine (keeps_swapPlaces _ s).bind fun _ s => (keeps_createOp (.inr rfl) _ s).bind fun out s => ?_
  refine (keeps_setPhysical _ _ s).bind fun _ s => ?_
  refine (keeps_liftCircuit _ s).bind fun _ s => (keeps_setWire _ _ s).bind fun _ s => ?_
  refine (keeps_liftCircuit _ s).bind fun _ s => (keeps_setWire _ _ s).bind fun _ s => ?_
  exact (keeps_emit _ s).bind fun _ s => keeps_modify (aside rfl rfl rfl rfl)

theorem keeps_raiseWeight (step : Float) (q : Nat) (s : Router) :
    Keeps R (raiseWeight step q) s :=
  (keeps_weightOf q s).bind fun _ _ =>
    keeps_modify (aside rfl rfl rfl Array.size_setIfInBounds)

theorem keeps_updateDecay (options : Options) (searches a b : Nat) (s : Router) :
    Keeps R (updateDecay options searches a b) s := by
  unfold updateDecay
  split
  · exact keeps_throw
  · split
    · exact keeps_modify (aside rfl rfl rfl Array.size_replicate)
    · exact (keeps_raiseWeight _ a s).bind fun _ s => keeps_raiseWeight _ b s

theorem keeps_release (s : Router) : Keeps R (release task) s := by
  unfold release
  rw [keeps_get_bind]
  split
  · refine (keeps_placeOf _ s).bind fun a s => (keeps_placeOf _ s).bind fun b s => ?_
    split
    · exact keeps_throw
    · exact (Keeps.forM (fun (a, b) => keeps_insertSwap a b) _ s).bind fun _ s =>
        keeps_modify (aside rfl rfl rfl Array.size_replicate)
  · exact keeps_pure

/-! ## The run -/

theorem keeps_placeSource (source : Nat) (s : Router) :
    Keeps R (placeSource task source) s := by
  unfold placeSource
  rw [keeps_get_bind]
  split
  · exact keeps_throw
  · split
    · exact keeps_throw
    · refine (keeps_placeOf _ s).bind fun p s => (keeps_visit source s).bind fun released s => ?_
      exact (keeps_modify (aside rfl rfl rfl rfl)).bind fun _ s =>
        (keeps_setWire _ _ s).bind fun _ s => (keeps_setPhysical _ _ s).bind fun _ s =>
          keeps_emit _ s

theorem keeps_round (s : Router) : Keeps R (round task) s := by
  unfold round
  rw [keeps_get_bind]
  refine Keeps.bind (keeps_set ?_) fun _ t => (keeps_retireLayer _ t).bind fun out t => ?_
  · exact aside rfl rfl rfl rfl
  · exact (keeps_modify (aside rfl rfl rfl rfl)).bind fun _ t => keeps_pure

theorem keeps_unblock (t : Tally) (s : Router) : Keeps R (unblock task t) s := by
  unfold unblock
  split
  · exact (keeps_release s).bind fun _ s => keeps_pure
  · refine (keeps_chooseSwap s).bind fun c s => (keeps_insertSwap c.1 c.2 s).bind fun _ s => ?_
    exact (keeps_modify (aside rfl rfl rfl rfl)).bind fun _ s =>
      (keeps_updateDecay _ _ _ _ s).bind fun _ s => keeps_pure

theorem keeps_turn (t : Tally) (s : Router) : Keeps R (turn task t) s := by
  unfold turn
  rw [keeps_get_bind]
  split
  · split
    · exact keeps_pure
    · refine Keeps.bind (keeps_set ?_) fun _ s => keeps_pure
      exact aside rfl rfl rfl rfl
  · refine (keeps_round s).bind fun progress s => ?_
    split
    · exact keeps_pure
    · exact (keeps_unblock t s).bind fun t s => keeps_pure

theorem keeps_turns (fuel : Nat) : ∀ t s, Keeps R (turns task fuel t) s := by
  induction fuel with
  | zero => exact fun t s => keeps_throw
  | succ fuel ih =>
      intro t s
      unfold turns
      refine (keeps_turn t s).bind fun next s => ?_
      cases next with
      | none => exact keeps_pure
      | some t => exact ih t s

/-- Where a run stops is related to where it begins. -/
theorem keeps_route (task : RoutingTask) (sources : List Nat) (s : Router) :
    Keeps R (route task sources) s := by
  unfold route
  refine (Keeps.forM keeps_placeSource sources s).bind fun _ s => ?_
  rw [keeps_get_bind]
  exact (keeps_turns _ _ s).bind fun _ s => keeps_modify (aside rfl rfl rfl rfl)

end Allows

/-! ## The kernel -/

/-- What stays of the kernel in a run. -/
structure Kept (s s' : Router) : Prop where
  kernel : s.kernel.Kept s'.kernel
  blocks : s'.kernel.blocks = s.kernel.blocks
  formed : s.kernel.Formed → s'.kernel.Formed

instance : IsPreorder Router Kept where
  refl s := ⟨.refl s.kernel, rfl, id⟩
  trans _ _ _ h h' :=
    ⟨h.kernel.trans h'.kernel, h'.blocks.trans h.blocks, fun hk => h'.formed (h.formed hk)⟩

/-- The kernel as it is. -/
theorem Kept.of_eq {s s' : Router} (h : s'.kernel = s.kernel) : Kept s s' :=
  ⟨h ▸ .refl s.kernel, h ▸ rfl, fun hk => h ▸ hk⟩

instance : Allows Kept where
  aside h _ _ _ := .of_eq h
  emits _ _ := .of_eq rfl
  creates _ h := by
    refine ⟨.create h, ?_, fun hk => hk.create h⟩
    obtain ⟨-, -, rfl⟩ := Kernel.create_eq_ok_iff.mp h
    exact Kernel.blocks_addOp _ _
  rewires h := by
    refine ⟨.setOperands h, ?_, fun hk => hk.setOperands h⟩
    obtain ⟨-, o, -, -, -, rfl⟩ := Kernel.setOperands_eq_ok_iff.mp h
    exact Kernel.blocks_rewired o.operands _
  places s op ps :=
    ⟨.modifyOp s.kernel (f := ({ · with physical := ps })) (fun _ => ⟨rfl, rfl⟩) op, rfl,
      fun hk => hk.setPhysical ps⟩
  swaps _ _ := .of_eq rfl

/-- Wherever a run stops, it has kept its kernel. -/
theorem keeps_route (task : RoutingTask) (sources : List Nat) (s : Router) :
    Keeps Kept (route task sources) s :=
  Allows.keeps_route task sources s

end QubitMapper.Router
