import QubitMapper.Proofs.Placement
import QubitMapper.Proofs.Routing.Schedule
import QubitMapper.Proofs.Routing.Wiring
import QubitMapper.Routing.Router

/-!
# The steps of a run

What each step of the router does to a wired kernel: it emits new operations, and the one that it
retires. None of the steps fails. On the kernel of a program the history of the run grows with them.

## Main results

* `Router.occupy_spec`, `Router.insertSwap_spec`, `Router.retire_spec`: the steps that emit
  operations, on any kernel.
* `Router.Sound`: the kernel, the placement and the history of a run agree.
* `Router.Sound.insertSwap`, `Router.Sound.retire`: the steps that add to the history.
-/

namespace QubitMapper.Router

/-- Two states that differ at most in the kernel, the wires, the placement and the swaps. -/
structure Frame (s s' : Router) : Prop where
  frontier : s'.frontier = s.frontier
  front : s'.front = s.front
  involved : s'.involved = s.involved
  weights : s'.decay = s.decay
  rounds : s'.stats.rounds = s.stats.rounds
  releases : s'.stats.releases = s.stats.releases

theorem Frame.refl (s : Router) : Frame s s := ⟨rfl, rfl, rfl, rfl, rfl, rfl⟩

theorem Frame.trans {s₁ s₂ s₃ : Router} (h₁ : Frame s₁ s₂) (h₂ : Frame s₂ s₃) : Frame s₁ s₃ where
  frontier := h₂.frontier.trans h₁.frontier
  front := h₂.front.trans h₁.front
  involved := h₂.involved.trans h₁.involved
  weights := h₂.weights.trans h₁.weights
  rounds := h₂.rounds.trans h₁.rounds
  releases := h₂.releases.trans h₁.releases

variable {task : RoutingTask} {k₀ : Kernel} {π : Nat → Nat} {n : Nat} {s s' : Router}
  {a b q v : Nat}

/-! ## Small steps -/

theorem placeOf_eq (h : s.placement.Realizes task.device.numQubits π)
    (hv : v < task.device.numQubits) : placeOf v s = .ok (π v) s := by
  unfold placeOf
  rw [get_bind, h.slot? hv]
  rfl

/-- Looking up where a virtual qubit is changes nothing. -/
theorem placeOf_ensures (v : Nat) : Ensures (placeOf v) s fun _ s' => s' = s := by
  unfold placeOf
  refine ensures_get_bind.mpr ?_
  cases s.placement.slot? v with
  | none => trivial
  | some q => exact ensures_pure.mpr rfl

/-- The places of some virtual qubits. -/
theorem placesOf_eq (h : s.placement.Realizes task.device.numQubits π) {vs : List Nat}
    (hvs : ∀ v ∈ vs, v < task.device.numQubits) : vs.mapM placeOf s = .ok (vs.map π) s := by
  induction vs with
  | nil => rfl
  | cons v rest ih =>
      rw [List.mapM_cons, bind_of_eq (placeOf_eq h (hvs v List.mem_cons_self)),
        bind_of_eq (ih fun u hu => hvs u (List.mem_cons_of_mem _ hu))]
      rfl

/-- The state with what two physical qubits hold exchanged. -/
def exchanged (s : Router) (c : Nat × Nat) : Router :=
  { s with placement := s.placement.swap c.1 c.2 }

/-- A swap that misses no qubit is made in the placement. -/
theorem swapPlaces_eq {c : Nat × Nat} (h : s.placement.missed? c.1 c.2 = none) :
    swapPlaces c s = .ok () (s.exchanged c) := by
  unfold swapPlaces
  rw [get_bind, h]
  rfl

theorem setWire_eq (hq : q < s.onQubit.size) (w : Option Nat) :
    setWire q w s = .ok () { s with onQubit := s.onQubit.setIfInBounds q w } := by
  show (if q < s.onQubit.size then
    modify fun s => { s with onQubit := s.onQubit.setIfInBounds q w }
    else throw (.fault (.noSuchQubit q)) : Route Unit) s = _
  rw [if_pos hq]
  rfl

theorem setWire_ensures (q : Nat) (slot : Option Nat) (s : Router) : Ensures (setWire q slot) s
    fun _ s' => s' = { s with onQubit := s.onQubit.setIfInBounds q slot } := by
  unfold setWire
  rw [ensures_get_bind]
  split
  · rfl
  · trivial

theorem createOp_eq (kind : OpKind) (ws : List Nat) (harity : Kernel.FitsArity kind ws.length)
    (husable : s.kernel.Usable false ws) :
    createOp kind ws s = .ok (s.kernel.ops.size, s.kernel.freshWires (kind.resultCount ws.length))
      { s with kernel := (s.kernel.addOp kind ws).1 } := by
  have hcreate : s.kernel.create kind ws = .ok (s.kernel.addOp kind ws) :=
    Kernel.create_eq_ok_iff.mpr ⟨harity, husable, rfl⟩
  unfold createOp
  rw [get_bind, hcreate]
  rfl

/-! ## New operations -/

/-- The kernel of a state is wired for a device of `n` qubits. -/
abbrev IsWired (k₀ : Kernel) (n : Nat) (s : Router) : Prop :=
  Wired k₀ n s.kernel s.onQubit s.emitted.toList

/-- The emitted operations of a state feed each other. -/
abbrev IsFed (k₀ : Kernel) (s : Router) : Prop := Fed k₀ s.kernel s.onQubit s.emitted.toList

/-- What is emitted between two states is new: it is none of the original kernel. -/
def AddsNew (k₀ : Kernel) (s s' : Router) : Prop :=
  ∃ new, s'.emitted.toList = s.emitted.toList ++ new ∧ ∀ x ∈ new, k₀.ops.size ≤ x

theorem AddsNew.refl (k₀ : Kernel) (s : Router) : AddsNew k₀ s s := ⟨[], by simp, by simp⟩

theorem AddsNew.trans {s₁ s₂ s₃ : Router} (h₁ : AddsNew k₀ s₁ s₂) (h₂ : AddsNew k₀ s₂ s₃) :
    AddsNew k₀ s₁ s₃ := by
  obtain ⟨new₁, heq₁, hnew₁⟩ := h₁
  obtain ⟨new₂, heq₂, hnew₂⟩ := h₂
  refine ⟨new₁ ++ new₂, by rw [heq₂, heq₁, List.append_assoc], fun x hx => ?_⟩
  rcases List.mem_append.mp hx with hx | hx
  · exact hnew₁ x hx
  · exact hnew₂ x hx

/-- Of the original kernel, the same operations are emitted. -/
theorem AddsNew.mem_iff (h : AddsNew k₀ s s') {x : Nat} (hx : x < k₀.ops.size) :
    x ∈ s'.emitted.toList ↔ x ∈ s.emitted.toList := by
  obtain ⟨new, heq, hnew⟩ := h
  rw [heq, List.mem_append]
  exact or_iff_left fun hmem => absurd hx (Nat.not_lt.mpr (hnew x hmem))

/-- One new operation is emitted. -/
theorem AddsNew.of_push (h : IsFed k₀ s)
    (hemitted : s'.emitted = s.emitted.push s.kernel.ops.size) : AddsNew k₀ s s' := by
  refine ⟨[s.kernel.ops.size], by rw [hemitted, Array.toList_push], fun x hx => ?_⟩
  rw [List.mem_singleton.mp hx]
  exact h.size

/-- The state after an empty qubit got a fresh wire. -/
def occupied (s : Router) (q : Nat) : Router :=
  { s with
    kernel := (s.kernel.addOp .alloc []).1.modifyOp s.kernel.ops.size ({ · with physical := [q] })
    onQubit := s.onQubit.setIfInBounds q (some s.kernel.wires.size)
    emitted := s.emitted.push s.kernel.ops.size }

theorem occupy_of_none (hq : s.onQubit[q]? = some none) :
    occupy q s = .ok s.kernel.wires.size (occupied s q) := by
  have hsize : q < s.onQubit.size := (Array.getElem?_eq_some_iff.mp hq).1
  have hcreate := createOp_eq (s := s) .alloc [] (by rintro n ⟨⟩; rfl) ⟨List.nodup_nil, by simp⟩
  -- the states on the way, each given from the first one
  let k := (s.kernel.addOp .alloc []).1.modifyOp s.kernel.ops.size ({ · with physical := [q] })
  have hphysical :
      setPhysical s.kernel.ops.size [q] { s with kernel := (s.kernel.addOp .alloc []).1 } =
      .ok () { s with kernel := k } := rfl
  have hemit : emit s.kernel.ops.size { s with kernel := k } =
      .ok () { s with kernel := k, emitted := s.emitted.push s.kernel.ops.size } := rfl
  -- the one result of an allocation
  have hresult : (liftCircuit (Kernel.resultAt [s.kernel.wires.size] 0) : Route Nat)
      { s with kernel := k, emitted := s.emitted.push s.kernel.ops.size } =
      .ok s.kernel.wires.size
        { s with kernel := k, emitted := s.emitted.push s.kernel.ops.size } := rfl
  have hwire : setWire q (some s.kernel.wires.size)
      { s with kernel := k, emitted := s.emitted.push s.kernel.ops.size } =
      .ok () (occupied s q) :=
    setWire_eq (s := { s with kernel := k, emitted := s.emitted.push s.kernel.ops.size }) hsize _
  unfold occupy
  rw [get_bind, hq]
  refine (bind_of_eq hcreate).trans ?_
  refine (bind_of_eq hphysical).trans ?_
  refine (bind_of_eq hemit).trans ?_
  refine (bind_of_eq hresult).trans ?_
  exact bind_of_eq hwire

/-- Between two states, empty qubits may have got fresh wires. -/
structure Filled (k₀ : Kernel) (n : Nat) (s s' : Router) : Prop where
  frame : Frame s s'
  wired : IsWired k₀ n s'
  placement : s'.placement = s.placement
  stats : s'.stats = s.stats
  kept : ∀ r w : Nat, s.onQubit[r]? = some (some w) → s'.onQubit[r]? = some (some w)
  trace : s'.kernel.trace s'.emitted.toList = s.kernel.trace s.emitted.toList
  emitted : AddsNew k₀ s s'

theorem Filled.refl (h : IsWired k₀ n s) : Filled k₀ n s s :=
  ⟨.refl s, h, rfl, rfl, fun _ _ hr => hr, rfl, .refl k₀ s⟩

theorem Filled.trans {s₁ s₂ s₃ : Router} (h₁ : Filled k₀ n s₁ s₂) (h₂ : Filled k₀ n s₂ s₃) :
    Filled k₀ n s₁ s₃ where
  frame := h₁.frame.trans h₂.frame
  wired := h₂.wired
  placement := h₂.placement.trans h₁.placement
  stats := h₂.stats.trans h₁.stats
  kept r w hr := h₂.kept r w (h₁.kept r w hr)
  trace := h₂.trace.trans h₁.trace
  emitted := h₁.emitted.trans h₂.emitted

/-- An empty qubit gets a fresh wire. -/
theorem occupy_spec (h : IsWired k₀ n s) (hq : q < n) :
    Returns (occupy q) s fun w s' => Filled k₀ n s s' ∧ s'.onQubit[q]? = some (some w) := by
  have hsize : q < s.onQubit.size := h.qubits ▸ hq
  cases hw : s.onQubit[q] with
  | some w =>
      have hget : s.onQubit[q]? = some (some w) := by rw [Array.getElem?_eq_getElem hsize, hw]
      unfold occupy
      rw [returns_get_bind, hget]
      exact ⟨.refl h, hget⟩
  | none =>
      have hget : s.onQubit[q]? = some none := by rw [Array.getElem?_eq_getElem hsize, hw]
      obtain ⟨hnew, hemits, hwired⟩ := h.emit_new .alloc [] [q]
        (List.cons_ne_nil _ _) (List.nodup_singleton q) (by simpa using hq) List.nodup_nil
        (fun _ => ⟨rfl, rfl, by simpa using hget⟩) (by simp [OpKind.isAlloc]) rfl
      have htrace := hemits.trace hnew
      rw [← Array.toList_push] at hwired htrace
      rw [returns_of_eq (occupy_of_none hget)]
      refine ⟨⟨⟨rfl, rfl, rfl, rfl, rfl, rfl⟩, hwired, rfl, rfl, ?_, ?_, .of_push h.toFed rfl⟩, ?_⟩
      · intro r v hr
        have hne : q ≠ r := by
          rintro rfl
          rw [hget] at hr
          cases hr
        show (s.onQubit.setIfInBounds q _)[r]? = _
        rw [Array.getElem?_setIfInBounds_ne hne, hr]
      · rw [occupied, htrace]
        simp [OpKind.isAlloc]
      · exact Array.getElem?_setIfInBounds_self_of_lt hsize

/-- Some qubits are filled, each keeping its wire while the others are. -/
theorem occupyAll_spec (qs : List Nat) : ∀ {s : Router}, IsWired k₀ n s → (∀ q ∈ qs, q < n) →
    Returns (qs.mapM occupy) s fun ws s' => Filled k₀ n s s' ∧
      List.Forall₂ (fun q w => s'.onQubit[q]? = some (some w)) qs ws := by
  induction qs with
  | nil =>
      intro s h _
      exact ⟨.refl h, .nil⟩
  | cons q rest ih =>
      intro s h hlt
      rw [List.mapM_cons]
      refine (occupy_spec h (hlt q List.mem_cons_self)).bind fun w s₁ ⟨hfill, hw⟩ => ?_
      refine (ih hfill.wired fun r hr => hlt r (List.mem_cons_of_mem _ hr)).bind
        fun ws s₂ ⟨hfill', hws⟩ => ?_
      rw [returns_pure]
      exact ⟨hfill.trans hfill', .cons (hfill'.kept q w hw) hws⟩

/-! ## Swaps -/

/-- The state after a swap of two qubits that hold wires. -/
def swapped (s : Router) (a b wa wb : Nat) : Router :=
  { s with
    kernel :=
      (s.kernel.addOp .swap [wa, wb]).1.modifyOp s.kernel.ops.size ({ · with physical := [a, b] })
    placement := s.placement.swap a b
    onQubit := (s.onQubit.setIfInBounds a (some s.kernel.wires.size)).setIfInBounds b
      (some (s.kernel.wires.size + 1))
    emitted := s.emitted.push s.kernel.ops.size
    stats := { s.stats with swaps := s.stats.swaps + 1 } }

/-- The part of a swap behind the occupation of its two qubits. -/
theorem swapped_eq {wa wb : Nat} (hmissed : s.placement.missed? a b = none)
    (husable : s.kernel.Usable false [wa, wb]) (ha : a < s.onQubit.size)
    (hb : b < s.onQubit.size) :
    (do
      swapPlaces (a, b)
      let (op, results) ← createOp .swap [wa, wb]
      setPhysical op [a, b]
      setWire a (some (← liftCircuit (Kernel.resultAt results 0)))
      setWire b (some (← liftCircuit (Kernel.resultAt results 1)))
      emit op
      modify fun s => { s with stats := { s.stats with swaps := s.stats.swaps + 1 } } :
        Route Unit) s = .ok () (swapped s a b wa wb) := by
  let t := s.exchanged (a, b)
  let results := [s.kernel.wires.size, s.kernel.wires.size + 1]
  let k := (s.kernel.addOp .swap [wa, wb]).1.modifyOp s.kernel.ops.size
    ({ · with physical := [a, b] })
  let first := s.onQubit.setIfInBounds a (some s.kernel.wires.size)
  have hplaces : swapPlaces (a, b) s = .ok () t := swapPlaces_eq hmissed
  have hcreate := createOp_eq (s := t) .swap [wa, wb] (by rintro n ⟨⟩; rfl) husable
  have hphysical : setPhysical s.kernel.ops.size [a, b]
      { t with kernel := (s.kernel.addOp .swap [wa, wb]).1 } = .ok () { t with kernel := k } := rfl
  have hresult : (liftCircuit (Kernel.resultAt results 0) : Route Nat) { t with kernel := k } =
      .ok s.kernel.wires.size { t with kernel := k } := rfl
  have hfirst : setWire a (some s.kernel.wires.size) { t with kernel := k } =
      .ok () { t with kernel := k, onQubit := first } :=
    setWire_eq (s := { t with kernel := k }) ha _
  have hresult' : (liftCircuit (Kernel.resultAt results 1) : Route Nat)
      { t with kernel := k, onQubit := first } =
      .ok (s.kernel.wires.size + 1) { t with kernel := k, onQubit := first } := rfl
  have hsecond :
      setWire b (some (s.kernel.wires.size + 1)) { t with kernel := k, onQubit := first } =
      .ok () { t with
        kernel := k
        onQubit := first.setIfInBounds b (some (s.kernel.wires.size + 1)) } := by
    refine setWire_eq (s := { t with kernel := k, onQubit := first }) ?_ _
    simpa [first] using hb
  refine (bind_of_eq hplaces).trans ?_
  refine (bind_of_eq hcreate).trans ?_
  refine (bind_of_eq hphysical).trans ?_
  refine (bind_of_eq hresult).trans ?_
  refine (bind_of_eq hfirst).trans ?_
  refine (bind_of_eq hresult').trans ?_
  exact bind_of_eq hsecond

/-- Between two states, two qubits have been exchanged by a swap. -/
structure Swapped (k₀ : Kernel) (n a b : Nat) (s s' : Router) : Prop where
  frame : Frame s s'
  wired : IsWired k₀ n s'
  placement : s'.placement = s.placement.swap a b
  swaps : s'.stats.swaps = s.stats.swaps + 1
  trace : s'.kernel.trace s'.emitted.toList =
    s.kernel.trace s.emitted.toList ++ [⟨.swap, [a, b]⟩]
  emitted : AddsNew k₀ s s'

/-- Two qubits are exchanged by one more swap. -/
theorem insertSwap_spec (h : IsWired k₀ n s) (ha : a < n) (hb : b < n) (hab : a ≠ b)
    (hmissed : s.placement.missed? a b = none) :
    Returns (insertSwap a b) s fun _ s' => Swapped k₀ n a b s s' := by
  unfold insertSwap
  refine (occupy_spec h ha).bind fun wa s₁ ⟨hfill₁, hwa₁⟩ => ?_
  refine (occupy_spec hfill₁.wired hb).bind fun wb s₂ ⟨hfill₂, hwb⟩ => ?_
  have hwa := hfill₂.kept a wa hwa₁
  have hfill := hfill₁.trans hfill₂
  have hne : wa ≠ wb := by
    rintro rfl
    exact hab (hfill.wired.inj a b wa hwa hwb)
  have hdistinct : [wa, wb].Nodup := by simpa using hne
  have husable : s₂.kernel.Usable false [wa, wb] := by
    refine ⟨hdistinct, fun w hw => ?_⟩
    have hlt : w < s₂.kernel.wires.size := by
      rcases List.mem_pair.mp hw with rfl | rfl
      · exact hfill.wired.wire_lt hwa
      · exact hfill.wired.wire_lt hwb
    obtain ⟨wire, hwire⟩ := Kernel.exists_wire hlt
    exact ⟨wire, hwire, by simp⟩
  obtain ⟨hnew, hemits, hwired⟩ := hfill.wired.emit_new .swap [wa, wb] [a, b]
    (List.cons_ne_nil _ _) (by simpa using hab) (by simp [ha, hb]) hdistinct
    (by simp [OpKind.isAlloc]) (fun _ => .cons hwa (.cons hwb .nil)) rfl
  have htrace := hemits.trace hnew
  rw [← Array.toList_push] at hwired htrace
  rw [← hfill.placement] at hmissed
  rw [returns_of_eq (swapped_eq hmissed husable (hfill.wired.qubits ▸ ha)
    (hfill.wired.qubits ▸ hb))]
  have hframe := hfill.frame
  refine
    { frame := ⟨hframe.frontier, hframe.front, hframe.involved, hframe.weights, hframe.rounds,
        hframe.releases⟩
      wired := hwired
      placement := congrArg (·.swap a b) hfill.placement
      swaps := congrArg (·.swaps + 1) hfill.stats
      trace := ?_
      emitted := hfill.emitted.trans (.of_push hfill.wired.toFed rfl) }
  rw [swapped, htrace, ← hfill.trace]
  rfl

/-! ## Retiring an operation -/

private theorem clear_eq (ps : List Nat) : ∀ {s : Router}, (∀ q ∈ ps, q < s.onQubit.size) →
    ps.forM (setWire · none) s = .ok () { s with
      onQubit := Current.moveTo s.onQubit ps (ps.map fun _ => none) } := by
  induction ps with
  | nil => exact fun _ => rfl
  | cons q rest ih =>
      intro s hlt
      have hfirst := setWire_eq (hlt q List.mem_cons_self) none
      refine (bind_of_eq hfirst).trans ((ih fun r hr => ?_).trans rfl)
      simpa using hlt r (List.mem_cons_of_mem _ hr)

private theorem fill_eq (ps : List Nat) : ∀ {ws : List Nat} {s : Router},
    (∀ q ∈ ps, q < s.onQubit.size) →
    ((ws.zip ps).forM fun (w, q) => setWire q (some w) : Route PUnit) s = .ok () { s with
      onQubit := Current.moveTo s.onQubit ps (ws.map some) } := by
  induction ps with
  | nil =>
      intro ws s _
      rw [List.zip_nil_right]
      rfl
  | cons q rest ih =>
      intro ws s hlt
      cases ws with
      | nil => rfl
      | cons w ws =>
          have hfirst := setWire_eq (hlt q List.mem_cons_self) (some w)
          refine (bind_of_eq hfirst).trans ((ih fun r hr => ?_).trans rfl)
          simpa using hlt r (List.mem_cons_of_mem _ hr)

/-- What the qubits of a retired operation hold afterwards. -/
def settled (o : Operation) (ps : List Nat) : List (Option Nat) :=
  if o.kind.isSink then ps.map fun _ => none else o.results.map some

theorem settle_eq {o : Operation} {ps : List Nat} (hlt : ∀ q ∈ ps, q < s.onQubit.size) :
    settle o ps s =
      .ok () { s with onQubit := Current.moveTo s.onQubit ps (settled o ps) } := by
  unfold settle settled
  cases o.kind.isSink with
  | true => exact clear_eq ps hlt
  | false => exact fill_eq ps hlt

/-- The state after an operation was retired onto the wires `ws` of its qubits `ps`. -/
def retired (s : Router) (x : Nat) (o : Operation) (ps ws : List Nat) : Router :=
  { s with
    kernel := (s.kernel.rewired x o.operands ws).modifyOp x ({ · with physical := ps })
    onQubit := Current.moveTo s.onQubit ps (settled o ps)
    emitted := s.emitted.push x }

/-- The part of a retirement behind the occupation of the qubits. -/
theorem retired_eq {x : Nat} {o : Operation} {ps ws : List Nat}
    (hset : s.kernel.setOperands x ws = .ok (s.kernel.rewired x o.operands ws))
    (hlt : ∀ q ∈ ps, q < s.onQubit.size) :
    (do
      let k ← liftCircuit ((← get).kernel.setOperands x ws)
      modify fun s => { s with kernel := k }
      setPhysical x ps
      emit x
      settle o ps
      return true : Route Bool) s = .ok true (retired s x o ps ws) := by
  let k := (s.kernel.rewired x o.operands ws).modifyOp x ({ · with physical := ps })
  have hlift : (liftCircuit (s.kernel.setOperands x ws) : Route Kernel) s =
      .ok (s.kernel.rewired x o.operands ws) s := by
    rw [hset]
    rfl
  have hrewire : (modify ({ · with kernel := s.kernel.rewired x o.operands ws }) : Route Unit) s =
      .ok ⟨⟩ { s with kernel := s.kernel.rewired x o.operands ws } := rfl
  have hphysical : setPhysical x ps { s with kernel := s.kernel.rewired x o.operands ws } =
      .ok () { s with kernel := k } := rfl
  have hemit : emit x { s with kernel := k } =
      .ok () { s with kernel := k, emitted := s.emitted.push x } := rfl
  have hsettle : settle o ps { s with kernel := k, emitted := s.emitted.push x } =
      .ok () (retired s x o ps ws) :=
    settle_eq (s := { s with kernel := k, emitted := s.emitted.push x }) hlt
  rw [get_bind]
  refine (bind_of_eq hlift).trans ?_
  refine (bind_of_eq hrewire).trans ?_
  refine (bind_of_eq hphysical).trans ?_
  refine (bind_of_eq hemit).trans ?_
  exact bind_of_eq hsettle

/-- What the qubits of a retired operation hold are its results, one each, unless it is a sink. -/
theorem settled_spec {o : Operation} {ps : List Nat}
    (hresults : o.kind.isSink = false → o.results.length = ps.length) :
    (settled o ps).length = ps.length ∧
      (∀ j w : Nat, (settled o ps)[j]? = some (some w) → o.results[j]? = some w) ∧
      (none ∈ settled o ps → o.kind.isSink = true) := by
  unfold settled
  cases hsink : o.kind.isSink with
  | true =>
      refine ⟨List.length_map _, fun j w hj => ?_, fun _ => rfl⟩
      obtain ⟨q, -, hq⟩ := List.mem_map.mp (List.mem_of_getElem? hj)
      cases hq
  | false =>
      refine ⟨by simp [hresults hsink], fun j w hj => ?_, by simp⟩
      simpa using hj

/-- Between two states, an operation has been retired onto the qubits `ps`, after empty ones of them
got fresh wires. -/
structure Retired (k₀ : Kernel) (n x : Nat) (o : Operation) (ps : List Nat) (s s' : Router) :
    Prop where
  frame : Frame s s'
  wired : IsWired k₀ n s'
  placement : s'.placement = s.placement
  stats : s'.stats = s.stats
  trace : s'.kernel.trace s'.emitted.toList = s.kernel.trace s.emitted.toList ++ [⟨o.kind, ps⟩]
  emitted : ∃ s₁, AddsNew k₀ s s₁ ∧ s'.emitted = s₁.emitted.push x

/-- The retired operation is emitted, and of the original kernel nothing else. -/
theorem Retired.mem_iff {x y : Nat} {o : Operation} {ps : List Nat}
    (h : Retired k₀ n x o ps s s') (hy : y < k₀.ops.size) :
    y ∈ s'.emitted.toList ↔ y ∈ s.emitted.toList ∨ y = x := by
  obtain ⟨s₁, hnew, heq⟩ := h.emitted
  rw [heq, Array.toList_push, List.mem_append, List.mem_singleton, hnew.mem_iff hy]

theorem Retired.getLast? {x : Nat} {o : Operation} {ps : List Nat}
    (h : Retired k₀ n x o ps s s') : s'.emitted.toList.getLast? = some x := by
  obtain ⟨s₁, -, heq⟩ := h.emitted
  simp [heq]

section Retire

variable {r : ReadyOp} {o : Operation} {ps : List Nat}

/-- A blocked operation is left alone. -/
theorem retire_blocked (ho : s.kernel.op? r.op = some o)
    (hplaces : r.qubits.mapM placeOf s = .ok ps s) (hblocked : isBlocked task.device o ps = true) :
    retire task r s = .ok false s := by
  unfold retire
  rw [bind_of_eq hplaces, get_bind, ho]
  simp only [hblocked, ↓reduceIte]
  rfl

/-- An operation that is not blocked is retired. -/
theorem retire_spec (h : IsWired k₀ n s) (ho₀ : k₀.op? r.op = some o)
    (hnew : r.op ∉ s.emitted.toList) (hplaces : r.qubits.mapM placeOf s = .ok ps s)
    (hfree : isBlocked task.device o ps ≠ true) (hne : ps ≠ []) (hnodup : ps.Nodup)
    (hlt : ∀ q ∈ ps, q < n) (halloc : o.kind.isAlloc = false)
    (hoperands : o.operands.length = ps.length)
    (hresults : o.kind.isSink = false → o.results.length = ps.length) :
    Returns (retire task r) s fun done s' => done = true ∧ Retired k₀ n r.op o ps s s' := by
  unfold retire
  rw [returns_bind_of_eq hplaces, returns_get_bind, (h.pending _ hnew).trans ho₀]
  simp only [hfree, ↓reduceIte, Bool.false_eq_true]
  refine (occupyAll_spec ps h hlt).bind fun ws s₁ ⟨hfill, hws⟩ => ?_
  have hnew₁ : r.op ∉ s₁.emitted.toList := by
    rwa [hfill.emitted.mem_iff (Kernel.lt_of_op?_eq_some ho₀)]
  have ho := (hfill.wired.pending _ hnew₁).trans ho₀
  have hset : s₁.kernel.setOperands r.op ws = .ok (s₁.kernel.rewired r.op o.operands ws) := by
    refine Kernel.setOperands_eq_ok_iff.mpr ⟨fun w hw => ?_, o, ho, ?_, fun w hw => ?_, rfl⟩
    · obtain ⟨q, -, hq⟩ := forall₂_mem_right hws hw
      exact hfill.wired.wire_lt hq
    · rw [hoperands, hws.length_eq]
    · exact hfill.wired.consistent.operand r.op w (by rwa [Kernel.operandsOf_of_op? ho])
  obtain ⟨hsettledlen, hsettled, hvacant⟩ := settled_spec hresults
  obtain ⟨hemits, hwired⟩ := hfill.wired.retire hnew₁ ho halloc hne hnodup hlt hws hsettledlen
    hsettled hvacant
  have htrace := hemits.trace hnew₁
  rw [← Array.toList_push] at hwired htrace
  rw [returns_of_eq (retired_eq hset fun q hq => hfill.wired.qubits ▸ hlt q hq)]
  have hframe := hfill.frame
  refine ⟨rfl,
    { frame := ⟨hframe.frontier, hframe.front, hframe.involved, hframe.weights, hframe.rounds,
        hframe.releases⟩
      wired := hwired
      placement := hfill.placement
      stats := hfill.stats
      trace := ?_
      emitted := ⟨s₁, hfill.emitted, rfl⟩ }⟩
  rw [retired, htrace, ← hfill.trace]
  simp [halloc]

end Retire

/-! ## Steps on the kernel of a program -/

/-- The kernel is wired, `m` allocations and the instructions `done` are emitted, the placement
realizes `π`, each qubit has a weight, and this is how a run from `π₀` may stand. -/
structure Sound (task : RoutingTask) (p : Program) (k₀ : Kernel) (π₀ : Nat → Nat) (m : Nat)
    (done : List Nat) (π : Nat → Nat) (s : Router) : Prop where
  wired : Wired k₀ task.device.numQubits s.kernel s.onQubit s.emitted.toList
  visited : ∀ x < k₀.ops.size, x ∈ s.emitted.toList ↔ x ∈ p.visited m done
  placed : s.placement.Realizes task.device.numQubits π
  weights : s.decay.size = task.device.numQubits
  history : History task.device p π₀ done π (s.kernel.trace s.emitted.toList) s.stats.swaps

variable {p : Program} {π₀ : Nat → Nat} {m : Nat} {done : List Nat}

/-- Two adjacent qubits are exchanged by one more swap. -/
theorem Sound.insertSwap (h : Sound task p k₀ π₀ m done π s)
    (hadjacent : task.device.isAdjacent a b = true) :
    Returns (insertSwap a b) s fun _ s' => Frame s s' ∧
      Sound task p k₀ π₀ m done (fun v => Equiv.swap a b (π v)) s' ∧
      s'.stats.swaps = s.stats.swaps + 1 := by
  obtain ⟨ha, hb⟩ := task.device.isAdjacent_lt hadjacent
  refine (insertSwap_spec h.wired ha hb (task.device.isAdjacent_ne hadjacent)
    (h.placed.missed?_eq_none ha hb)).mono fun _ s' hswapped => ?_
  refine ⟨hswapped.frame, ⟨hswapped.wired, fun x hx => ?_, ?_, ?_, ?_⟩, hswapped.swaps⟩
  · rw [hswapped.emitted.mem_iff hx, h.visited x hx]
  · rw [hswapped.placement]
    exact h.placed.swap ha hb
  · rw [hswapped.frame.weights, h.weights]
  · rw [hswapped.trace, hswapped.swaps]
    exact h.history.swap hadjacent

/-- An instruction whose two qubits have to be adjacent but are not. -/
def Blocked (d : Device) (π : Nat → Nat) (ins : Instruction) : Prop :=
  ins.isConstrained = true ∧ ∃ u v, ins.qubits = [u, v] ∧ d.isAdjacent (π u) (π v) = false

theorem isBlocked_eq_true_iff {d : Device} {o : Operation} {ins : Instruction}
    (hkind : o.kind = ins.kind) : isBlocked d o (ins.qubits.map π) = true ↔ Blocked d π ins := by
  have hconstrained : o.isConstrained = ins.isConstrained := by
    rw [Operation.isConstrained, Instruction.isConstrained, hkind]
  unfold Blocked
  rcases ins.qubits with _ | ⟨u, _ | ⟨v, _ | ⟨w, rest⟩⟩⟩
  · simp [isBlocked]
  · simp [isBlocked]
  · simp [isBlocked, hconstrained]
  · simp [isBlocked]

/-- What needs adjacent qubits and is not blocked has them. -/
theorem isAdjacent_of_not_blocked {d : Device} {ins : Instruction} (hfree : ¬ Blocked d π ins)
    (hconstrained : ins.isConstrained = true) {a b : Nat} (hab : ins.qubits.map π = [a, b]) :
    d.isAdjacent a b = true := by
  by_contra hadjacent
  have hlen : ins.qubits.length = 2 := by simpa using congrArg List.length hab
  obtain ⟨u, v, huv⟩ := List.length_eq_two.mp hlen
  rw [huv] at hab
  cases hab
  exact hfree ⟨hconstrained, u, v, huv, by simpa using hadjacent⟩

section Instructions

variable {i : Nat} {ins : Instruction} {r : ReadyOp}

/-- An operation that waits is as in the original kernel. -/
theorem Sound.waiting_op (h : Sound task p k₀ π₀ m done π s)
    (hpad : Padded p task.device.numQubits k₀ task.labels) (hi : p.instructions[i]? = some ins)
    (hnew : i ∉ done) :
    p.numQubits + i ∉ s.emitted.toList ∧ ∃ o, s.kernel.op? (p.numQubits + i) = some o ∧
      k₀.op? (p.numQubits + i) = some o ∧
      Encodes p.numQubits (p.instructions.take i) (task.labels[·]?) k₀ ins o := by
  obtain ⟨o, ho, hencodes⟩ := hpad.instruction i ins hi
  have hilt := (List.getElem?_eq_some_iff.mp hi).1
  have hnot : p.numQubits + i ∉ s.emitted.toList := by
    rw [h.visited _ (Kernel.lt_of_op?_eq_some ho), Program.instruction_mem_visited hilt]
    exact hnew
  exact ⟨hnot, o, (h.wired.pending _ hnot).trans ho, ho, hencodes⟩

/-- A blocked instruction is left alone. -/
theorem Sound.retire_blocked (h : Sound task p k₀ π₀ m done π s)
    (hpad : Padded p task.device.numQubits k₀ task.labels) (hop : r.op = p.numQubits + i)
    (hi : p.instructions[i]? = some ins) (hqubits : r.qubits = ins.qubits) (hnew : i ∉ done)
    (hblocked : Blocked task.device π ins) : retire task r s = .ok false s := by
  obtain ⟨-, o, ho, -, hencodes⟩ := h.waiting_op hpad hi hnew
  have hplaces := placesOf_eq h.placed (hpad.qubits_lt hi)
  rw [← hop] at ho
  rw [← hqubits] at hplaces
  refine Router.retire_blocked ho hplaces ?_
  rw [hqubits]
  exact (isBlocked_eq_true_iff hencodes.kind).mpr hblocked

/-- An instruction that is not blocked is retired. -/
theorem Sound.retire (h : Sound task p k₀ π₀ m done π s)
    (hpad : Padded p task.device.numQubits k₀ task.labels) (hop : r.op = p.numQubits + i)
    (hi : p.instructions[i]? = some ins) (hqubits : r.qubits = ins.qubits) (hnew : i ∉ done)
    (hawaits : p.Awaits done i ins) (hne : ins.qubits ≠ [])
    (hfree : ¬ Blocked task.device π ins) :
    Returns (retire task r) s fun retired s' => retired = true ∧ Frame s s' ∧
      Sound task p k₀ π₀ m (done ++ [i]) π s' ∧ s'.stats = s.stats ∧
      s'.emitted.toList.getLast? = some r.op := by
  have hvalid := hpad.valid ins (List.mem_of_getElem? hi)
  have hlt := hpad.qubits_lt hi
  have hplaces := placesOf_eq h.placed hlt
  obtain ⟨hnot, o, -, ho₀, hencodes⟩ := h.waiting_op hpad hi hnew
  have halloc : o.kind.isAlloc = false := hencodes.kind ▸ hvalid.alloc
  rw [← hop] at hnot ho₀
  rw [← hqubits] at hplaces
  have hunblocked : isBlocked task.device o (r.qubits.map π) ≠ true := by
    rw [hqubits, ne_eq, isBlocked_eq_true_iff hencodes.kind]
    exact hfree
  have hretires := retire_spec h.wired ho₀ hnot hplaces hunblocked
  rw [hqubits] at hretires
  refine (hretires (by simpa using hne) ?_ ?_ halloc ?_ ?_).mono ?_
  · apply hvalid.nodup.map_on
    intro u hu v hv heq
    exact h.placed.inj (hlt u hu) (hlt v hv) heq
  · intro q hq
    obtain ⟨v, hv, rfl⟩ := List.mem_map.mp hq
    exact h.placed.lt v (hlt v hv)
  · rw [List.length_map, hencodes.operands.length_eq]
  · intro hsink
    have hlength := hencodes.results.length_eq
    rw [← hencodes.kind, hsink] at hlength
    simpa using hlength
  · rintro retired s' ⟨rfl, hretired⟩
    refine ⟨rfl, hretired.frame, ⟨hretired.wired, fun x hx => ?_, ?_, ?_, ?_⟩, hretired.stats,
      hretired.getLast?⟩
    · rw [hretired.mem_iff hx, h.visited x hx, Program.visited_append, List.mem_cons, or_comm, hop]
    · rw [hretired.placement]
      exact h.placed
    · rw [hretired.frame.weights, h.weights]
    · rw [hretired.trace, hretired.stats, hencodes.kind]
      exact h.history.retire hi hnew hawaits fun hconstrained a b hab =>
        isAdjacent_of_not_blocked hfree hconstrained hab

end Instructions

end QubitMapper.Router
