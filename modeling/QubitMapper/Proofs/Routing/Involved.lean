import QubitMapper.Proofs.Routing.Selection

/-!
# The involved qubits

The places of a blocked operation are noted in every round that leaves it, and they are forgotten
when qubits are moved. In between no qubit moves, so an operation that was blocked when it was noted
is blocked still, and waits. Where a run stalls, what is noted is therefore where the operations of
the layer are, all of them and no others.

## Main results

* `Router.retireLayer_marks`, `Router.round_marked`, `Router.turn_marked`: the steps of a run keep
  it so that what is noted belongs to blocked operations that wait.
* `Router.retireLayer_notes`: a layer of which nothing is retired is noted as a whole.
* `Router.Stalls.noted`: the two together.
* `Router.stall_involves_blocked`: what a stall is like.
-/

namespace QubitMapper.Router

variable {task : RoutingTask} {p : Program} {k₀ : Kernel} {π₀ π : Nat → Nat} {m : Nat}
  {done : List Nat} {waiting waiting' : List ReadyOp} {s s' : Router} {t : Tally} {r : ReadyOp}

/-! ## What is noted -/

/-- A ready operation is a blocked instruction. -/
def Held (d : Device) (p : Program) (π : Nat → Nat) (r : ReadyOp) : Prop :=
  ∃ i ins, r.op = p.numQubits + i ∧ p.instructions[i]? = some ins ∧ r.qubits = ins.qubits ∧
    Blocked d π ins

/-- The noted qubits are places of blocked operations that wait. -/
def Noted (task : RoutingTask) (p : Program) (π : Nat → Nat) (waiting : List ReadyOp)
    (s : Router) : Prop :=
  ∀ q ∈ s.involved, ∃ r ∈ waiting, q ∈ r.qubits.map π ∧ Held task.device p π r

/-- The state of a run, whatever has been done, with nothing noted but places of blocked
operations. -/
structure Marked (task : RoutingTask) (p : Program) (k₀ : Kernel) (π₀ : Nat → Nat) (m : Nat)
    (π : Nat → Nat) (waiting : List ReadyOp) (s : Router) : Prop where
  ready : ∃ done, Ready task p k₀ π₀ m done π waiting s
  noted : Noted task p π waiting s

theorem Marked.perm (h : Marked task p k₀ π₀ m π waiting s) (hperm : waiting.Perm waiting') :
    Marked task p k₀ π₀ m π waiting' s := by
  obtain ⟨done, hready⟩ := h.ready
  refine ⟨⟨done, hready.sound, hready.tracks.perm hperm⟩, fun q hq => ?_⟩
  obtain ⟨r, hr, hheld⟩ := h.noted q hq
  exact ⟨r, hperm.mem_iff.mp hr, hheld⟩

/-- Nothing is noted. -/
theorem Marked.of_nil (h : Ready task p k₀ π₀ m done π waiting s) (hnil : s.involved = []) :
    Marked task p k₀ π₀ m π waiting s :=
  ⟨⟨done, h⟩, fun q hq => by simp [hnil] at hq⟩

section Padded

variable (hpad : Padded p task.device.numQubits k₀ task.labels)

include hpad

/-- A blocked operation is left where it is, and its places are noted. -/
theorem Ready.noteHeld (h : Ready task p k₀ π₀ m done π (r :: waiting) s)
    (hheld : Held task.device p π r) : retire task r s = .ok false s ∧
      Ensures (noteBlocked task.device r) s fun _ s' =>
        s' = { s with involved := s.involved ++ r.qubits.map π } := by
  obtain ⟨i, ins, hop, hi, hqubits, hblocked⟩ := hheld
  obtain ⟨i', ins', hop', hi', -, hnew, -⟩ :=
    hpad.waiting_spec h.sound.history h.tracks (r := r) (by simp)
  obtain rfl : i' = i := Nat.add_left_cancel (hop'.symm.trans hop)
  refine ⟨h.sound.retire_blocked hpad hop hi hqubits hnew hblocked, ?_⟩
  obtain ⟨-, u, v, huv, -⟩ := hblocked
  have hlt := hpad.qubits_lt hi
  have hr : r.qubits = [u, v] := hqubits.trans huv
  refine (noteBlocked_spec h.sound hr (hlt u (by simp [huv]))
    (hlt v (by simp [huv]))).ensures.mono ?_
  rintro _ s' ⟨rfl, -⟩
  rw [hr]
  rfl

/-- An operation that is not blocked is retired and visited, and nothing is noted. -/
theorem Ready.retireFree (hmappable : ∀ ins ∈ p.instructions, ins.Mappable)
    (h : Ready task p k₀ π₀ m done π (r :: waiting) s) (hfree : ¬ Held task.device p π r) :
    Ensures (retire task r) s fun retired s₁ => retired = true ∧
      Ensures (visit task r.op) s₁ fun released s₂ => s₂.involved = s.involved ∧
        ∃ done', Ready task p k₀ π₀ m done' π (released ++ waiting) s₂ := by
  obtain ⟨i, ins, hop, hi, hqubits, hnew, hawaits⟩ :=
    hpad.waiting_spec h.sound.history h.tracks (r := r) (by simp)
  have hunblocked : ¬ Blocked task.device π ins := fun hblocked =>
    hfree ⟨i, ins, hop, hi, hqubits, hblocked⟩
  obtain ⟨s₁, f, released, hretire, hframe, -, hvisit, -, hready⟩ := h.retires hpad hop hi hqubits
    hnew hawaits (hmappable ins (List.mem_of_getElem? hi)).nonempty hunblocked
  refine Returns.ensures ((returns_of_eq hretire).mpr ⟨rfl, ?_⟩)
  exact Returns.ensures ((returns_of_eq hvisit).mpr ⟨hframe.involved, _, hready⟩)

/-- Trying a layer notes nothing but places of blocked operations. -/
theorem retireLayer_marks (hmappable : ∀ ins ∈ p.instructions, ins.Mappable)
    (layer : List ReadyOp) {others : List ReadyOp}
    (h : Marked task p k₀ π₀ m π (layer ++ others) s) :
    Ensures (retireLayer task layer) s fun out s' =>
      Marked task p k₀ π₀ m π (out.1 ++ others) s' := by
  refine retireLayer_ensures (fun hperm h => h.perm hperm) ?_ layer h
  rintro r rest s ⟨⟨done, hready⟩, hnoted⟩
  by_cases hheld : Held task.device p π r
  · obtain ⟨hretire, hnote⟩ := hready.noteHeld hpad hheld
    refine Returns.ensures ((returns_of_eq hretire).mpr ?_)
    refine hnote.mono ?_
    rintro _ s' rfl
    refine ⟨⟨done, hready.sound.congr rfl rfl rfl rfl rfl rfl, hready.tracks⟩, fun q hq => ?_⟩
    rcases List.mem_append.mp hq with hq | hq
    · exact hnoted q hq
    · exact ⟨r, List.mem_cons_self, hq, hheld⟩
  · refine (hready.retireFree hpad hmappable hheld).mono ?_
    rintro retired s₁ ⟨rfl, hvisit⟩
    refine Ensures.mono hvisit fun released s₂ ⟨hinvolved, hready'⟩ => ⟨hready', fun q hq => ?_⟩
    rw [hinvolved] at hq
    obtain ⟨r', hr', hmem, hheld'⟩ := hnoted q hq
    -- what was noted for the retired operation would have blocked it
    rcases List.mem_cons.mp hr' with rfl | hr'
    · exact absurd hheld' hheld
    · exact ⟨r', List.mem_append_right _ hr', hmem, hheld'⟩

/-- A layer of which nothing is retired stays as it is, and it is blocked and noted as a whole. -/
theorem retireLayer_notes (hmappable : ∀ ins ∈ p.instructions, ins.Mappable)
    (layer : List ReadyOp) : ∀ {s : Router} {others : List ReadyOp},
      Ready task p k₀ π₀ m done π (layer ++ others) s →
      Ensures (retireLayer task layer) s fun out s' => out.2 = false →
        out.1 = layer ∧ (∀ r ∈ layer, Held task.device p π r) ∧
          s'.involved = s.involved ++ layer.flatMap (·.qubits.map π) := by
  induction layer with
  | nil =>
      intro s others _
      exact fun _ => ⟨rfl, by simp, by simp⟩
  | cons r rest ih =>
      intro s others h
      unfold retireLayer
      by_cases hheld : Held task.device p π r
      · obtain ⟨hretire, hnote⟩ := h.noteHeld hpad hheld
        rw [ensures_bind_of_eq hretire]
        refine Ensures.bind hnote ?_
        rintro _ s₁ rfl
        -- the operation waits beside the others while the rest is tried
        have hready : Ready task p k₀ π₀ m done π (rest ++ r :: others)
            { s with involved := s.involved ++ r.qubits.map π } :=
          ⟨h.sound.congr rfl rfl rfl rfl rfl rfl, h.tracks.perm List.perm_middle.symm⟩
        refine (ih hready).bind fun out s₂ hout => ensures_pure.mpr fun hnone => ?_
        obtain ⟨hlayer, hall, hinvolved⟩ := hout hnone
        refine ⟨congrArg (r :: ·) hlayer, List.forall_mem_cons.mpr ⟨hheld, hall⟩, ?_⟩
        rw [hinvolved, List.append_assoc, List.flatMap_cons]
      · refine (h.retireFree hpad hmappable hheld).bind ?_
        rintro _ s₁ ⟨rfl, -⟩
        simp only [↓reduceIte]
        exact Ensures.bind meets_true fun released s₂ _ =>
          Ensures.bind meets_true fun out s₃ _ => ensures_pure.mpr fun hnone => by cases hnone

/-! ## Rounds and turns -/

/-- A round of a run. If nothing of its layer is retired, the layer stays, and it is blocked and
noted as a whole. -/
theorem round_marked (hmappable : ∀ ins ∈ p.instructions, ins.Mappable)
    (h : Marked task p k₀ π₀ m π s.front s) : Ensures (round task) s fun progress s' =>
      Marked task p k₀ π₀ m π s'.front s' ∧
        (progress = false → s'.front = s.front ∧ (∀ r ∈ s.front, Held task.device p π r) ∧
          s'.involved = s.involved ++ s.front.flatMap (·.qubits.map π)) := by
  obtain ⟨⟨done, hready⟩, hnoted⟩ := h
  have hbegun : Ready task p k₀ π₀ m done π (s.front ++ []) (begun s) := by
    rw [List.append_nil]
    exact ⟨hready.sound.congr rfl rfl rfl rfl rfl rfl, hready.tracks⟩
  have hmarked : Marked task p k₀ π₀ m π (s.front ++ []) (begun s) := by
    refine ⟨⟨done, hbegun⟩, ?_⟩
    rwa [List.append_nil]
  have hset : (set (begun s) : Route PUnit) s = .ok ⟨⟩ (begun s) := rfl
  have hlayer := (retireLayer_marks hpad hmappable s.front hmarked).and
    (retireLayer_notes hpad hmappable s.front hbegun)
  unfold round
  rw [ensures_get_bind]
  refine (ensures_bind_of_eq hset).mpr ?_
  refine hlayer.bind ?_
  rintro ⟨next, progress⟩ s₁ ⟨⟨⟨done', hready'⟩, hnoted'⟩, hnotes⟩
  rw [List.append_nil] at hready' hnoted'
  exact ⟨⟨⟨done', hready'.sound.congr rfl rfl rfl rfl rfl rfl, hready'.tracks⟩, hnoted'⟩, hnotes⟩

omit hpad in
/-- A release forgets what was noted. -/
theorem release_clears {u v : Nat} (hoperation : s.front.head?.map (·.qubits) = some [u, v]) :
    Ensures (release task) s fun _ s' => s'.involved = [] := by
  unfold release
  rw [ensures_get_bind, hoperation]
  refine Ensures.bind (placeOf_ensures u) ?_
  rintro a s rfl
  refine Ensures.bind (placeOf_ensures v) ?_
  rintro b s rfl
  dsimp only
  split
  · trivial
  · exact Ensures.bind meets_true fun _ s₁ _ => rfl

/-- A blocked layer is unblocked, and what was noted is forgotten. -/
theorem unblock_marked (h : Ready task p k₀ π₀ task.device.numQubits done π s.front s)
    (hne : s.front ≠ []) (hstuck : ∀ r ∈ s.front, Stuck task.device π₀ π s.involved r) :
    Ensures (unblock task t) s fun _ s' =>
      ∃ π', Marked task p k₀ π₀ task.device.numQubits π' s'.front s' := by
  obtain ⟨r, rest, hfront⟩ := List.exists_cons_of_ne_nil hne
  have hr : r ∈ s.front := by simp [hfront]
  unfold unblock
  split
  · obtain ⟨u, v, hqubits, -⟩ := hstuck r hr
    have hoperation : s.front.head?.map (·.qubits) = some [u, v] := by simp [hfront, hqubits]
    have hrelease := (release_spec h hpad hfront (hstuck r hr)).ensures.and
      (release_clears hoperation)
    refine hrelease.bind ?_
    rintro _ s' ⟨⟨hfront', -, -, -, -, π', hready, -⟩, hnil⟩
    exact ⟨π', .of_nil (hfront' ▸ hready) hnil⟩
  · refine Ensures.bind (chooseSwap_spec h hpad (hstuck r hr) hr).ensures ?_
    rintro ⟨a, b⟩ _ ⟨⟨f, hsame, rfl⟩, hadjacent⟩
    refine Ensures.bind (h.swaps hsame hadjacent).ensures ?_
    rintro _ s₁ ⟨-, -, hready⟩
    refine Ensures.bind (m := fun _ s₂ => s₂ = ({ s₁ with involved := [] } : Router)) rfl ?_
    rintro _ _ rfl
    refine Ensures.bind (updateDecay_ensures task.options (t.searches + 1) a b) ?_
    rintro _ _ ⟨decay, hsize, rfl⟩
    exact ⟨_, .of_nil (hready [] decay hsize) rfl⟩

/-- A turn of a run. -/
theorem turn_marked (hmappable : ∀ ins ∈ p.instructions, ins.Mappable)
    (h : Marked task p k₀ π₀ task.device.numQubits π s.front s) :
    Ensures (turn task t) s fun _ s' =>
      ∃ π', Marked task p k₀ π₀ task.device.numQubits π' s'.front s' := by
  obtain ⟨⟨done, hready⟩, hnoted⟩ := id h
  unfold turn
  rw [ensures_get_bind]
  by_cases hempty : s.front = []
  · have hisEmpty : s.front.isEmpty = true := by simp [hempty]
    rw [if_pos hisEmpty]
    split
    · exact ensures_pure.mpr ⟨π, h⟩
    · -- nothing waits for which anything could have been noted
      have hnil : s.involved = [] := by
        refine List.eq_nil_iff_forall_not_mem.mpr fun q hq => ?_
        obtain ⟨r, hr, -⟩ := hnoted q hq
        simp [hempty] at hr
      have htracks := hready.tracks
      rw [hempty] at htracks
      exact ⟨π, .of_nil ⟨hready.sound.congr rfl rfl rfl rfl rfl rfl, htracks.enterMeasurement⟩ hnil⟩
  · have hisEmpty : ¬ s.front.isEmpty = true := by simpa using hempty
    rw [if_neg hisEmpty]
    refine ((round_spec hready hpad hmappable).ensures.and
      (round_marked hpad hmappable h)).bind ?_
    rintro progress s₁ ⟨htried, hmarked, -⟩
    cases progress with
    | true => exact ensures_pure.mpr ⟨π, hmarked⟩
    | false =>
        obtain ⟨hfront, hready', hstuck⟩ := htried.idle
        exact (unblock_marked hpad hready' (hfront ▸ hempty) hstuck).bind fun _ _ h => h

/-! ## Runs -/

omit hpad in
/-- Placing an allocation notes nothing. -/
theorem placeSource_involved (source : Nat) (s : Router) : Ensures (placeSource task source) s
    fun _ s' => s'.involved = s.involved := by
  unfold placeSource
  rw [ensures_get_bind]
  split
  · trivial
  · split
    · trivial
    · refine (placeOf_ensures _).bind ?_
      rintro q s rfl
      refine (visit_ensures source s).bind ?_
      rintro released _ ⟨f, rfl⟩
      refine Ensures.bind (m := fun _ s' => s'.involved = s.involved) ?_ fun _ s₁ h₁ => ?_
      · exact rfl
      · refine (setWire_ensures _ _ s₁).bind ?_
        rintro _ _ rfl
        exact h₁

omit hpad in
theorem placeSources_involved (sources : List Nat) : ∀ s : Router,
    Ensures (sources.forM (placeSource task)) s fun _ s' => s'.involved = s.involved := by
  induction sources with
  | nil => exact fun _ => rfl
  | cons x rest ih =>
      intro s
      exact (placeSource_involved x s).bind fun _ s₁ h₁ => (ih s₁).mono fun _ _ h => h.trans h₁

variable {placement : Placement} (hmappable : ∀ ins ∈ p.instructions, ins.Mappable)
  (hplaced : placement.Realizes task.device.numQubits π₀)

include hmappable hplaced

/-- Between two turns of a run, what is noted belongs to blocked operations of the layer. -/
theorem Reaches.marked
    (h : Reaches task ((List.range task.device.numQubits).map p.sourceOp)
      (start k₀ placement task.device) t s) :
    ∃ π, Marked task p k₀ π₀ task.device.numQubits π s.front s := by
  induction h with
  | @placed s hs =>
      have hnil : s.involved = [] := (placeSources_involved _ _).of_ok hs
      exact ⟨π₀, .of_nil ((placed_ready hpad hplaced).ensures.of_ok hs).1 hnil⟩
  | turn _ hturn ih =>
      obtain ⟨π, hmarked⟩ := ih
      exact (turn_marked hpad hmappable hmarked).of_ok hturn

/-- Where a run stalls, everything in its layer is blocked and stuck, and what is noted are the
places of its operations. -/
theorem Stalls.noted
    (h : Stalls task ((List.range task.device.numQubits).map p.sourceOp)
      (start k₀ placement task.device) s) :
    ∃ done π, Ready task p k₀ π₀ task.device.numQubits done π s.front s ∧ s.front ≠ [] ∧
      (∀ r ∈ s.front, Held task.device p π r ∧ Stuck task.device π₀ π s.involved r) ∧
      ∀ q, q ∈ s.involved ↔ ∃ r ∈ s.front, q ∈ r.qubits.map π := by
  obtain ⟨t, s₁, hreaches, hne, hround⟩ := h
  obtain ⟨π, hmarked⟩ := hreaches.marked hpad hmappable hplaced
  obtain ⟨done, hready₁⟩ := hmarked.ready
  obtain ⟨hfront, hready, hstuck⟩ :=
    ((round_spec hready₁ hpad hmappable).of_ok hround).idle
  obtain ⟨⟨-, hnoted⟩, hnotes⟩ := (round_marked hpad hmappable hmarked).of_ok hround
  obtain ⟨-, hheld, hinvolved⟩ := hnotes rfl
  refine ⟨done, π, hready, hfront ▸ hne, fun r hr => ⟨hheld r (hfront ▸ hr), hstuck r hr⟩,
    fun q => ⟨fun hq => ?_, fun ⟨r, hr, hq⟩ => ?_⟩⟩
  · obtain ⟨r, hr, hmem, -⟩ := hnoted q hq
    exact ⟨r, hr, hmem⟩
  · -- whatever had been noted before, this round has noted the whole layer
    rw [hinvolved, ← hfront]
    exact List.mem_append_right _ (List.mem_flatMap.mpr ⟨r, hr, hq⟩)

end Padded

/-! ## What a stall is like -/

/-- The operation `r` is `o`, a supported operation other than a measurement, between two virtual
qubits whose places are two steps or more from each other. -/
structure Distant (task : RoutingTask) (s : Router) (r : ReadyOp) (o : Operation) (u v : Nat) :
    Prop where
  op : s.kernel.op? r.op = some o
  supported : o.kind.isSupported = true
  measure : o.kind.isMeasure = false
  labels : o.operands.mapM (task.labels[·]?) = some [u, v]
  qubits : r.qubits = [u, v]
  ne : u ≠ v
  places : ∃ a b k, s.placement.physical? u = some a ∧ s.placement.physical? v = some b ∧
    task.device.distance? a b = some k ∧ 2 ≤ k

/-- What the state is like in which a way is to be made for a blocked layer, by a swap or by a
release. -/
structure Standstill (task : RoutingTask) (s : Router) : Prop where
  waits : s.front ≠ []
  distant : ∀ r ∈ s.front, ∃ o u v, Distant task s r o u v
  /-- The involved qubits are the places of the operations of the layer, and no others. -/
  noted : ∀ q, q ∈ s.involved ↔
    ∃ r ∈ s.front, ∃ v ∈ r.qubits, s.placement.physical? v = some q
  /-- There is a swap to choose, and one is chosen. -/
  chooses : candidates task.device s.involved ≠ [] ∧ ∃ c s', chooseSwap task s = .ok c s' ∧
    c ∈ candidates task.device s.involved
  /-- The oldest operation is one on two qubits, and it can be brought together. -/
  releases : (∃ u v, s.front.head?.map (·.qubits) = some [u, v]) ∧
    Returns (release task) s fun _ s' => s'.stats.releases = s.stats.releases + 1

/-- A blocked operation that is stuck is one between distant qubits. -/
theorem Ready.distant (h : Ready task p k₀ π₀ m done π s.front s)
    (hpad : Padded p task.device.numQubits k₀ task.labels) (hmem : r ∈ s.front)
    (hheld : Held task.device p π r) (hstuck : Stuck task.device π₀ π s.involved r) :
    ∃ o u v, Distant task s r o u v := by
  obtain ⟨i, ins, hop, hi, hqubits, hnew, -⟩ :=
    hpad.waiting_spec h.sound.history h.tracks (List.mem_append_left _ hmem)
  obtain ⟨i', ins', hop', hi', -, hconstrained, -⟩ := hheld
  obtain rfl : i = i' := Nat.add_left_cancel (hop.symm.trans hop')
  obtain rfl : ins = ins' := Option.some.inj (hi.symm.trans hi')
  obtain ⟨-, o, ho, -, hencodes⟩ := h.sound.waiting_op hpad hi hnew
  obtain ⟨u, v, huv, hne, hapart, hjoined, -⟩ := hstuck
  rw [Instruction.isConstrained, ← hencodes.kind, Bool.and_eq_true,
    Bool.not_eq_true'] at hconstrained
  have hlabels : o.operands.mapM (task.labels[·]?) = some ins.qubits :=
    mapM_eq_some_iff.mpr (hencodes.operands.imp fun _ _ h => h.1)
  have hlt := h.qubits_lt hpad r hmem
  have hu : u < task.device.numQubits := hlt u (by simp [huv])
  have hv : v < task.device.numQubits := hlt v (by simp [huv])
  have hplaced := h.sound.placed
  have hway := (task.device.distance?_isSome_iff (b := π v) (hplaced.lt u hu)).mpr
    ((joined_iff h.sound.history u v).mpr hjoined)
  obtain ⟨k, hk⟩ := Option.isSome_iff_exists.mp hway
  have hfar : 2 ≤ k := Device.two_le_of_distance?_eq_some hk
    (fun heq => hne (hplaced.inj hu hv heq)) hapart
  exact ⟨o, u, v,
    { op := hop ▸ ho
      supported := hconstrained.1
      measure := hconstrained.2
      labels := by rw [hlabels, ← hqubits, huv]
      qubits := huv
      ne := hne
      places := ⟨π u, π v, k, hplaced.physical? hu, hplaced.physical? hv, hk, hfar⟩ }⟩

/-- Where a run over the kernel of a program stalls, its layer is blocked as a whole, and it is what
has been noted. -/
theorem Stalls.standstill {placement : Placement}
    (hpad : Padded p task.device.numQubits k₀ task.labels)
    (hmappable : ∀ ins ∈ p.instructions, ins.Mappable)
    (hplaced : placement.Realizes task.device.numQubits π₀)
    (h : Stalls task ((List.range task.device.numQubits).map p.sourceOp)
      (start k₀ placement task.device) s) : Standstill task s := by
  obtain ⟨done, π, hready, hne, hall, hinvolved⟩ := h.noted hpad hmappable hplaced
  obtain ⟨r, rest, hfront⟩ := List.exists_cons_of_ne_nil hne
  have hr : r ∈ s.front := by simp [hfront]
  have hstuck := (hall r hr).2
  obtain ⟨u, v, hqubits, -⟩ := id hstuck
  obtain ⟨c, s', hchosen, -⟩ := returns_iff.mp (chooseSwap_spec hready hpad hstuck hr)
  have hmem : c ∈ candidates task.device s.involved :=
    ((chooseSwap_same hready.sound.placed.isBijective hready.sound.weights.ge).of_ok hchosen).2
  refine
    { waits := hne
      distant := fun r hr => hready.distant hpad hr (hall r hr).1 (hall r hr).2
      noted := fun q => ?_
      chooses := ⟨List.ne_nil_of_mem hmem, c, s', hchosen, hmem⟩
      releases := ⟨⟨u, v, by simp [hfront, hqubits]⟩,
        (release_spec hready hpad hfront hstuck).mono fun _ _ h => h.2.2.2.1⟩ }
  rw [hinvolved]
  refine exists_congr fun r => and_congr_right fun hr => ?_
  rw [List.mem_map]
  refine exists_congr fun v => and_congr_right fun hv => ?_
  rw [hready.sound.placed.physical? (hready.qubits_lt hpad r hr v hv), Option.some.injEq]

/-- Whenever a run over the kernel of a program is about to search for a swap or to release its
oldest operation, every operation of its layer is a supported one between two qubits at a distance
of two or more, and the involved qubits are the places of these operations exactly. So there is a
swap to choose and a pair to bring together, on every device and from every full placement. -/
theorem stall_involves_blocked (p : Program) (k : Kernel) (l l' : Labelling) (d : Device)
    (options : Options) (props : Properties) (c : Compilation) (placement : Placement) (s : Router)
    (hk : p.lower = .ok k) (hl : Labelling.ofKernel k = .ok l) (hn : l.sources.size ≤ d.numQubits)
    (hfilled : Mapping.insertAncillas l (Mapping.ancillaPosition k) (d.numQubits - l.sources.size)
      ⟨k, props⟩ = .ok l' c)
    (hplaces : placement.places.size = d.numQubits)
    (hholders : placement.holders.size = d.numQubits) (hcomplete : placement.isComplete = true)
    (hbijective : placement.isBijective = true)
    (h : Stalls ⟨d, l'.labels, options⟩ l'.sources.toList (start c.kernel placement d) s) :
    Standstill ⟨d, l'.labels, options⟩ s := by
  obtain ⟨-, hmappable, hreturns⟩ := Mapping.padding_spec props hk hl hn
  rw [returns_of_eq hfilled] at hreturns
  obtain ⟨hpad, hsources, -⟩ := hreturns
  obtain ⟨π₀, hplaced⟩ := Placement.exists_realizes hplaces hholders hcomplete hbijective
  rw [hsources] at h
  exact h.standstill hpad hmappable hplaced

/-- Three qubits, two of them measured before a gate on the outer two and one on the middle one. -/
def measuredPair : Program where
  name := "measured pair"
  numQubits := 3
  instructions := [⟨.measure (some "c"), [0]⟩, ⟨.measure (some "c"), [1]⟩,
    ⟨.gate "cx" [], [0, 2]⟩, ⟨.gate "h" [], [1]⟩]

/-- On a path both gates wait for the measurement phase. The round that retires the one on the
middle qubit notes the places of the other, the next one stalls and notes them again, and the other
gate is all that is noted. -/
theorem stall_involves_blocked_measuredPair :
    ∃ k l l' c s, measuredPair.lower = .ok k ∧ Labelling.ofKernel k = .ok l ∧
      Mapping.insertAncillas l (Mapping.ancillaPosition k) 0 ⟨k, .empty⟩ = .ok l' c ∧
      Stalls ⟨.line, l'.labels, {}⟩ l'.sources.toList
        (start c.kernel ⟨#[some 0, some 1, some 2], #[some 0, some 1, some 2]⟩ .line) s ∧
      s.frontier.measuring = true ∧ s.front = [⟨5, [0, 2]⟩] ∧ s.involved = [0, 2, 0, 2] ∧
      Standstill ⟨.line, l'.labels, {}⟩ s := by
  have hcomputed : (do
      let k ← measuredPair.lower.toOption
      let l ← (Labelling.ofKernel k).toOption
      let filled ← ended? (Mapping.insertAncillas l (Mapping.ancillaPosition k) 0 ⟨k, .empty⟩)
      let task : RoutingTask := ⟨.line, filled.1.labels, {}⟩
      let placed ← ended? (filled.1.sources.toList.forM (placeSource task)
        (start filled.2.kernel ⟨#[some 0, some 1, some 2], #[some 0, some 1, some 2]⟩ .line))
      let entered ← ended? (turn task {} placed.2)
      let t₁ ← entered.1
      let measured ← ended? (turn task t₁ entered.2)
      let t₂ ← measured.1
      let partly ← ended? (turn task t₂ measured.2)
      let _ ← partly.1
      let tried ← ended? (round task partly.2)
      return (l.sources.size != 3 || partly.2.front.isEmpty || tried.1 ||
        !tried.2.frontier.measuring, tried.2.front, tried.2.involved)) =
        some (false, [⟨5, [0, 2]⟩], [0, 2, 0, 2]) := by
    decide +kernel
  simp only [bind, pure, Option.bind_eq_some_iff, Except.toOption_eq_some, ended?_eq_some,
    Option.some.injEq, Prod.mk.injEq, Bool.or_eq_false_iff, bne_eq_false_iff_eq,
    Bool.not_eq_false'] at hcomputed
  obtain ⟨k, hk, l, hl, filled, hfilled, placed, hplaced, entered, hentered, t₁, ht₁,
    measured, hmeasured, t₂, ht₂, partly, hpartly, t₃, ht₃, tried, htried,
    ⟨⟨⟨hsize, hfront⟩, hround⟩, hmeasuring⟩, hleft, hinvolved⟩ := hcomputed
  rw [ht₁] at hentered
  rw [ht₂] at hmeasured
  rw [ht₃] at hpartly
  have hreaches : Reaches ⟨.line, filled.1.labels, {}⟩ filled.1.sources.toList
      (start filled.2.kernel ⟨#[some 0, some 1, some 2], #[some 0, some 1, some 2]⟩ .line)
        t₃ partly.2 :=
    .turn (.turn (.turn (.placed hplaced) hentered) hmeasured) hpartly
  have hstalls : Stalls ⟨.line, filled.1.labels, {}⟩ filled.1.sources.toList
      (start filled.2.kernel ⟨#[some 0, some 1, some 2], #[some 0, some 1, some 2]⟩ .line)
        tried.2 := by
    refine ⟨t₃, partly.2, hreaches, by simpa using hfront, ?_⟩
    rw [htried, hround]
  exact ⟨k, l, filled.1, filled.2, tried.2, hk, hl, hfilled, hstalls, hmeasuring, hleft, hinvolved,
    stall_involves_blocked measuredPair k l filled.1 .line {} .empty filled.2 _ tried.2 hk hl
      (by rw [hsize]; decide) (by rw [hsize]; exact hfilled) rfl rfl (by decide +kernel) (by decide)
      hstalls⟩

end QubitMapper.Router
