import QubitMapper.Proofs.Routing.Steps

/-!
# Layers of operations

A layer is tried operation by operation: what is not blocked is retired and releases others, and
what is blocked waits on. `Ready` says that the operations that wait are those whose turn has come.

## Main results

* `Router.placeSource_spec`: the allocations of the circuit are placed.
* `Router.retireLayer_ensures`: what each operation of a layer keeps, trying the layer keeps.
* `Router.retireLayer_spec`: a layer is tried without a failure, unless it holds an operation on two
  qubits in different parts of the device; where nothing was retired, everything in it is blocked.
-/

namespace QubitMapper.Router

/-- The state is sound and the frontier is in step with it; `waiting` are the operations whose turn
has come. -/
structure Ready (task : RoutingTask) (p : Program) (k₀ : Kernel) (π₀ : Nat → Nat) (m : Nat)
    (done : List Nat) (π : Nat → Nat) (waiting : List ReadyOp) (s : Router) : Prop where
  sound : Sound task p k₀ π₀ m done π s
  tracks : Tracks k₀ task.labels (p.visited m done) s.frontier waiting

variable {task : RoutingTask} {p : Program} {k₀ : Kernel} {π₀ π : Nat → Nat} {m : Nat}
  {done : List Nat} {waiting : List ReadyOp} {s s' : Router}

/-- Soundness does not depend on what waits and on what has been noted. -/
theorem Sound.congr (h : Sound task p k₀ π₀ m done π s) (hkernel : s'.kernel = s.kernel)
    (hqubits : s'.onQubit = s.onQubit) (hemitted : s'.emitted = s.emitted)
    (hplacement : s'.placement = s.placement) (hweights : s'.decay.size = s.decay.size)
    (hswaps : s'.stats.swaps = s.stats.swaps) : Sound task p k₀ π₀ m done π s' where
  wired := by
    rw [hkernel, hqubits, hemitted]
    exact h.wired
  visited := by
    rw [hemitted]
    exact h.visited
  placed := by
    rw [hplacement]
    exact h.placed
  weights := hweights.trans h.weights
  history := by
    rw [hkernel, hemitted, hswaps]
    exact h.history

/-! ## Visits -/

/-- A visit changes nothing but the frontier. -/
theorem visit_ensures (y : Nat) (s : Router) : Ensures (visit task y) s fun _ s' =>
    ∃ f, s' = { s with frontier := f } := by
  unfold visit
  rw [ensures_get_bind]
  cases s.frontier.visit s.kernel task.labels y with
  | error e => trivial
  | ok out => exact ⟨out.1, rfl⟩

/-- The visit of an operation whose results nothing emitted consumes: its consumers that are not
emitted are reached, as often as they have its results among their operands. -/
theorem visit_eq {y : Nat} {o₀ : Operation}
    (h : Fed k₀ s.kernel s.onQubit s.emitted.toList) (ho₀ : k₀.op? y = some o₀)
    (hlast : y ∉ s.emitted.toList ∨ s.emitted.toList.getLast? = some y) :
    ∃ us, visit task y s =
        .ok (s.frontier.reachAll k₀ task.labels .retire us).2
          { s with frontier := (s.frontier.reachAll k₀ task.labels .retire us).1 } ∧
      ∀ x, us.count x =
        if x ∈ s.emitted.toList then 0 else (k₀.operandsOf x).countP (· ∈ o₀.results) := by
  obtain ⟨o, ho, -, hresults⟩ := h.old y o₀ ho₀
  obtain ⟨us, hus, hcount⟩ := h.users_spec ho hlast
  rw [hresults] at hcount
  refine ⟨us, ?_, hcount⟩
  have hpending : ∀ x ∈ us, s.kernel.op? x = k₀.op? x := by
    intro x hx
    apply h.pending x
    intro hmem
    have := List.count_pos_iff.mpr hx
    rw [hcount, if_pos hmem] at this
    exact Nat.lt_irrefl 0 this
  have hvisit : s.frontier.visit s.kernel task.labels y =
      .ok (s.frontier.reachAll k₀ task.labels .retire us) := by
    rw [Frontier.visit, hus, ← Frontier.reachAll_congr us hpending]
    rfl
  unfold visit
  rw [get_bind, hvisit]
  rfl

/-- The visit of an operation of a padded kernel. -/
theorem Sound.visit_eq (h : Sound task p k₀ π₀ m done π s)
    (hpad : Padded p task.device.numQubits k₀ task.labels) {y : Nat} (hy : y < k₀.ops.size)
    (hlast : y ∉ s.emitted.toList ∨ s.emitted.toList.getLast? = some y) :
    ∃ us, visit task y s =
        .ok (s.frontier.reachAll k₀ task.labels .retire us).2
          { s with frontier := (s.frontier.reachAll k₀ task.labels .retire us).1 } ∧
      ∀ x, us.count x = if x ∈ p.visited m done then 0
        else (k₀.operandsOf x).countP (· ∈ k₀.resultsOf y) := by
  obtain ⟨o₀, ho₀⟩ := hpad.exists_op hy
  obtain ⟨us, hvisit, hcount⟩ := Router.visit_eq h.wired.toFed ho₀ hlast
  refine ⟨us, hvisit, fun x => ?_⟩
  rw [hcount, Kernel.resultsOf_of_op? ho₀]
  by_cases hx : x < k₀.ops.size
  · simp only [h.visited x hx]
  · have hnil : k₀.operandsOf x = [] := by
      simp [Kernel.operandsOf, Kernel.op?_eq_none_of_le (Nat.not_lt.mp hx)]
    simp [hnil]

/-- An operation that has just been retired is visited. -/
theorem visit_spec (h : Sound task p k₀ π₀ m (done ++ [i]) π s)
    (hpad : Padded p task.device.numQubits k₀ task.labels) {r : ReadyOp}
    (hop : r.op = p.numQubits + i)
    (htracks : Tracks k₀ task.labels (p.visited m done) s.frontier (r :: waiting))
    (hlast : s.emitted.toList.getLast? = some r.op) :
    ∃ f released, visit task r.op s = .ok released { s with frontier := f } ∧
      f.measuring = s.frontier.measuring ∧
      Ready task p k₀ π₀ m (done ++ [i]) π (released ++ waiting) { s with frontier := f } := by
  have hi : i < p.instructions.length := h.history.lt_length i (by simp)
  have hle := hpad.le
  obtain ⟨us, hvisit, hcount⟩ := h.visit_eq hpad (y := r.op) (by rw [hpad.ops, hop]; omega)
    (.inr hlast)
  refine ⟨_, _, hvisit, Frontier.measuring_reachAll us _, h.congr rfl rfl rfl rfl rfl rfl, ?_⟩
  refine htracks.visit_waiting hpad.consistent (fun x => ?_) hcount
  rw [Program.visited_append, ← hop, List.mem_cons, or_comm]

/-! ## Allocations -/

/-- The state after an allocation was placed. -/
def sourced (s : Router) (f : Frontier) (released : List ReadyOp) (x w q : Nat) : Router :=
  { s with
    kernel := s.kernel.modifyOp x ({ · with physical := [q] })
    frontier := f
    front := s.front ++ released
    onQubit := s.onQubit.setIfInBounds q (some w)
    emitted := s.emitted.push x }

theorem placeSource_eq {x w v q : Nat} {o : Operation} {f : Frontier}
    {released : List ReadyOp} (hop : s.kernel.op? x = some o) (hresults : o.results = [w])
    (hlabel : task.labels[w]? = some v) (hplace : placeOf v s = .ok q s)
    (hvisit : visit task x s = .ok released { s with frontier := f }) (hq : q < s.onQubit.size) :
    placeSource task x s = .ok () (sourced s f released x w q) := by
  have hhead : (s.kernel.op? x).bind (·.results.head?) = some w := by
    rw [hop, Option.bind_some, hresults]
    rfl
  have hwire : setWire q (some w) { s with frontier := f, front := s.front ++ released } =
      .ok () { s with
        frontier := f
        front := s.front ++ released
        onQubit := s.onQubit.setIfInBounds q (some w) } :=
    setWire_eq (s := { s with frontier := f, front := s.front ++ released }) hq _
  unfold placeSource
  rw [get_bind, hhead]
  simp only [hlabel]
  refine (bind_of_eq hplace).trans ?_
  refine (bind_of_eq hvisit).trans ?_
  have hfront : (modify fun s => { s with front := s.front ++ released } : Route Unit)
      { s with frontier := f } =
      .ok ⟨⟩ { s with frontier := f, front := s.front ++ released } := rfl
  refine (bind_of_eq hfront).trans ?_
  exact bind_of_eq hwire

/-- The places of the virtual qubits from `m` on are empty. -/
def EmptyFrom (n m : Nat) (π : Nat → Nat) (onQubit : Current) : Prop :=
  ∀ v, m ≤ v → v < n → onQubit[π v]? = some none

/-- An allocation of the circuit is placed. -/
theorem placeSource_spec (h : Ready task p k₀ π₀ m [] π s.front s)
    (hpad : Padded p task.device.numQubits k₀ task.labels) (hm : m < task.device.numQubits)
    (hempty : EmptyFrom task.device.numQubits m π s.onQubit) :
    Returns (placeSource task (p.sourceOp m)) s fun _ s' =>
      Ready task p k₀ π₀ (m + 1) [] π s'.front s' ∧ s'.stats = s.stats ∧
      s'.frontier.measuring = s.frontier.measuring ∧
      EmptyFrom task.device.numQubits (m + 1) π s'.onQubit := by
  obtain ⟨w, hlabel, ho₀⟩ := hpad.source m hm
  have hlt := Kernel.lt_of_op?_eq_some ho₀
  have hnew : p.sourceOp m ∉ p.visited m [] := by
    rw [Program.source_mem_visited (by simp)]
    exact Nat.lt_irrefl m
  have hnot : p.sourceOp m ∉ s.emitted.toList := by
    rw [h.sound.visited _ hlt]
    exact hnew
  have ho := (h.sound.wired.pending _ hnot).trans ho₀
  obtain ⟨us, hvisit, hcount⟩ := h.sound.visit_eq hpad hlt (.inl hnot)
  have hπ : π m < task.device.numQubits := h.sound.placed.lt m hm
  have hplaced := placeSource_eq ho rfl hlabel (placeOf_eq h.sound.placed hm) hvisit
    (h.sound.wired.qubits ▸ hπ)
  obtain ⟨hemits, hwired⟩ := h.sound.wired.place hnot ho rfl rfl rfl (hempty m (Nat.le_refl m) hm)
  rw [returns_of_eq hplaced]
  refine ⟨⟨⟨?_, ?_, h.sound.placed, h.sound.weights, ?_⟩, ?_⟩, rfl,
    Frontier.measuring_reachAll us _, ?_⟩
  · rw [sourced, Array.toList_push]
    exact hwired
  · intro x hx
    rw [sourced, Array.toList_push, List.mem_append, List.mem_singleton, h.sound.visited x hx,
      Program.visited_succ, List.mem_cons, or_comm]
  · show History _ _ _ _ _ (Kernel.trace _ (s.emitted.push _).toList) s.stats.swaps
    rw [Array.toList_push, sourced, hemits.trace hnot]
    simpa [OpKind.isAlloc] using h.sound.history
  · have hsource : k₀.operandsOf (p.sourceOp m) = [] := Kernel.operandsOf_of_op? ho₀
    have hvisited : ∀ x, x ∈ p.visited (m + 1) [] ↔ x ∈ p.visited m [] ∨ x = p.sourceOp m := by
      intro x
      rw [Program.visited_succ, List.mem_cons, or_comm]
    refine (h.tracks.visit_source hpad.consistent hnew hvisited (fun x => ?_) hsource
      (Kernel.isMeasure_of_isAlloc ho₀ rfl)).perm List.perm_append_comm
    rw [hcount]
    by_cases hx : x = p.sourceOp m
    · subst hx
      simp [hsource]
    · simp [hvisited, hx]
  · intro v hmv hv
    have hne : π m ≠ π v := fun heq =>
      absurd (h.sound.placed.inj hm hv heq) (Nat.ne_of_lt hmv)
    show (s.onQubit.setIfInBounds (π m) (some w))[π v]? = some none
    rw [Array.getElem?_setIfInBounds_ne hne]
    exact hempty v (Nat.le_of_succ_le hmv) hv

/-- All allocations of the circuit are placed. -/
theorem placeSources_spec (h : Ready task p k₀ π₀ 0 [] π s.front s)
    (hpad : Padded p task.device.numQubits k₀ task.labels)
    (hempty : EmptyFrom task.device.numQubits 0 π s.onQubit) :
    Returns (((List.range task.device.numQubits).map p.sourceOp).forM (placeSource task)) s
      fun _ s' =>
        Ready task p k₀ π₀ task.device.numQubits [] π s'.front s' ∧ s'.stats = s.stats ∧
        s'.frontier.measuring = s.frontier.measuring := by
  let P (placed rest : List Nat) (s' : Router) : Prop :=
    Ready task p k₀ π₀ placed.length [] π s'.front s' ∧ s'.stats = s.stats ∧
      s'.frontier.measuring = s.frontier.measuring ∧
      EmptyFrom task.device.numQubits placed.length π s'.onQubit ∧
      placed ++ rest = (List.range task.device.numQubits).map p.sourceOp
  have hstart : P [] ((List.range task.device.numQubits).map p.sourceOp) s :=
    ⟨h, rfl, rfl, hempty, rfl⟩
  refine (Returns.forM P ?_ hstart).mono
    fun _ s' ⟨hready, hstats, hmeasuring, _, _⟩ => ⟨?_, hstats, hmeasuring⟩
  · intro placed x rest s' ⟨hready, hstats, hmeasuring, hempty, heq⟩
    have hx : ((List.range task.device.numQubits).map p.sourceOp)[placed.length]? = some x := by
      rw [← heq, List.getElem?_append_right (Nat.le_refl _), Nat.sub_self]
      rfl
    obtain ⟨hlt, rfl⟩ : placed.length < task.device.numQubits ∧ p.sourceOp placed.length = x := by
      rw [List.getElem?_map, Option.map_eq_some_iff] at hx
      obtain ⟨v, hv, rfl⟩ := hx
      obtain ⟨hlt, hv⟩ := List.getElem?_eq_some_iff.mp hv
      rw [List.getElem_range] at hv
      rw [List.length_range] at hlt
      exact ⟨hlt, by rw [hv]⟩
    refine (placeSource_spec hready hpad hlt hempty).mono
      fun _ s'' ⟨hready', hstats', hmeasuring', hempty'⟩ => ?_
    refine ⟨?_, hstats'.trans hstats, hmeasuring'.trans hmeasuring, ?_,
      by rw [List.append_assoc]; exact heq⟩
    · rw [List.length_append]
      exact hready'
    · rw [List.length_append]
      exact hempty'
  · simpa using hready

/-! ## Trying a layer -/

/-- What holds of the operations that wait, in whichever order, and of the state holds after a layer
has been tried, if it does after each operation that is retired and visited or left and noted. -/
theorem retireLayer_ensures {P : List ReadyOp → Router → Prop}
    (hperm : ∀ {waiting waiting' s}, waiting.Perm waiting' → P waiting s → P waiting' s)
    (hstep : ∀ {r rest s}, P (r :: rest) s → Ensures (retire task r) s fun retired s₁ =>
      if retired then Ensures (visit task r.op) s₁ fun released s₂ => P (released ++ rest) s₂
      else Ensures (noteBlocked task.device r) s₁ fun _ s₂ => P (r :: rest) s₂)
    (layer : List ReadyOp) : ∀ {s : Router} {others : List ReadyOp}, P (layer ++ others) s →
      Ensures (retireLayer task layer) s fun out s' => P (out.1 ++ others) s' := by
  induction layer with
  | nil => exact fun h => h
  | cons r rest ih =>
      intro s others h
      unfold retireLayer
      refine (hstep h).bind fun retired s₁ hnext => ?_
      cases retired with
      | true =>
          refine Ensures.bind hnext fun released s₂ h₂ => ?_
          have hwaits := hperm (List.perm_append_comm_assoc released rest others) h₂
          refine (ih hwaits).bind fun out s₃ h₃ => ?_
          refine ensures_pure.mpr (hperm ?_ h₃)
          rw [List.append_assoc]
          exact List.perm_append_comm_assoc _ _ _
      | false =>
          refine Ensures.bind hnext fun _ s₂ h₂ => ?_
          refine (ih (hperm List.perm_middle.symm h₂)).bind fun out s₃ h₃ => ?_
          exact ensures_pure.mpr (hperm List.perm_middle h₃)

/-- Routing is possible: what needs adjacent qubits starts on qubits in one part of the device. -/
def Routable (d : Device) (p : Program) (π₀ : Nat → Nat) : Prop :=
  ∀ ins ∈ p.instructions, ins.isConstrained = true → ∀ u v, ins.qubits = [u, v] →
    d.Joined (π₀ u) (π₀ v)

/-- The two qubits of an operation are in one part of the device. -/
def Together (d : Device) (π₀ : Nat → Nat) (r : ReadyOp) : Prop :=
  ∀ u v, r.qubits = [u, v] → d.Joined (π₀ u) (π₀ v)

/-- An operation on two qubits that are not adjacent and have been noted, although there is a way
between them. -/
def Stuck (d : Device) (π₀ π : Nat → Nat) (involved : List Nat) (r : ReadyOp) : Prop :=
  ∃ u v, r.qubits = [u, v] ∧ u ≠ v ∧ d.isAdjacent (π u) (π v) = false ∧ d.Joined (π₀ u) (π₀ v) ∧
    π u ∈ involved

/-- In a run that started at `π₀`, two virtual qubits stay in one part of the device or in
different ones. -/
theorem joined_iff {d : Device} {trace : List Instruction} {swaps : Nat}
    (h : History d p π₀ done π trace swaps) (u v : Nat) :
    d.Joined (π u) (π v) ↔ d.Joined (π₀ u) (π₀ v) :=
  ⟨fun hj => ((h.joined u).trans hj).trans (h.joined v).symm,
    fun hj => ((h.joined u).symm.trans hj).trans (h.joined v)⟩

/-- A blocked operation is noted, or there is no way between its qubits. -/
theorem noteBlocked_spec (h : Sound task p k₀ π₀ m done π s) {r : ReadyOp} {u v : Nat}
    (hr : r.qubits = [u, v]) (hu : u < task.device.numQubits) (hv : v < task.device.numQubits) :
    Meets (noteBlocked task.device r) s
      (fun _ s' => s' = { s with involved := s.involved ++ [π u, π v] } ∧
        task.device.Joined (π₀ u) (π₀ v))
      (fun e s' => s' = s ∧ e = .unroutable (π u) (π v) ∧ ¬ task.device.Joined (π₀ u) (π₀ v)) := by
  have hplaces : r.qubits.mapM placeOf s = .ok [π u, π v] s := by
    have hlt : ∀ q ∈ r.qubits, q < task.device.numQubits := by simp [hr, hu, hv]
    rw [placesOf_eq h.placed hlt, hr]
    rfl
  have hway := task.device.distance?_isSome_iff (b := π v) (h.placed.lt u hu)
  rw [joined_iff h.history] at hway
  unfold noteBlocked
  rw [meets_bind_of_eq hplaces]
  cases hdistance : task.device.distance? (π u) (π v) with
  | none =>
      rw [hdistance] at hway
      simp only [hdistance, Option.isNone_none, ↓reduceIte]
      exact ⟨rfl, rfl, by simpa using hway⟩
  | some k =>
      rw [hdistance] at hway
      simp only [hdistance, Option.isNone_some, Bool.false_eq_true, ↓reduceIte]
      exact ⟨rfl, by simpa using hway⟩

/-- An operation that is not blocked is retired and visited, and what it releases waits beside what
waited before. -/
theorem Ready.retires {r : ReadyOp} {i : Nat} {ins : Instruction}
    (h : Ready task p k₀ π₀ m done π (r :: waiting) s)
    (hpad : Padded p task.device.numQubits k₀ task.labels) (hop : r.op = p.numQubits + i)
    (hi : p.instructions[i]? = some ins) (hqubits : r.qubits = ins.qubits) (hnew : i ∉ done)
    (hawaits : p.Awaits done i ins) (hne : ins.qubits ≠ [])
    (hfree : ¬ Blocked task.device π ins) :
    ∃ s₁ f released, retire task r s = .ok true s₁ ∧ Frame s s₁ ∧ s₁.stats = s.stats ∧
      visit task r.op s₁ = .ok released { s₁ with frontier := f } ∧
      f.measuring = s.frontier.measuring ∧
      Ready task p k₀ π₀ m (done ++ [i]) π (released ++ waiting) { s₁ with frontier := f } := by
  obtain ⟨_, s₁, hretire, rfl, hframe, hsound, hstats, hlast⟩ := returns_iff.mp
    (h.sound.retire hpad hop hi hqubits hnew hawaits hne hfree)
  have htracks := h.tracks
  rw [← hframe.frontier] at htracks
  obtain ⟨f, released, hvisit, hmeasuring, hready⟩ := visit_spec hsound hpad hop htracks hlast
  exact ⟨s₁, f, released, hretire, hframe, hstats, hvisit, hframe.frontier ▸ hmeasuring, hready⟩

/-- What trying a layer in the state `s` leaves beside `others`: operations more are done, or the
layer stays as it is and everything in it is stuck. -/
structure Tried (task : RoutingTask) (p : Program) (k₀ : Kernel) (π₀ : Nat → Nat) (m : Nat)
    (done : List Nat) (π : Nat → Nat) (layer others : List ReadyOp) (s : Router)
    (out : List ReadyOp × Bool) (s' : Router) : Prop where
  stats : s'.stats = s.stats
  measuring : s'.frontier.measuring = s.frontier.measuring
  involved : s.involved ⊆ s'.involved
  ready : ∃ more, Ready task p k₀ π₀ m (done ++ more) π (out.1 ++ others) s' ∧
    (out.2 = true → more ≠ []) ∧ (out.2 = false → more = [])
  stuck : out.2 = false → out.1 = layer ∧ ∀ r ∈ layer, Stuck task.device π₀ π s'.involved r

/-- How a layer fails: some operation has no way between its qubits. -/
structure Apart (task : RoutingTask) (p : Program) (π₀ : Nat → Nat) (layer : List ReadyOp)
    (stats : RoutingStats) (e : MappingError) (s' : Router) : Prop where
  stats : s'.stats = stats
  error : ∃ a b, e = .unroutable a b
  unroutable : ¬ Routable task.device p π₀
  apart : ¬ ∀ r ∈ layer, Together task.device π₀ r

section Tried

variable {layer others : List ReadyOp} {r : ReadyOp} {out : List ReadyOp × Bool} {s' : Router}

theorem Apart.cons {stats : RoutingStats} {e : MappingError}
    (h : Apart task p π₀ layer stats e s') :
    Apart task p π₀ (r :: layer) stats e s' :=
  ⟨h.stats, h.error, h.unroutable, fun hall =>
    h.apart fun r' hr' => hall r' (List.mem_cons_of_mem _ hr')⟩

/-- A stuck operation stays in front of what is left of a layer. -/
private theorem Tried.wait {involved : List Nat}
    (h : Tried task p k₀ π₀ m done π layer (r :: others) { s with involved := involved } out s')
    (hsub : s.involved ⊆ involved) (hr : Stuck task.device π₀ π involved r) :
    Tried task p k₀ π₀ m done π (r :: layer) others s (r :: out.1, out.2) s' where
  stats := h.stats
  measuring := h.measuring
  involved := List.Subset.trans hsub h.involved
  ready := by
    obtain ⟨more, hready, hmore⟩ := h.ready
    exact ⟨more, ⟨hready.sound, hready.tracks.perm List.perm_middle⟩, hmore⟩
  stuck := by
    intro hprogress
    obtain ⟨hnext, hall⟩ := h.stuck hprogress
    refine ⟨congrArg (r :: ·) hnext, ?_⟩
    intro r' hr'
    rcases List.mem_cons.mp hr' with rfl | hr'
    · obtain ⟨u, v, hqubits, hne, hadjacent, hjoined, hmem⟩ := hr
      exact ⟨u, v, hqubits, hne, hadjacent, hjoined, h.involved hmem⟩
    · exact hall r' hr'

/-- What a retired operation releases comes in front of what is left of a layer. -/
private theorem Tried.retire {i : Nat} {released : List ReadyOp} {s₁ : Router}
    (h : Tried task p k₀ π₀ m (done ++ [i]) π layer (released ++ others) s₁ out s')
    (hstats : s₁.stats = s.stats) (hmeasuring : s₁.frontier.measuring = s.frontier.measuring)
    (hinvolved : s₁.involved = s.involved) :
    Tried task p k₀ π₀ m done π (r :: layer) others s (released ++ out.1, true) s' where
  stats := h.stats.trans hstats
  measuring := h.measuring.trans hmeasuring
  involved := hinvolved ▸ h.involved
  ready := by
    obtain ⟨more, hready, -⟩ := h.ready
    have hperm : (out.1 ++ (released ++ others)).Perm ((released ++ out.1) ++ others) := by
      rw [List.append_assoc]
      exact List.perm_append_comm_assoc _ _ _
    have happend : done ++ i :: more = (done ++ [i]) ++ more := by simp
    refine ⟨i :: more, ?_, by simp⟩
    rw [happend]
    exact ⟨hready.sound, hready.tracks.perm hperm⟩
  stuck := by simp

end Tried

/-- A layer is tried in order. -/
theorem retireLayer_spec (hpad : Padded p task.device.numQubits k₀ task.labels)
    (hmappable : ∀ ins ∈ p.instructions, ins.Mappable) (layer : List ReadyOp) :
    ∀ {s : Router} {done : List Nat} {others : List ReadyOp},
      Ready task p k₀ π₀ m done π (layer ++ others) s →
      Meets (retireLayer task layer) s (Tried task p k₀ π₀ m done π layer others s)
        (Apart task p π₀ layer s.stats) := by
  induction layer with
  | nil =>
      intro s done others h
      exact ⟨rfl, rfl, List.Subset.refl _, ⟨[], by simpa using h, by simp⟩, by simp⟩
  | cons r rest ih =>
      intro s done others h
      obtain ⟨i, ins, hop, hi, hqubits, hnew, hawaits⟩ :=
        hpad.waiting_spec h.sound.history h.tracks (r := r) (by simp)
      have hins := List.mem_of_getElem? hi
      unfold retireLayer
      by_cases hblocked : Blocked task.device π ins
      · rw [meets_bind_of_eq (h.sound.retire_blocked hpad hop hi hqubits hnew hblocked)]
        obtain ⟨hconstrained, u, v, huv, hadjacent⟩ := hblocked
        have hvalid := hpad.valid ins hins
        have hlt := hpad.qubits_lt hi
        have hr : r.qubits = [u, v] := hqubits.trans huv
        have hne : u ≠ v := by
          have := hvalid.nodup
          rw [huv] at this
          simpa using this
        refine meets_bind.mpr ((noteBlocked_spec h.sound hr (hlt u (by simp [huv]))
          (hlt v (by simp [huv]))).mono ?_ ?_)
        · rintro _ _ ⟨rfl, hjoined⟩
          -- the operation waits beside the others while the rest is tried
          have hready : Ready task p k₀ π₀ m done π (rest ++ r :: others)
              { s with involved := s.involved ++ [π u, π v] } :=
            ⟨h.sound.congr rfl rfl rfl rfl rfl rfl, h.tracks.perm List.perm_middle.symm⟩
          have hstuck : Stuck task.device π₀ π (s.involved ++ [π u, π v]) r :=
            ⟨u, v, hr, hne, hadjacent, hjoined, by simp⟩
          refine meets_bind.mpr ((ih hready).mono ?_ ?_)
          · intro out s' htried
            exact htried.wait (List.subset_append_left _ _) hstuck
          · exact fun e s' hapart => hapart.cons
        · rintro e s' ⟨rfl, rfl, hapart⟩
          exact ⟨rfl, ⟨_, _, rfl⟩, fun hall => hapart (hall ins hins hconstrained u v huv),
            fun hall => hapart (hall r List.mem_cons_self u v hr)⟩
      · obtain ⟨s₁, f, released, hretire, hframe, hstats, hvisit, hmeasuring, hready⟩ :=
          h.retires hpad hop hi hqubits hnew hawaits (hmappable ins hins).nonempty hblocked
        rw [meets_bind_of_eq hretire]
        simp only [↓reduceIte]
        rw [meets_bind_of_eq hvisit]
        have hperm := List.perm_append_comm_assoc released rest others
        refine meets_bind.mpr ((ih ⟨hready.sound, hready.tracks.perm hperm⟩).mono ?_ ?_)
        · intro out s' htried
          exact htried.retire hstats hmeasuring hframe.involved
        · intro e s' hapart
          exact Apart.cons
            ⟨hapart.stats.trans hstats, hapart.error, hapart.unroutable, hapart.apart⟩

end QubitMapper.Router
