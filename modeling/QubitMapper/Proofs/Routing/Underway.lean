import QubitMapper.Proofs.Routing.Open
import QubitMapper.Proofs.Routing.Turns

/-!
# Runs on any kernel

A run that starts from any prepared kernel, with its wires labelled or not, keeps the kernel wired:
what has been retired has its wires to itself, as far as the other retired operations go, and what
has not been retired is as it was. Nothing is said of a run that fails.

## Main results

* `Router.Underway`: how a run on any kernel stands.
* `Router.route_underway`: so it stands when it has succeeded, and nothing waits.
-/

namespace QubitMapper.Router

/-- How a run from the kernel `k₀` stands, whatever that kernel is; the allocations `allocs` have
been placed. -/
structure Underway (task : RoutingTask) (k₀ : Kernel) (allocs : List Nat)
    (waiting : List ReadyOp) (s : Router) : Prop where
  wired : IsWired k₀ task.device.numQubits s
  placed : ∃ π, s.placement.Realizes task.device.numQubits π
  tracks : Tracks k₀ task.labels s.emitted.toList s.frontier waiting
  once : k₀.OpenOnce task.labels s.emitted.toList
  allocated : allocs ⊆ s.emitted.toList

variable {task : RoutingTask} {k₀ : Kernel} {sources allocs : List Nat}
  {waiting rest : List ReadyOp} {s s' : Router} {r : ReadyOp} {a b : Nat} {π : Nat → Nat}

/-- A state that cannot be told from one underway is underway. -/
theorem Underway.same (h : Underway task k₀ allocs waiting s) (hsame : s.Same s') :
    Underway task k₀ allocs waiting s' := by
  obtain ⟨f, hf, rfl⟩ := hsame
  exact ⟨h.wired, h.placed, h.tracks.same hf, h.once, h.allocated⟩

/-- What has been noted and counted does not matter, nor in which order operations wait. -/
theorem Underway.congr (h : Underway task k₀ allocs waiting s) (hkernel : s'.kernel = s.kernel)
    (hqubits : s'.onQubit = s.onQubit) (hemitted : s'.emitted = s.emitted)
    (hplacement : s'.placement = s.placement) (hfrontier : s'.frontier = s.frontier)
    (hperm : waiting.Perm rest) : Underway task k₀ allocs rest s' where
  wired := by
    rw [IsWired, hkernel, hqubits, hemitted]
    exact h.wired
  placed := by
    rw [hplacement]
    exact h.placed
  tracks := by
    rw [hemitted, hfrontier]
    exact h.tracks.perm hperm
  once := by
    rw [hemitted]
    exact h.once
  allocated := by
    rw [hemitted]
    exact h.allocated

/-- The original kernel does not have what is new. -/
private theorem op?_of_new {new : List Nat} (hnew : ∀ x ∈ new, k₀.ops.size ≤ x) :
    ∀ x ∈ new, k₀.op? x = none :=
  fun x hx => Kernel.op?_eq_none_of_le (hnew x hx)

/-- Two adjacent qubits are exchanged by one more swap. -/
theorem Underway.insertSwap (h : Underway task k₀ allocs waiting s)
    (hadjacent : task.device.isAdjacent a b = true) :
    Returns (insertSwap a b) s fun _ s' =>
      s'.front = s.front ∧ Underway task k₀ allocs waiting s' := by
  obtain ⟨ha, hb⟩ := task.device.isAdjacent_lt hadjacent
  obtain ⟨π, hπ⟩ := h.placed
  refine (insertSwap_spec h.wired ha hb (task.device.isAdjacent_ne hadjacent)
    (hπ.missed?_eq_none ha hb)).mono fun _ s' hswapped => ⟨hswapped.frame.front, ?_⟩
  obtain ⟨new, hemitted, hnew⟩ := hswapped.emitted
  refine ⟨hswapped.wired, ⟨_, hswapped.placement ▸ hπ.swap ha hb⟩, ?_, ?_, ?_⟩
  · rw [hemitted, hswapped.frame.frontier]
    exact h.tracks.grow (op?_of_new hnew)
  · rw [hemitted]
    exact h.once.grow (op?_of_new hnew)
  · rw [hemitted]
    exact List.subset_append_of_subset_left new h.allocated

/-! ## Retiring operations -/

/-- An operation that waits is as in the original kernel, and its operands have been produced. -/
private theorem Underway.waiting_op (h : Underway task k₀ allocs (r :: rest) s) :
    r.op ∉ s.emitted.toList ∧ ∃ o, k₀.op? r.op = some o ∧ o.operands ≠ [] ∧
      o.operands.mapM (task.labels[·]?) = some r.qubits ∧
      ∀ w ∈ o.operands, w ∈ s.emitted.toList.flatMap k₀.resultsOf := by
  have hcarries := h.tracks.carries r (by simp)
  obtain ⟨hnew, hne, -, hall⟩ := (h.tracks.ready r.op).mp (by simp)
  unfold ReadyOp.Carries at hcarries
  cases ho : k₀.op? r.op with
  | none => simp [Kernel.operandsOf, ho] at hne
  | some o =>
      rw [Kernel.operandsOf_of_op? ho] at hcarries hne hall
      exact ⟨hnew, o, rfl, hne, hcarries, hall⟩

section Prepared

variable (hprep : k₀.Prepared task.labels sources)

include hprep

/-- What has operands is no allocation. -/
private theorem isAlloc_eq_false {x : Nat} {o : Operation} (ho : k₀.op? x = some o)
    (hne : o.operands ≠ []) : o.kind.isAlloc = false := by
  by_contra halloc
  exact hne (hprep.formed.operands_of_isAlloc ho (by simpa using halloc))

/-- What a retired operation releases waits beside what waited before. -/
theorem Underway.visit {o : Operation} {ps : List Nat}
    (h : Underway task k₀ allocs (r :: rest) s)
    (hretired : Retired k₀ task.device.numQubits r.op o ps s s') :
    Returns (visit task r.op) s' fun released s'' =>
      Underway task k₀ allocs (released ++ rest) s'' := by
  obtain ⟨hold, o₀, ho, hne, -, hall⟩ := h.waiting_op
  obtain ⟨s₁, ⟨new, hemitted, hnew⟩, hpush⟩ := hretired.emitted
  have hlist : s'.emitted.toList = s.emitted.toList ++ new ++ [r.op] := by
    rw [hpush, Array.toList_push, hemitted]
  have htracks := h.tracks.grow (op?_of_new hnew)
  have honce := h.once.grow (op?_of_new hnew)
  obtain ⟨hnot, -, -, hreached⟩ := (htracks.ready r.op).mp (by simp)
  obtain ⟨us, hvisit, hcount⟩ := visit_eq hretired.wired.toFed ho (.inr hretired.getLast?)
  rw [← Kernel.resultsOf_of_op? ho] at hcount
  rw [Kernel.operandsOf_of_op? ho] at hreached
  rw [returns_of_eq hvisit]
  refine ⟨hretired.wired, hretired.placement ▸ h.placed, ?_, ?_, ?_⟩
  · rw [← hretired.frame.frontier] at htracks
    exact htracks.visit_waiting hprep.formed.toConsistent (fun x => by simp [hlist, or_assoc])
      hcount
  · rw [hlist]
    exact honce.retire hprep ho hnot hreached (isAlloc_eq_false hprep ho hne)
  · rw [hlist, List.append_assoc]
    exact List.subset_append_of_subset_left _ h.allocated

variable (hsources : sources.length = task.device.numQubits)

include hsources

/-- The qubits of what waits are virtual qubits. -/
private theorem Underway.qubits_lt (h : Underway task k₀ allocs (r :: rest) s) :
    ∀ v ∈ r.qubits, v < task.device.numQubits := by
  obtain ⟨-, o, -, -, hqubits, -⟩ := h.waiting_op
  intro v hv
  obtain ⟨w, -, hw⟩ := forall₂_mem_right (mapM_eq_some_iff.mp hqubits) hv
  exact hsources ▸ (hprep.label w v hw).1

/-- An operation is retired, or it is blocked and everything stays as it was. -/
theorem Underway.retire (h : Underway task k₀ allocs (r :: rest) s) :
    Returns (retire task r) s fun done s' => if done then
      ∃ o ps, Retired k₀ task.device.numQubits r.op o ps s s' else s' = s := by
  obtain ⟨π, hπ⟩ := h.placed
  have hlt := h.qubits_lt hprep hsources
  obtain ⟨hnew, o, ho, hne, hqubits, hreached⟩ := h.waiting_op
  have hlength := (mapM_eq_some_iff.mp hqubits).length_eq
  have hplaces := placesOf_eq hπ hlt
  have halloc := isAlloc_eq_false hprep ho hne
  by_cases hblocked : isBlocked task.device o (r.qubits.map π) = true
  · rw [returns_of_eq (retire_blocked ((h.wired.pending _ hnew).trans ho) hplaces hblocked)]
    simp
  · refine (retire_spec h.wired ho hnew hplaces hblocked ?_ ?_ ?_ halloc ?_ ?_).mono ?_
    · rw [← List.length_pos_iff, List.length_map, ← hlength]
      exact List.length_pos_iff.mpr hne
    · apply (h.once.qubits_nodup hprep ho hnew hreached hqubits).map_on
      intro u hu v hv heq
      exact hπ.inj (hlt u hu) (hlt v hv) heq
    · intro q hq
      obtain ⟨v, hv, rfl⟩ := List.mem_map.mp hq
      exact hπ.lt v (hlt v hv)
    · rw [List.length_map, hlength]
    · intro hsink
      rw [hprep.formed.length_results ho halloc hsink, List.length_map, hlength]
    · rintro done s' ⟨rfl, hretired⟩
      rw [if_pos rfl]
      exact ⟨o, _, hretired⟩

/-- A blocked operation is noted, or the run fails. -/
theorem Underway.noteBlocked (h : Underway task k₀ allocs (r :: rest) s) :
    Ensures (noteBlocked task.device r) s fun _ s' => Underway task k₀ allocs (r :: rest) s' := by
  obtain ⟨π, hπ⟩ := h.placed
  unfold Router.noteBlocked
  rw [ensures_bind_of_eq (placesOf_eq hπ (h.qubits_lt hprep hsources))]
  have hnoted : Underway task k₀ allocs (r :: rest)
      { s with involved := s.involved ++ r.qubits.map π } :=
    h.congr rfl rfl rfl rfl rfl (.refl _)
  split
  · split
    · trivial
    · exact hnoted
  · exact hnoted

/-- A layer is tried in order. -/
theorem retireLayer_underway (layer : List ReadyOp) {others : List ReadyOp}
    (h : Underway task k₀ allocs (layer ++ others) s) : Ensures (retireLayer task layer) s
      fun out s' => Underway task k₀ allocs (out.1 ++ others) s' := by
  refine retireLayer_ensures (fun hperm h => h.congr rfl rfl rfl rfl rfl hperm) ?_ layer h
  intro r rest s h
  refine (h.retire hprep hsources).ensures.mono fun done s₁ hdone => ?_
  cases done with
  | true =>
      obtain ⟨o, ps, hretired⟩ := hdone
      exact (h.visit hprep hretired).ensures
  | false =>
      obtain rfl := hdone
      exact h.noteBlocked hprep hsources

/-- A round tries the front layer. -/
theorem round_underway (h : Underway task k₀ allocs s.front s) :
    Ensures (round task) s fun _ s' => Underway task k₀ allocs s'.front s' := by
  have hbegun : Underway task k₀ allocs (s.front ++ [])
      { s with front := [], stats := { s.stats with rounds := s.stats.rounds + 1 } } :=
    h.congr rfl rfl rfl rfl rfl (by simp)
  unfold round
  refine ensures_get_bind.mpr ((retireLayer_underway hprep hsources s.front hbegun).bind ?_)
  intro out s' h'
  exact h'.congr rfl rfl rfl rfl rfl (by simp)

end Prepared

/-! ## Unblocking -/

/-- A swap that is chosen is one of neighbors, and choosing it leaves no trace. -/
theorem chooseSwap_ensures (h : Underway task k₀ allocs waiting s) :
    Ensures (chooseSwap task) s fun c s' =>
      s.Same s' ∧ task.device.isAdjacent c.1 c.2 = true := by
  obtain ⟨π, hπ⟩ := h.placed
  refine (chooseSwap_meets hπ.isBijective).mono ?_ fun _ _ _ => trivial
  intro c s' ⟨hsame, _, _, _, _, hcheapest⟩
  exact ⟨hsame, (mem_candidates.mp (mem_of_firstCheapest hcheapest)).2⟩

/-- The swaps along a path are swaps of neighbors. -/
private theorem walkSwaps_isAdjacent {d : Device} {path : List Nat}
    (hpath : path.IsChain fun a b => d.isAdjacent a b = true) :
    ∀ c ∈ walkSwaps path, d.isAdjacent c.1 c.2 = true := by
  induction path with
  | nil => simp [walkSwaps]
  | cons a rest ih =>
      rcases rest with _ | ⟨b, _ | ⟨c, rest⟩⟩
      · simp [walkSwaps]
      · simp [walkSwaps]
      · rw [List.isChain_cons_cons] at hpath
        unfold walkSwaps
        rw [List.forall_mem_cons]
        exact ⟨hpath.1, ih hpath.2⟩

/-- Some neighbors are swapped. -/
private theorem swaps_underway {cs : List (Nat × Nat)}
    (hcs : ∀ c ∈ cs, task.device.isAdjacent c.1 c.2 = true) : ∀ {s : Router},
    Underway task k₀ allocs waiting s → Returns (cs.forM fun (a, b) => insertSwap a b) s fun _ s' =>
      s'.front = s.front ∧ Underway task k₀ allocs waiting s' := by
  induction cs with
  | nil => exact fun h => ⟨rfl, h⟩
  | cons c rest ih =>
      intro s h
      rw [List.forall_mem_cons] at hcs
      refine (h.insertSwap hcs.1).bind ?_
      rintro _ s₁ ⟨hfront, h₁⟩
      refine (ih hcs.2 h₁).mono ?_
      rintro _ s₂ ⟨hfront', h₂⟩
      exact ⟨hfront'.trans hfront, h₂⟩

/-- The oldest operation is brought together, or there is no way. -/
theorem release_underway (h : Underway task k₀ allocs s.front s) :
    Ensures (release task) s fun _ s' => Underway task k₀ allocs s'.front s' := by
  unfold release
  refine ensures_get_bind.mpr ?_
  split
  · refine (placeOf_ensures _).bind ?_
    rintro a _ rfl
    refine (placeOf_ensures _).bind ?_
    rintro b _ rfl
    split
    · trivial
    · rename_i path hpath
      obtain ⟨-, -, hchain, -⟩ := task.device.shortestPath?_spec hpath
      refine (swaps_underway (walkSwaps_isAdjacent hchain) h).ensures.bind ?_
      rintro _ s' ⟨hfront, h'⟩
      rw [← hfront] at h'
      exact h'.congr rfl rfl rfl rfl rfl (.refl _)
  · exact ensures_pure.mpr h

/-- A way is made for a blocked layer, or the run fails. -/
theorem unblock_underway (h : Underway task k₀ allocs s.front s) (t : Tally) :
    Ensures (unblock task t) s fun _ s' => Underway task k₀ allocs s'.front s' := by
  unfold unblock
  split
  · refine (release_underway h).bind fun _ s' h' => ?_
    exact ensures_pure.mpr h'
  · refine (chooseSwap_ensures h).bind ?_
    rintro c s₀ ⟨hsame, hadjacent⟩
    refine ((h.same hsame).insertSwap hadjacent).ensures.bind ?_
    obtain ⟨f, -, rfl⟩ := hsame
    rintro _ s₁ ⟨hfront, h₁⟩
    rw [← hfront] at h₁
    have hcleared : Ensures (modify ({ · with involved := [] }) : Route PUnit) s₁ fun _ s₂ =>
        Underway task k₀ allocs s₂.front s₂ := h₁.congr rfl rfl rfl rfl rfl (.refl _)
    refine hcleared.bind fun _ s₂ h₂ => ?_
    refine (updateDecay_ensures task.options (t.searches + 1) c.1 c.2).bind ?_
    rintro _ _ ⟨decay, -, rfl⟩
    exact ensures_pure.mpr (h₂.congr rfl rfl rfl rfl rfl (.refl _))

/-! ## The run -/

section Run

variable (hprep : k₀.Prepared task.labels sources)
  (hsources : sources.length = task.device.numQubits)

include hprep hsources

/-- A run ends when nothing waits in the measurement phase. -/
theorem turn_underway (h : Underway task k₀ allocs s.front s) (t : Tally) :
    Ensures (turn task t) s fun next s' => Underway task k₀ allocs s'.front s' ∧
      (next = none → s'.front = [] ∧ s'.frontier.measuring = true) := by
  unfold turn
  refine ensures_get_bind.mpr ?_
  split
  · rename_i hempty
    have hfront : s.front = [] := by simpa using hempty
    split
    · rename_i hmeasuring
      exact ensures_pure.mpr ⟨h, fun _ => ⟨hfront, hmeasuring⟩⟩
    · have htracks := h.tracks
      rw [hfront] at htracks
      exact ⟨⟨h.wired, h.placed, htracks.enterMeasurement, h.once, h.allocated⟩, nofun⟩
  · refine (round_underway hprep hsources h).bind fun progress s' h' => ?_
    split
    · exact ensures_pure.mpr ⟨h', nofun⟩
    · refine (unblock_underway h' t).bind fun t' s'' h'' => ?_
      exact ensures_pure.mpr ⟨h'', nofun⟩

theorem turns_underway (fuel : Nat) : ∀ {s : Router} {t : Tally},
    Underway task k₀ allocs s.front s → Ensures (turns task fuel t) s fun _ s' =>
      Underway task k₀ allocs [] s' ∧ s'.frontier.deferred = [] := by
  induction fuel with
  | zero => exact fun _ => ensures_throw
  | succ fuel ih =>
      intro s t h
      unfold turns
      refine (turn_underway hprep hsources h t).bind ?_
      rintro next s' ⟨h', hend⟩
      cases next with
      | none =>
          obtain ⟨hfront, hmeasuring⟩ := hend rfl
          rw [hfront] at h'
          exact ensures_pure.mpr ⟨h', h'.tracks.unheld hmeasuring⟩
      | some t' => exact ih h'

/-- An allocation of the kernel is placed. -/
private theorem placeSource_underway {x : Nat} {later : List Nat}
    (h : Underway task k₀ allocs s.front s)
    (hsplit : allocs ++ x :: later = sources) (hemitted : s.emitted.toList = allocs)
    (hπ : s.placement.Realizes task.device.numQubits π)
    (hempty : EmptyFrom task.device.numQubits allocs.length π s.onQubit) :
    Returns (placeSource task x) s fun _ s' => Underway task k₀ (allocs ++ [x]) s'.front s' ∧
      s'.emitted.toList = allocs ++ [x] ∧ s'.placement = s.placement ∧
      EmptyFrom task.device.numQubits (allocs ++ [x]).length π s'.onQubit := by
  have hx : sources[allocs.length]? = some x := by simp [← hsplit]
  have hm : allocs.length < task.device.numQubits :=
    hsources ▸ (List.getElem?_eq_some_iff.mp hx).1
  obtain ⟨o, w, ho₀, halloc, hresults, hlabel⟩ := hprep.source _ x hx
  have hoperands := hprep.formed.operands_of_isAlloc ho₀ halloc
  have hsource : k₀.operandsOf x = [] := by rw [Kernel.operandsOf_of_op? ho₀, hoperands]
  have hnodup := hprep.nodup
  rw [← hsplit, List.nodup_append] at hnodup
  have hnew : x ∉ s.emitted.toList := by
    rw [hemitted]
    exact fun hmem => hnodup.2.2 x hmem x (by simp) rfl
  have ho := (h.wired.pending x hnew).trans ho₀
  obtain ⟨us, hvisit, hcount⟩ := visit_eq h.wired.toFed ho₀ (.inl hnew)
  rw [← Kernel.resultsOf_of_op? ho₀] at hcount
  have hplaced := placeSource_eq ho hresults hlabel (placeOf_eq hπ hm) hvisit
    (h.wired.qubits ▸ hπ.lt _ hm)
  obtain ⟨-, hwired⟩ := h.wired.place hnew ho halloc hoperands hresults
    (hempty _ (Nat.le_refl _) hm)
  have hlist : (s.emitted.push x).toList = allocs ++ [x] := by rw [Array.toList_push, hemitted]
  have hvisited : ∀ y, y ∈ (s.emitted.push x).toList ↔ y ∈ s.emitted.toList ∨ y = x := by
    simp [Array.toList_push]
  rw [returns_of_eq hplaced]
  refine ⟨⟨?_, h.placed, ?_, ?_, ?_⟩, hlist, rfl, ?_⟩
  · rw [IsWired, sourced, Array.toList_push]
    exact hwired
  · refine (h.tracks.visit_source hprep.formed.toConsistent hnew hvisited (fun y => ?_) hsource
      (Kernel.isMeasure_of_isAlloc ho₀ halloc)).perm List.perm_append_comm
    rw [hcount]
    by_cases hyx : y = x
    · subst hyx
      simp [hsource]
    · simp [hyx]
  · rw [sourced, hlist]
    refine .of_sources hprep.toLabelled fun y hy => ?_
    rw [← hsplit]
    rcases List.mem_append.mp hy with hy | hy
    · exact List.mem_append_left _ hy
    · exact List.mem_append_right _ (List.mem_singleton.mp hy ▸ List.mem_cons_self)
  · rw [sourced, hlist]
    exact List.Subset.refl _
  · intro v hmv hv
    rw [List.length_append, List.length_singleton] at hmv
    have hne : π allocs.length ≠ π v := fun heq =>
      absurd (hπ.inj hm hv heq) (Nat.ne_of_lt hmv)
    show (s.onQubit.setIfInBounds (π allocs.length) (some w))[π v]? = some none
    rw [Array.getElem?_setIfInBounds_ne hne]
    exact hempty v (Nat.le_of_succ_le hmv) hv

/-- All allocations of the kernel are placed. -/
theorem placeSources_underway {placement : Placement}
    (hπ : placement.Realizes task.device.numQubits π) :
    Returns (sources.forM (placeSource task)) (start k₀ placement task.device) fun _ s =>
      Underway task k₀ sources s.front s := by
  let P (placed rest : List Nat) (s : Router) : Prop :=
    Underway task k₀ placed s.front s ∧ s.emitted.toList = placed ∧
      s.placement.Realizes task.device.numQubits π ∧
      EmptyFrom task.device.numQubits placed.length π s.onQubit ∧ placed ++ rest = sources
  have hstart : P [] sources (start k₀ placement task.device) := by
    refine ⟨⟨.start hprep.formed.toConsistent _, ⟨π, hπ⟩, .initial, ?_, List.nil_subset _⟩, rfl,
      hπ, ?_, rfl⟩
    · exact .of_sources hprep.toLabelled (by simp [start])
    · intro v _ hv
      simp [start, hπ.lt v hv]
  refine (Returns.forM P ?_ hstart).mono fun _ _ h => h.1
  rintro placed x rest s ⟨h, hemitted, hplaced, hempty, hsplit⟩
  refine (placeSource_underway hprep hsources h hsplit hemitted hplaced hempty).mono ?_
  rintro _ s' ⟨h', hemitted', hplacement, hempty'⟩
  exact ⟨h', hemitted', hplacement ▸ hplaced, hempty', by rw [List.append_assoc]; exact hsplit⟩

/-- A run that succeeds leaves the kernel wired, and nothing that waits. -/
theorem route_underway {placement : Placement}
    (hπ : placement.Realizes task.device.numQubits π) :
    Ensures (route task sources) (start k₀ placement task.device) fun _ s =>
      Underway task k₀ sources [] s ∧ s.frontier.deferred = [] := by
  unfold route
  refine (placeSources_underway hprep hsources hπ).ensures.bind fun _ s h => ?_
  refine ensures_get_bind.mpr ((turns_underway hprep hsources _ h).bind ?_)
  rintro _ s' ⟨h', hnone⟩
  exact ⟨h'.congr rfl rfl rfl rfl rfl (.refl _), hnone⟩

end Run

end QubitMapper.Router
