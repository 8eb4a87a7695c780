import QubitMapper.Proofs.Routing.Deferral
import QubitMapper.Proofs.Routing.Traceless

/-!
# The course of a run

Wherever a run starts from, also from a placement with holes, and whether it will succeed or not: in
every state that it comes through, what is emitted feeds itself, what is not emitted is as it was,
and the frontier is in step with what is emitted.

## Main results

* `Router.retire_fed`: what retiring an operation adds.
* `Router.Running`: how a run stands in every state.
* `Router.round_running`, `Router.turn_running`: the steps of a run keep it so.
* `Router.Comes.running`: so a run stands wherever it comes.
-/

namespace QubitMapper.Router

variable {task : RoutingTask} {k₀ : Kernel} {s s' s'' : Router}

/-! ## Emissions -/

/-- Between two states new operations may have been emitted. -/
structure Advances (k₀ : Kernel) (s s' : Router) : Prop where
  fed : IsFed k₀ s'
  frontier : s'.frontier = s.frontier
  front : s'.front = s.front
  emitted : AddsNew k₀ s s'

theorem Advances.refl (h : IsFed k₀ s) : Advances k₀ s s := ⟨h, rfl, rfl, .refl k₀ s⟩

theorem Advances.trans (h : Advances k₀ s s') (h' : Advances k₀ s' s'') : Advances k₀ s s'' :=
  ⟨h'.fed, h'.frontier.trans h.frontier, h'.front.trans h.front, h.emitted.trans h'.emitted⟩

/-- A qubit that was written to holds what was written, the others what they held. -/
private theorem of_getElem?_set {onQubit : Current} {q r w : Nat} {slot : Option Nat}
    (h : (onQubit.setIfInBounds q slot)[r]? = some (some w)) :
    onQubit[r]? = some (some w) ∨ slot = some w := by
  rw [Array.getElem?_setIfInBounds] at h
  split at h
  · split at h
    · exact .inr (Option.some.inj h)
    · cases h
  · exact .inl h

/-- Qubits that were written to hold something that was written, the others what they held. -/
private theorem of_getElem?_moveTo (qs : List Nat) : ∀ {onQubit : Current}
    {slots : List (Option Nat)} {r w : Nat}, (onQubit.moveTo qs slots)[r]? = some (some w) →
      onQubit[r]? = some (some w) ∨ some w ∈ slots := by
  induction qs with
  | nil => exact fun h => .inl h
  | cons q rest ih =>
      intro onQubit slots r w h
      cases slots with
      | nil => exact .inl h
      | cons slot slots =>
          rcases @ih (onQubit.setIfInBounds q slot) slots r w h with h | h
          · exact (of_getElem?_set h).imp_right fun heq => List.mem_cons.mpr (.inl heq.symm)
          · exact .inr (List.mem_cons_of_mem _ h)

/-- A qubit gets a fresh wire if it is empty, and the others keep theirs. -/
theorem occupy_fed (h : IsFed k₀ s) (q : Nat) :
    Ensures (occupy q) s fun w s' => Advances k₀ s s' ∧ s'.onQubit[q]? = some (some w) ∧
      ∀ r v : Nat, s.onQubit[r]? = some (some v) → s'.onQubit[r]? = some (some v) := by
  cases hq : s.onQubit[q]? with
  | none =>
      unfold occupy
      rw [ensures_get_bind, hq]
      trivial
  | some slot =>
      cases slot with
      | some w =>
          unfold occupy
          rw [ensures_get_bind, hq]
          exact ⟨.refl h, hq, fun _ _ hr => hr⟩
      | none =>
          have hsize : q < s.onQubit.size := (Array.getElem?_eq_some_iff.mp hq).1
          refine Returns.ensures ((returns_of_eq (occupy_of_none hq)).mpr
            ⟨⟨?_, rfl, rfl, .of_push h rfl⟩, Array.getElem?_setIfInBounds_self_of_lt hsize, ?_⟩)
          · show Fed k₀ _ _ (s.emitted.push s.kernel.ops.size).toList
            rw [Array.toList_push]
            refine h.emit_new (by simp) fun r w hr => (of_getElem?_set hr).imp_right fun hw => ?_
            cases hw
            simp [Kernel.freshWires, OpKind.resultCount]
          · intro r v hr
            have hne : q ≠ r := by
              rintro rfl
              rw [hq] at hr
              cases hr
            show (s.onQubit.setIfInBounds q _)[r]? = _
            rw [Array.getElem?_setIfInBounds_ne hne, hr]

/-- Some qubits are filled. -/
theorem occupyAll_fed (qs : List Nat) : ∀ {s : Router}, IsFed k₀ s →
    Ensures (qs.mapM occupy) s fun ws s' => Advances k₀ s s' ∧
      List.Forall₂ (fun q w => s'.onQubit[q]? = some (some w)) qs ws ∧
      ∀ r v : Nat, s.onQubit[r]? = some (some v) → s'.onQubit[r]? = some (some v) := by
  induction qs with
  | nil => exact fun h => ⟨.refl h, .nil, fun _ _ hr => hr⟩
  | cons q rest ih =>
      intro s h
      rw [List.mapM_cons]
      refine (occupy_fed h q).bind fun w s₁ ⟨hadv, hw, hkept⟩ => ?_
      refine (ih hadv.fed).bind fun ws s₂ ⟨hadv', hws, hkept'⟩ => ?_
      exact ⟨hadv.trans hadv', .cons (hkept' q w hw) hws, fun r v hr => hkept' r v (hkept r v hr)⟩

/-- Two qubits are exchanged by a new swap. -/
theorem insertSwap_fed (h : IsFed k₀ s) (a b : Nat) :
    Ensures (insertSwap a b) s fun _ s' => Advances k₀ s s' := by
  unfold insertSwap
  refine (occupy_fed h a).bind fun wa s₁ ⟨hadv₁, hwa₁, _⟩ => ?_
  refine (occupy_fed hadv₁.fed b).bind fun wb s₂ ⟨hadv₂, hwb, hkept⟩ => ?_
  have hwa := hkept a wa hwa₁
  have hadv := hadv₁.trans hadv₂
  have ha : a < s₂.onQubit.size := (Array.getElem?_eq_some_iff.mp hwa).1
  have hb : b < s₂.onQubit.size := (Array.getElem?_eq_some_iff.mp hwb).1
  by_cases hmissed : s₂.placement.missed? a b = none
  · by_cases husable : s₂.kernel.Usable false [wa, wb]
    · refine Returns.ensures ((returns_of_eq (swapped_eq hmissed husable ha hb)).mpr
        ⟨?_, hadv.frontier, hadv.front, hadv.emitted.trans (.of_push hadv.fed rfl)⟩)
      show Fed k₀ _ _ (s₂.emitted.push s₂.kernel.ops.size).toList
      rw [Array.toList_push]
      refine hadv.fed.emit_new (fun w hw => ?_) fun q w hq => ?_
      · rcases List.mem_pair.mp hw with rfl | rfl
        · exact ⟨a, hwa⟩
        · exact ⟨b, hwb⟩
      · have hresults : s₂.kernel.freshWires (OpKind.swap.resultCount 2) =
            [s₂.kernel.wires.size, s₂.kernel.wires.size + 1] := rfl
        refine or_assoc.mp ((of_getElem?_set hq).imp_left of_getElem?_set) |>.imp_right fun hw => ?_
        show w ∈ s₂.kernel.freshWires (OpKind.swap.resultCount 2)
        rw [hresults]
        rcases hw with hw | hw <;> cases hw <;> simp
    · -- creating the swap fails
      rw [ensures_bind_of_eq (swapPlaces_eq hmissed)]
      refine Ensures.bind (m := fun _ _ => False) ?_ fun _ _ => False.elim
      unfold createOp
      rw [ensures_get_bind]
      cases hcreate : (s₂.exchanged (a, b)).kernel.create .swap [wa, wb] with
      | error e => trivial
      | ok out => exact absurd (Kernel.create_eq_ok_iff.mp hcreate).2.1 husable
  · -- the exchange misses a qubit
    refine ((swapPlaces_meets (a, b)).ensures.mono fun _ _ hswapped => ?_).bind
      (m := fun _ _ => False) fun _ _ => False.elim
    exact hmissed hswapped.2

theorem placesOf_ensures (vs : List Nat) : ∀ s : Router,
    Ensures (vs.mapM placeOf) s fun _ s' => s' = s := by
  induction vs with
  | nil => exact fun _ => rfl
  | cons v rest ih =>
      intro s
      rw [List.mapM_cons]
      refine (placeOf_ensures v).bind ?_
      rintro q s' rfl
      exact (ih s').bind fun _ _ hs => hs

/-- An operation is retired as the last one emitted, or it is left alone. -/
theorem retire_fed {r : ReadyOp} {o : Operation} (h : IsFed k₀ s) (ho₀ : k₀.op? r.op = some o)
    (hnew : r.op ∉ s.emitted.toList) :
    Ensures (retire task r) s fun retired s' => (retired = false → s' = s) ∧
      (retired = true → IsFed k₀ s' ∧ s'.frontier = s.frontier ∧ s'.front = s.front ∧
        ∃ s₁, AddsNew k₀ s s₁ ∧ s'.emitted = s₁.emitted.push r.op) := by
  unfold retire
  refine (placesOf_ensures r.qubits s).bind ?_
  rintro ps _ rfl
  rw [ensures_get_bind, (h.pending _ hnew).trans ho₀]
  dsimp only
  split
  · exact ⟨fun _ => rfl, fun hfalse => by cases hfalse⟩
  · refine (occupyAll_fed ps h).bind fun ws s₁ ⟨hadv, hws, _⟩ => ?_
    have hnew₁ : r.op ∉ s₁.emitted.toList := by
      rwa [hadv.emitted.mem_iff (Kernel.lt_of_op?_eq_some ho₀)]
    have ho := (hadv.fed.pending _ hnew₁).trans ho₀
    have hlt : ∀ q ∈ ps, q < s₁.onQubit.size := by
      intro q hq
      obtain ⟨w, -, hw⟩ := forall₂_mem_left hws hq
      exact (Array.getElem?_eq_some_iff.mp hw).1
    cases hset : s₁.kernel.setOperands r.op ws with
    | error e =>
        rw [ensures_get_bind, hset]
        trivial
    | ok k =>
        obtain ⟨hwires, o', ho', -, -, rfl⟩ := Kernel.setOperands_eq_ok_iff.mp hset
        cases ho.symm.trans ho'
        refine Returns.ensures ((returns_of_eq (retired_eq hset hlt)).mpr
          ⟨fun hfalse => (by cases hfalse), fun _ => ⟨?_, hadv.frontier, hadv.front, s₁,
            hadv.emitted, rfl⟩⟩)
        show Fed k₀ _ _ (s₁.emitted.push r.op).toList
        rw [Array.toList_push]
        refine hadv.fed.emit (Kernel.Emits.rewired hadv.fed.consistent ho hwires) hnew₁
          (fun o₀ ho₀' => ?_) (fun w hw => ?_) fun q w hq => ?_
        · cases ho₀.symm.trans ho₀'
          exact ⟨rfl, rfl⟩
        · obtain ⟨q, -, hq⟩ := forall₂_mem_right hws hw
          exact ⟨q, hq⟩
        · refine (of_getElem?_moveTo ps hq).imp_right fun hw => ?_
          unfold settled at hw
          split at hw
          · simp at hw
          · simpa using hw

/-! ## What changes nothing of this -/

/-- Two states that agree in what is emitted and in what waits. -/
structure Aside (s s' : Router) : Prop where
  kernel : s'.kernel = s.kernel
  onQubit : s'.onQubit = s.onQubit
  emitted : s'.emitted = s.emitted
  front : s'.front = s.front
  frontier : s.frontier.Same s'.frontier

instance : IsPreorder Router Aside where
  refl s := ⟨rfl, rfl, rfl, rfl, .refl s.frontier⟩
  trans _ _ _ h h' := ⟨h'.kernel.trans h.kernel, h'.onQubit.trans h.onQubit,
    h'.emitted.trans h.emitted, h'.front.trans h.front, h.frontier.trans h'.frontier⟩

theorem Same.aside (h : s.Same s') : Aside s s' := by
  obtain ⟨f, hf, rfl⟩ := h
  exact ⟨rfl, rfl, rfl, rfl, hf⟩

theorem noteBlocked_aside (d : Device) (r : ReadyOp) (s : Router) :
    Ensures (noteBlocked d r) s fun _ s' => Aside s s' := by
  unfold noteBlocked
  refine (placesOf_ensures r.qubits s).bind ?_
  rintro ps _ rfl
  dsimp only
  split
  · split
    · trivial
    · exact ⟨rfl, rfl, rfl, rfl, .refl _⟩
  · exact ⟨rfl, rfl, rfl, rfl, .refl _⟩

theorem chooseSwap_aside (s : Router) : Keeps Aside (chooseSwap task) s := by
  refine keeps_chooseSwap_of (fun c s => (swapPlaces_meets c).mono ?_ ?_) (fun s => ?_) s
  · rintro _ _ ⟨rfl, -⟩
    exact ⟨rfl, rfl, rfl, rfl, .refl _⟩
  · rintro _ _ ⟨-, rfl⟩
    exact Std.Refl.refl _
  · exact (lookAhead_meets task s).mono (fun _ _ h => h.1.aside) fun _ _ h => h.aside

/-! ## How a run stands -/

/-- How a run from the kernel `k₀` stands in every state that it comes through. -/
structure Running (task : RoutingTask) (k₀ : Kernel) (waiting : List ReadyOp) (s : Router) :
    Prop where
  fed : IsFed k₀ s
  tracks : Tracks k₀ task.labels s.emitted.toList s.frontier waiting

variable {waiting rest : List ReadyOp} {r : ReadyOp}

theorem Running.perm (h : Running task k₀ waiting s) (hperm : waiting.Perm rest) :
    Running task k₀ rest s := ⟨h.fed, h.tracks.perm hperm⟩

theorem Running.aside (h : Running task k₀ waiting s) (haside : Aside s s') :
    Running task k₀ waiting s' := by
  obtain ⟨hkernel, honQubit, hemitted, -, hfrontier⟩ := haside
  refine ⟨?_, ?_⟩
  · rw [IsFed, hkernel, honQubit, hemitted]
    exact h.fed
  · rw [hemitted]
    exact h.tracks.same hfrontier

/-- New operations are none that the original kernel has. -/
private theorem Running.grow (h : Running task k₀ waiting s) (hemitted : AddsNew k₀ s s') :
    Tracks k₀ task.labels s'.emitted.toList s.frontier waiting := by
  obtain ⟨new, heq, hnew⟩ := hemitted
  rw [heq]
  exact h.tracks.grow fun x hx => Kernel.op?_eq_none_of_le (hnew x hx)

theorem Running.advance (h : Running task k₀ waiting s) (hadv : Advances k₀ s s') :
    Running task k₀ waiting s' :=
  ⟨hadv.fed, hadv.frontier ▸ h.grow hadv.emitted⟩

section Consistent

variable (hk : k₀.Consistent)

include hk

/-- What a retired operation releases waits beside what waited before. -/
theorem Running.visit {o : Operation} {s₁ : Router} (h : Running task k₀ (r :: rest) s)
    (ho : k₀.op? r.op = some o) (hfed : IsFed k₀ s') (hfrontier : s'.frontier = s.frontier)
    (hnew : AddsNew k₀ s s₁) (hemitted : s'.emitted = s₁.emitted.push r.op) :
    Ensures (visit task r.op) s' fun released s'' => Running task k₀ (released ++ rest) s'' := by
  have hlist : s'.emitted.toList = s₁.emitted.toList ++ [r.op] := by
    rw [hemitted, Array.toList_push]
  obtain ⟨us, hvisit, hcount⟩ := visit_eq hfed ho (.inr (by simp [hlist]))
  rw [← Kernel.resultsOf_of_op? ho] at hcount
  refine Returns.ensures ((returns_of_eq hvisit).mpr ⟨hfed, ?_⟩)
  have htracks := h.grow hnew
  rw [← hfrontier] at htracks
  exact htracks.visit_waiting hk (fun x => by simp [hlist]) hcount

/-- A layer is tried in order. -/
theorem retireLayer_running (layer : List ReadyOp) {others : List ReadyOp}
    (h : Running task k₀ (layer ++ others) s) : Ensures (retireLayer task layer) s
      fun out s' => Running task k₀ (out.1 ++ others) s' := by
  refine retireLayer_ensures (fun hperm h => h.perm hperm) ?_ layer h
  intro r rest s h
  obtain ⟨hnew, hne, -⟩ := (h.tracks.ready r.op).mp (by simp)
  obtain ⟨o, ho⟩ : ∃ o, k₀.op? r.op = some o := by
    cases ho : k₀.op? r.op with
    | none => simp [Kernel.operandsOf, ho] at hne
    | some o => exact ⟨o, rfl⟩
  refine (retire_fed h.fed ho hnew).mono ?_
  rintro retired s₁ ⟨hleft, hretired⟩
  cases retired with
  | false =>
      obtain rfl := hleft rfl
      exact (noteBlocked_aside task.device r s₁).mono fun _ _ haside => h.aside haside
  | true =>
      obtain ⟨hfed, hfrontier, -, s', hadds, hpush⟩ := hretired rfl
      exact h.visit hk ho hfed hfrontier hadds hpush

/-- The front layer is tried once. -/
theorem round_running (h : Running task k₀ s.front s) :
    Ensures (round task) s fun _ s' => Running task k₀ s'.front s' := by
  unfold round
  rw [ensures_get_bind]
  have hbegun : Running task k₀ (s.front ++ []) (begun s) := by
    rw [List.append_nil]
    exact ⟨h.fed, h.tracks⟩
  refine ((retireLayer_running hk s.front hbegun).bind fun out s₁ hout => ?_)
  rw [List.append_nil] at hout
  exact ⟨hout.fed, hout.tracks⟩

omit hk in
private theorem insertSwap_running (h : Running task k₀ s.front s) (a b : Nat) :
    Ensures (insertSwap a b) s fun _ s' => Running task k₀ s'.front s' :=
  (insertSwap_fed h.fed a b).mono fun _ _ hadv => hadv.front ▸ h.advance hadv

omit hk in
private theorem walk_running (l : List (Nat × Nat)) : ∀ {s : Router}, Running task k₀ s.front s →
    Ensures (l.forM fun (a, b) => insertSwap a b) s fun _ s' => Running task k₀ s'.front s' := by
  induction l with
  | nil => exact fun h => h
  | cons c rest ih =>
      intro s h
      exact (insertSwap_running h c.1 c.2).bind fun _ s₁ h₁ => ih h₁

omit hk in
private theorem release_running (h : Running task k₀ s.front s) :
    Ensures (release task) s fun _ s' => Running task k₀ s'.front s' := by
  unfold release
  rw [ensures_get_bind]
  split
  · refine (placeOf_ensures _).bind ?_
    rintro a s rfl
    refine (placeOf_ensures _).bind ?_
    rintro b s rfl
    split
    · trivial
    · exact (walk_running _ h).bind fun _ s₁ h₁ => ⟨h₁.fed, h₁.tracks⟩
  · exact h

omit hk in
/-- A stuck layer is unblocked by swaps. -/
theorem unblock_running {t : Tally} (h : Running task k₀ s.front s) :
    Ensures (unblock task t) s fun _ s' => Running task k₀ s'.front s' := by
  unfold unblock
  split
  · exact (release_running h).bind fun _ _ h₁ => h₁
  · refine Ensures.bind (m := fun _ s' => Running task k₀ s'.front s') ?_ fun c s₁ h₁ => ?_
    · exact (chooseSwap_aside s).mono (fun _ s' haside => haside.front ▸ h.aside haside)
        fun _ _ _ => trivial
    · refine (insertSwap_running h₁ c.1 c.2).bind fun _ s₂ h₂ => ?_
      refine Ensures.bind (m := fun _ s' => Running task k₀ s'.front s') ⟨h₂.fed, h₂.tracks⟩
        fun _ s₃ h₃ => ?_
      refine (updateDecay_ensures task.options (t.searches + 1) c.1 c.2).bind ?_
      rintro _ _ ⟨decay, -, rfl⟩
      exact ⟨h₃.fed, h₃.tracks⟩

/-- One turn of a run. -/
theorem turn_running {t : Tally} (h : Running task k₀ s.front s) :
    Ensures (turn task t) s fun _ s' => Running task k₀ s'.front s' := by
  unfold turn
  rw [ensures_get_bind]
  split
  · rename_i hempty
    split
    · exact h
    · have htracks := h.tracks
      rw [List.isEmpty_iff.mp hempty] at htracks
      exact ⟨h.fed, htracks.enterMeasurement⟩
  · refine (round_running hk h).bind fun progress s₁ h₁ => ?_
    split
    · exact h₁
    · exact (unblock_running h₁).bind fun _ _ h₂ => h₂

/-! ## The allocations -/

/-- An allocation is placed. -/
theorem placeSource_running {x w : Nat} {o : Operation} (h : Running task k₀ s.front s)
    (hnew : x ∉ s.emitted.toList) (ho₀ : k₀.op? x = some o) (halloc : o.kind.isAlloc = true)
    (hoperands : o.operands = []) (hresults : o.results = [w]) :
    Ensures (placeSource task x) s fun _ s' =>
      Running task k₀ s'.front s' ∧ s'.emitted.toList = s.emitted.toList ++ [x] := by
  have ho := (h.fed.pending x hnew).trans ho₀
  obtain ⟨us, hvisit, hcount⟩ : ∃ us, visit task x s = .ok _ _ ∧ _ :=
    visit_eq h.fed ho₀ (.inl hnew)
  rw [← Kernel.resultsOf_of_op? ho₀] at hcount
  have hhead : (s.kernel.op? x).bind (·.results.head?) = some w := by
    rw [ho, Option.bind_some, hresults]
    rfl
  have hlist : (s.emitted.push x).toList = s.emitted.toList ++ [x] := Array.toList_push
  unfold placeSource
  rw [ensures_get_bind, hhead]
  dsimp only
  split
  · trivial
  · refine (placeOf_ensures _).bind fun q s₁ hs => ?_
    subst s₁
    rw [ensures_bind_of_eq hvisit]
    let s₁ : Router := { s with
      frontier := (s.frontier.reachAll k₀ task.labels .retire us).1
      front := s.front ++ (s.frontier.reachAll k₀ task.labels .retire us).2 }
    refine Ensures.bind (m := fun _ s' => s' = s₁) rfl fun _ s₂ hs => ?_
    subst s₂
    refine (setWire_ensures q (some w) s₁).bind fun _ s₂ hs => ?_
    subst s₂
    refine ⟨⟨?_, ?_⟩, hlist⟩
    · show Fed k₀ _ _ (s.emitted.push x).toList
      rw [hlist]
      refine h.fed.emit (Kernel.Emits.setPhysical h.fed.consistent ho) hnew (fun o₀ ho₀' => ?_)
        (by simp [hoperands]) fun r v hr => ?_
      · cases ho₀.symm.trans ho₀'
        exact ⟨rfl, rfl⟩
      · refine (of_getElem?_set hr).imp_right fun hv => ?_
        cases hv
        simp [hresults]
    · show Tracks k₀ task.labels (s.emitted.push x).toList _ _
      have hsource : k₀.operandsOf x = [] := by rw [Kernel.operandsOf_of_op? ho₀, hoperands]
      rw [hlist]
      refine (h.tracks.visit_source hk hnew (by simp) (fun y => ?_) hsource
        (Kernel.isMeasure_of_isAlloc ho₀ halloc)).perm List.perm_append_comm
      rw [hcount]
      by_cases hyx : y = x
      · subst hyx
        simp [hsource]
      · simp [hyx]

/-- The allocations are placed, one after the other. -/
theorem placeSources_running {sources : List Nat} (hnodup : sources.Nodup)
    (hsources : ∀ x ∈ sources, ∃ w,
      k₀.op? x = some { kind := .alloc, operands := [], results := [w] })
    (h : Running task k₀ s.front s) (hnone : s.emitted.toList = []) :
    Ensures (sources.forM (placeSource task)) s fun _ s' =>
      Running task k₀ s'.front s' ∧ s'.emitted.toList = sources := by
  -- what has been placed is emitted, and what is left is not
  let P : List Nat → List Nat → Router → Prop := fun past rest s =>
    past ++ rest = sources ∧ Running task k₀ s.front s ∧ s.emitted.toList = past
  have hstep : ∀ past x rest s, P past (x :: rest) s →
      Ensures (placeSource task x) s fun _ s' => P (past ++ [x]) rest s' := by
    rintro past x rest s ⟨hall, h, hpast⟩
    obtain ⟨w, ho⟩ := hsources x (hall ▸ List.mem_append_right past List.mem_cons_self)
    have hnew : x ∉ s.emitted.toList := by
      rw [hpast]
      rw [← hall] at hnodup
      exact fun hmem => (List.nodup_append.mp hnodup).2.2 x hmem x List.mem_cons_self rfl
    refine (placeSource_running hk h hnew ho rfl rfl rfl).mono ?_
    rintro _ s' ⟨h', hemitted⟩
    exact ⟨by rw [← hall, List.append_assoc]; rfl, h', hemitted.trans (hpast ▸ rfl)⟩
  have hbegin : P [] sources s := ⟨rfl, h, hnone⟩
  refine (Ensures.forM P hstep hbegin).mono ?_
  rintro _ s' ⟨hall, h', hemitted⟩
  rw [List.append_nil] at hall
  exact ⟨h', hemitted.trans hall⟩

end Consistent

/-! ## The whole course -/

section Start

variable {sources : List Nat} {placement : Placement} {t : Tally} (hk : k₀.Consistent)
  (hnodup : sources.Nodup) (hsources : ∀ x ∈ sources, ∃ w,
    k₀.op? x = some { kind := .alloc, operands := [], results := [w] })

include hk hnodup hsources

/-- Between two turns of a run the frontier is in step, and all allocations are emitted. -/
theorem Reaches.running (h : Reaches task sources (start k₀ placement task.device) t s) :
    Running task k₀ s.front s ∧ sources ⊆ s.emitted.toList := by
  induction h with
  | placed hs =>
      obtain ⟨hrunning, hemitted⟩ := (placeSources_running hk hnodup hsources
        (s := start k₀ placement task.device) ⟨Fed.start hk _, Tracks.initial⟩ rfl).of_ok hs
      exact ⟨hrunning, hemitted ▸ List.Subset.refl _⟩
  | @turn t t' s s' h hturn ih =>
      have hextends : Extends s s' := (Allows.keeps_turn t s : Keeps Extends _ s).of_ok hturn
      exact ⟨(turn_running hk ih.1).of_ok hturn, fun x hx => hextends.emitted.subset (ih.2 hx)⟩

/-- So it is in every state that a run comes through. -/
theorem Comes.running (h : Comes task sources (start k₀ placement task.device) s) :
    Running task k₀ s.front s ∧ sources ⊆ s.emitted.toList := by
  obtain ⟨t, s₁, hreaches, heq⟩ := h
  obtain ⟨hrunning, hemitted⟩ := hreaches.running hk hnodup hsources
  rcases heq with rfl | ⟨progress, hround⟩
  · exact ⟨hrunning, hemitted⟩
  · have hextends : Extends s₁ s := (Allows.keeps_round s₁ : Keeps Extends _ s₁).of_ok hround
    exact ⟨(round_running hk hrunning).of_ok hround,
      fun x hx => hextends.emitted.subset (hemitted hx)⟩

end Start

end QubitMapper.Router
