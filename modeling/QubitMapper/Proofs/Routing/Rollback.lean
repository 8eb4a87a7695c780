import QubitMapper.Proofs.Routing.Frontier
import QubitMapper.Routing.Lookahead

/-!
# Looks ahead taken back

A look ahead counts on the frontier of the run and notes each visit. Taking back what was noted
restores the counts, and it has changed nothing else.

## Main results

* `Frontier.Explored.rollback`: taking back what was noted leaves the frontier that was.
* `Frontier.Same.calls`: on the frontier that was, all later calls release what they would have
  released.
* `Lookahead.layer_spec`: looking ahead leaves no trace on the frontier and names qubits by their
  labels.
-/

namespace QubitMapper

namespace Frontier

variable {k : Kernel} {labels : Labels} {f f' f'' : Frontier} {noted noted' : List Nat} {y : Nat}

/-- Two frontiers that cannot be told apart. An operation that was never reached is one that was
reached no times. -/
structure Same (f f' : Frontier) : Prop where
  count : ∀ x, f'.count x = f.count x
  deferred : f'.deferred = f.deferred
  measuring : f'.measuring = f.measuring

theorem Same.refl (f : Frontier) : f.Same f := ⟨fun _ => rfl, rfl, rfl⟩

theorem Same.trans (h : f.Same f') (h' : f'.Same f'') : f.Same f'' :=
  ⟨fun x => (h'.count x).trans (h.count x), h'.deferred.trans h.deferred,
    h'.measuring.trans h.measuring⟩

/-! ## Calls on frontiers that cannot be told apart -/

/-- A call that moves a run on. -/
inductive Call where
  | visit (k : Kernel) (labels : Labels) (op : Nat)
  | enterMeasurement

/-- The frontier after a call, and what the call releases. -/
def call (f : Frontier) : Call → Except CircuitError (Frontier × List ReadyOp)
  | .visit k labels op => f.visit k labels op
  | .enterMeasurement => .ok f.enterMeasurement

/-- The frontier after some calls, and what each of them releases. -/
def calls (f : Frontier) : List Call → Except CircuitError (Frontier × List (List ReadyOp))
  | [] => .ok (f, [])
  | c :: rest => do
      let (f, released) ← f.call c
      let (f, more) ← f.calls rest
      return (f, released :: more)

private theorem Same.reach (h : f.Same f') (mode : VisitMode) (op : Nat) :
    (f.reach k labels mode op).1.Same (f'.reach k labels mode op).1 ∧
      (f'.reach k labels mode op).2 = (f.reach k labels mode op).2 := by
  have hout : (f'.reach k labels mode op).1.deferred = (f.reach k labels mode op).1.deferred ∧
      (f'.reach k labels mode op).2 = (f.reach k labels mode op).2 := by
    unfold Frontier.reach
    rw [h.count, h.deferred, h.measuring]
    cases k.op? op with
    | none => exact ⟨rfl, rfl⟩
    | some o =>
        dsimp only
        split
        · exact ⟨rfl, rfl⟩
        · split
          · exact ⟨rfl, rfl⟩
          · split
            · exact ⟨rfl, rfl⟩
            · split <;> exact ⟨rfl, rfl⟩
  refine ⟨⟨fun x => ?_, hout.1, ?_⟩, hout.2⟩
  · rw [count_reach, count_reach, h.count]
  · exact (measuring_reachAll [op] f').trans
      (h.measuring.trans (measuring_reachAll [op] f).symm)

private theorem Same.reachAll (mode : VisitMode) (us : List Nat) : ∀ {f f' : Frontier}, f.Same f' →
    (f.reachAll k labels mode us).1.Same (f'.reachAll k labels mode us).1 ∧
      (f'.reachAll k labels mode us).2 = (f.reachAll k labels mode us).2 := by
  induction us with
  | nil => exact fun h => ⟨h, rfl⟩
  | cons op rest ih =>
      intro f f' h
      obtain ⟨hfirst, hnow⟩ := h.reach (k := k) mode op
      obtain ⟨hrest, hlater⟩ := ih hfirst
      exact ⟨hrest, congrArg₂ (· ++ ·) hnow hlater⟩

/-- A call fails on both of two frontiers that cannot be told apart, or gives the same on both. -/
private theorem Same.call (h : f.Same f') (c : Call) :
    (∃ e, f.call c = .error e ∧ f'.call c = .error e) ∨
      ∃ f₁ f₁' released, f.call c = .ok (f₁, released) ∧ f'.call c = .ok (f₁', released) ∧
        f₁.Same f₁' := by
  cases c with
  | visit k labels op =>
      simp only [Frontier.call, Frontier.visit]
      cases k.users op with
      | error e => exact .inl ⟨e, rfl, rfl⟩
      | ok us =>
          obtain ⟨hsame, hreleased⟩ := Same.reachAll (k := k) .retire us h
          exact .inr ⟨_, _, _, rfl, hreleased ▸ rfl, hsame⟩
  | enterMeasurement =>
      refine .inr ⟨f.enterMeasurement.1, f'.enterMeasurement.1, f.deferred, rfl, ?_, ?_⟩
      · simp [Frontier.call, Frontier.enterMeasurement, h.deferred]
      · exact ⟨h.count, rfl, rfl⟩

/-- Calls on frontiers that cannot be told apart release the same. -/
theorem Same.calls (cs : List Call) : ∀ {f f' : Frontier}, f.Same f' →
    (·.2) <$> f'.calls cs = (·.2) <$> f.calls cs := by
  induction cs with
  | nil => exact fun _ => rfl
  | cons c rest ih =>
      intro f f' h
      unfold Frontier.calls
      rcases h.call c with ⟨e, he, he'⟩ | ⟨f₁, f₁', released, hc, hc', hsame⟩
      · rw [he, he']
      · have hrest := ih hsame
        rw [hc, hc']
        simp only [bind, Except.bind, pure, Except.pure, Functor.map, Except.map] at hrest ⊢
        cases hf : f₁.calls rest <;> cases hf' : f₁'.calls rest <;> simp_all

/-! ## Looks ahead -/

/-- A frontier with visits of a look ahead on it. -/
structure Explored (f f' : Frontier) (noted : List Nat) : Prop where
  count : ∀ x, f'.count x = f.count x + noted.count x
  deferred : f'.deferred = f.deferred
  measuring : f'.measuring = f.measuring

theorem Explored.refl (f : Frontier) : Explored f f [] := ⟨by simp, rfl, rfl⟩

theorem Explored.trans (h : Explored f f' noted) (h' : Explored f' f'' noted') :
    Explored f f'' (noted ++ noted') where
  count x := by rw [h'.count, h.count, List.count_append, Nat.add_assoc]
  deferred := h'.deferred.trans h.deferred
  measuring := h'.measuring.trans h.measuring

private theorem deferred_reach (f : Frontier) (op : Nat) :
    (f.reach k labels .explore op).1.deferred = f.deferred := by
  unfold reach
  cases k.op? op with
  | none => rfl
  | some o =>
      dsimp only
      split
      · rfl
      · split
        · rfl
        · split
          · rfl
          · rw [if_neg (by simp)]

/-- Visits for a look ahead hold nothing back. -/
theorem deferred_reachAll (us : List Nat) :
    ∀ f : Frontier, (f.reachAll k labels .explore us).1.deferred = f.deferred := by
  induction us with
  | nil => exact fun _ => rfl
  | cons op rest ih => exact fun f => (ih _).trans (deferred_reach f op)

/-- Every visit of a look ahead is noted. -/
theorem explored_reachAll (f : Frontier) (us : List Nat) :
    Explored f (f.reachAll k labels .explore us).1 us where
  count x := count_reachAll us f x
  deferred := deferred_reachAll us f
  measuring := measuring_reachAll us f

/-- Looks ahead from some operations are visits of all their consumers in order. -/
theorem exploreAll_eq (ys : List Nat) : ∀ f : Frontier, f.exploreAll k labels ys =
    (fun uss => ((f.reachAll k labels .explore uss.flatten).1,
      (f.reachAll k labels .explore uss.flatten).2, uss.flatten)) <$> ys.mapM k.users := by
  induction ys with
  | nil => exact fun f => rfl
  | cons y rest ih =>
      intro f
      rw [List.mapM_cons]
      unfold exploreAll explore
      cases k.users y with
      | error e => rfl
      | ok us =>
          simp only [bind, Except.bind, pure, Except.pure, ih]
          cases rest.mapM k.users with
          | error e => rfl
          | ok uss => simp [Functor.map, Except.map, reachAll_append]

/-- Visits that were counted can be taken back. -/
private theorem rollback_spec (l : List Nat) : ∀ {f : Frontier}, (∀ x, l.count x ≤ f.count x) →
    ∃ f', f.rollback l = .ok f' ∧ (∀ x, f'.count x + l.count x = f.count x) ∧
      f'.deferred = f.deferred ∧ f'.measuring = f.measuring := by
  induction l with
  | nil => exact fun {f} _ => ⟨f, rfl, by simp, rfl, rfl⟩
  | cons op rest ih =>
      intro f hcount
      obtain ⟨n, hn⟩ : ∃ n, f.visits[op]? = some (n + 1) := by
        have hpos : 0 < f.count op := by
          have := hcount op
          rw [List.count_cons_self] at this
          omega
        rw [count, Std.TreeMap.getD_eq_getD_getElem?] at hpos
        cases h : f.visits[op]? with
        | none => simp [h] at hpos
        | some m =>
            cases m with
            | zero => simp [h] at hpos
            | succ n => exact ⟨n, rfl⟩
      have hop : f.count op = n + 1 := by rw [count, Std.TreeMap.getD_eq_getD_getElem?, hn]; rfl
      let f₁ : Frontier := { f with visits := f.visits.insert op n }
      have hcount₁ : ∀ x, f₁.count x + [op].count x = f.count x := by
        intro x
        show (f.visits.insert op n).getD x 0 + _ = _
        rw [Std.TreeMap.getD_insert]
        simp only [Nat.compare_eq_eq]
        by_cases h : op = x
        · subst h
          simp [hop]
        · simp [h, count]
      have hsplit : ∀ x, (op :: rest).count x = [op].count x + rest.count x := by
        intro x
        rw [← List.count_append]
        rfl
      obtain ⟨f', hrollback, hcount', hdeferred, hmeasuring⟩ := ih (f := f₁) fun x => by
        have h₁ := hcount x
        have h₂ := hcount₁ x
        rw [hsplit] at h₁
        omega
      refine ⟨f', ?_, fun x => ?_, hdeferred, hmeasuring⟩
      · unfold rollback
        rw [hn]
        exact hrollback
      · rw [hsplit, ← hcount₁, ← hcount']
        omega

/-- Taking back what was noted leaves the frontier that was. -/
theorem Explored.rollback (h : Explored f f' noted) :
    ∃ f'', f'.rollback noted = .ok f'' ∧ f.Same f'' := by
  obtain ⟨f'', hrollback, hcount, hdeferred, hmeasuring⟩ :=
    rollback_spec noted (f := f') fun x => h.count x ▸ Nat.le_add_left _ _
  refine ⟨f'', hrollback, fun x => ?_, hdeferred.trans h.deferred, hmeasuring.trans h.measuring⟩
  have h₁ := hcount x
  rw [h.count] at h₁
  exact Nat.add_right_cancel h₁

/-- Looks ahead from operations of a consistent kernel succeed. -/
theorem exploreAll_ok (labels : Labels) (hk : k.Consistent) (f : Frontier) (ys : List Nat) :
    ∃ out, f.exploreAll k labels ys = .ok out := by
  obtain ⟨uss, huss, -⟩ : ∃ uss, ys.mapM k.users = .ok uss ∧
      List.Forall₂ (fun _ _ => True) ys uss :=
    exists_mapM_eq_ok fun y _ => (hk.users_ok y).imp fun _ h => ⟨h, trivial⟩
  exact ⟨_, by rw [exploreAll_eq, huss]; rfl⟩

/-- What looks ahead have noted is what they have counted. -/
theorem explored_of_exploreAll {ys : List Nat} {released : List ReadyOp}
    (h : f.exploreAll k labels ys = .ok (f', released, noted)) : Explored f f' noted := by
  rw [exploreAll_eq] at h
  obtain ⟨uss, -, h⟩ := Except.map_eq_ok.mp h
  cases h
  exact explored_reachAll f uss.flatten

end Frontier

/-! ## The operations ahead of a layer -/

/-- The qubits of an operation are labels. -/
def ReadyOp.Labelled (labels : Labels) (r : ReadyOp) : Prop :=
  ∀ q ∈ r.qubits, ∃ w : Nat, labels[w]? = some q

theorem labelled_of_mapM {labels : Labels} {ws qubits : List Nat}
    (h : ws.mapM (labels[·]?) = some qubits) : ∀ q ∈ qubits, ∃ w : Nat, labels[w]? = some q := by
  intro q hq
  obtain ⟨w, -, hw⟩ := forall₂_mem_right (mapM_eq_some_iff.mp h) hq
  exact ⟨w, hw⟩

section Labelled

variable {k : Kernel} {labels : Labels} {mode : VisitMode}

private theorem reach_labelled (f : Frontier) (op : Nat) :
    ∀ r ∈ (f.reach k labels mode op).2, r.Labelled labels := by
  intro r hr
  unfold Frontier.reach at hr
  cases ho : k.op? op with
  | none => simp [ho] at hr
  | some o =>
      simp only [ho] at hr
      split at hr
      · simp at hr
      · split at hr
        · simp at hr
        · rename_i qubits hqubits
          have hall : (⟨op, qubits⟩ : ReadyOp).Labelled labels := labelled_of_mapM hqubits
          split at hr
          · rw [List.mem_singleton.mp hr]
            exact hall
          · split at hr <;> simp at hr

private theorem reachAll_labelled (us : List Nat) :
    ∀ f : Frontier, ∀ r ∈ (f.reachAll k labels mode us).2, r.Labelled labels := by
  induction us with
  | nil => simp [Frontier.reachAll]
  | cons op rest ih =>
      intro f r hr
      unfold Frontier.reachAll at hr
      rcases List.mem_append.mp hr with hr | hr
      · exact reach_labelled f op r hr
      · exact ih _ r hr

theorem exploreAll_labelled {f f' : Frontier} {ys noted : List Nat} {released : List ReadyOp}
    (h : f.exploreAll k labels ys = .ok (f', released, noted)) :
    ∀ r ∈ released, r.Labelled labels := by
  rw [Frontier.exploreAll_eq] at h
  obtain ⟨uss, -, h⟩ := Except.map_eq_ok.mp h
  cases h
  exact reachAll_labelled uss.flatten f

namespace Lookahead

private theorem collect_spec (capacity fuel : Nat) {f₀ f' : Frontier} {ops : List ReadyOp}
    {noted' : List Nat} : ∀ {f : Frontier} {level collected : List ReadyOp} {noted : List Nat},
      f₀.Explored f noted → (∀ r ∈ collected, r.Labelled labels) →
      collect k labels capacity fuel f level collected noted = .ok (f', ops, noted') →
      f₀.Explored f' noted' ∧ ∀ r ∈ ops, r.Labelled labels := by
  induction fuel with
  | zero =>
      intro f level collected noted hf hcollected h
      cases h
      exact ⟨hf, hcollected⟩
  | succ fuel ih =>
      intro f level collected noted hf hcollected h
      unfold collect at h
      split at h
      · cases h
        exact ⟨hf, hcollected⟩
      · obtain ⟨⟨f₁, later, more⟩, hnext, h⟩ := Except.bind_eq_ok.mp h
        refine ih (hf.trans (Frontier.explored_of_exploreAll hnext)) (fun r hr => ?_) h
        rcases List.mem_append.mp (List.mem_of_mem_take hr) with hr | hr
        · exact hcollected r hr
        · exact exploreAll_labelled hnext r (List.mem_of_mem_filter hr)

/-- Looking ahead leaves no trace, and the operations found act on labelled qubits. -/
theorem layer_spec {f f' : Frontier} {front ops : List ReadyOp} {capacity : Nat}
    (h : layer k labels f front capacity = .ok (f', ops)) :
    f.Same f' ∧ ∀ r ∈ ops, r.Labelled labels := by
  obtain ⟨⟨f₁, ops₁, noted⟩, hcollect, h⟩ := Except.bind_eq_ok.mp h
  obtain ⟨f₂, hrollback, h⟩ := Except.bind_eq_ok.mp h
  cases h
  obtain ⟨hexplored, hops⟩ := collect_spec _ _ (.refl f) (by simp) hcollect
  obtain ⟨f₂, hrollback', hsame⟩ := hexplored.rollback
  cases hrollback.symm.trans hrollback'
  exact ⟨hsame, hops⟩

private theorem collect_ok (hk : k.Consistent) (capacity fuel : Nat) :
    ∀ (f : Frontier) (level collected : List ReadyOp) (noted : List Nat),
      ∃ out, collect k labels capacity fuel f level collected noted = .ok out := by
  induction fuel with
  | zero => exact fun f level collected noted => ⟨_, rfl⟩
  | succ fuel ih =>
      intro f level collected noted
      unfold collect
      split
      · exact ⟨_, rfl⟩
      · obtain ⟨⟨f₁, later, more⟩, hnext⟩ := Frontier.exploreAll_ok labels hk f (level.map (·.op))
        rw [hnext]
        exact ih _ _ _ _

/-- Looking ahead in a consistent kernel succeeds. -/
theorem layer_ok (labels : Labels) (hk : k.Consistent) (f : Frontier) (front : List ReadyOp)
    (capacity : Nat) : ∃ out, layer k labels f front capacity = .ok out := by
  obtain ⟨⟨f₁, ops, noted⟩, hcollect⟩ :
      ∃ out, collect k labels capacity _ f front [] [] = .ok out :=
    collect_ok hk capacity (k.ops.size + 1) f front [] []
  obtain ⟨hexplored, -⟩ := collect_spec _ _ (.refl f) (by simp) hcollect
  obtain ⟨f', hrollback, -⟩ := hexplored.rollback
  refine ⟨(f', ops), ?_⟩
  rw [layer, hcollect]
  simp [hrollback, bind, Except.bind, pure, Except.pure]

end Lookahead

end Labelled

/-- What is known of a frontier is known of one that cannot be told from it. -/
theorem Tracks.same {k : Kernel} {labels : Labels} {visited : List Nat} {f f' : Frontier}
    {waiting : List ReadyOp} (h : Tracks k labels visited f waiting) (hsame : f.Same f') :
    Tracks k labels visited f' waiting where
  count x hx := by rw [hsame.count, h.count x hx]
  nodup := by rw [hsame.deferred]; exact h.nodup
  carries := by rw [hsame.deferred]; exact h.carries
  ready := by rw [hsame.deferred]; exact h.ready
  closed := h.closed
  unheld := by rw [hsame.deferred, hsame.measuring]; exact h.unheld
  early := by rw [hsame.deferred, hsame.measuring]; exact h.early

end QubitMapper
