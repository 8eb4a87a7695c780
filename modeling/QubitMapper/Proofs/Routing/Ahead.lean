import QubitMapper.Proofs.Routing.Course
import QubitMapper.Proofs.Routing.Levels

/-!
# What a look ahead finds

A look ahead visits on the frontier of the run, on top of what retired operations have counted
there, and in a kernel that the run has changed. Neither matters: the visits release level after
level of the kernel that the run began with, until enough operations are found or no level is left.

## Main results

* `Frontier.Awaits.explore`: looking ahead from a level releases the next one.
* `Frontier.Awaits.collect`: what is collected from all levels.
* `Router.lookAhead_levels`: what a look ahead finds in a run over the kernel of a program.
-/

namespace QubitMapper

/-- Whether an operation is a two-qubit operation whose qubits have to be adjacent. -/
def Kernel.couples (k : Kernel) (x : Nat) : Bool :=
  (k.op? x).any fun o => o.kind.isSupported && !o.kind.isMeasure && o.operands.length == 2

/-! ## Collecting -/

namespace Lookahead

variable {k : Kernel} {labels : Labels} {capacity fuel : Nat} {f f' : Frontier}
  {level next collected : List ReadyOp} {noted more : List Nat}

/-- What is cut off does not come back. -/
theorem take_append_take {α : Type} (l l' : List α) (n : Nat) :
    (l.take n ++ l').take n = (l ++ l').take n := by
  rcases Nat.le_total l.length n with hle | hle
  · rw [List.take_of_length_le hle]
  · rw [List.take_append_of_le_length hle, List.take_append_of_le_length (by simp [hle]),
      List.take_take, Nat.min_self]

/-- At the last level, or when enough is collected, a search is over. -/
theorem collect_stop (hfuel : 0 < fuel) (hlen : collected.length ≤ capacity) {later : List ReadyOp}
    (hstop : level = [] ∧ later = [] ∨ capacity ≤ collected.length) :
    collect k labels capacity fuel f level collected noted =
      .ok (f, (collected ++ later).take capacity, noted) := by
  obtain ⟨fuel, rfl⟩ := Nat.exists_eq_succ_of_ne_zero (Nat.ne_of_gt hfuel)
  have hover : (level.isEmpty || decide (capacity ≤ collected.length)) = true := by
    rw [Bool.or_eq_true, List.isEmpty_iff, decide_eq_true_eq]
    exact hstop.imp_left And.left
  have hall : (collected ++ later).take capacity = collected := by
    rcases hstop with ⟨-, rfl⟩ | hfull
    · rw [List.append_nil, List.take_of_length_le hlen]
    · rw [List.take_append_of_le_length hfull, List.take_of_length_le hlen]
  rw [collect, if_pos hover, hall]

/-- Otherwise it goes on one level. -/
theorem collect_step (hne : level ≠ []) (hroom : collected.length < capacity)
    (hexplore : f.exploreAll k labels (level.map (·.op)) = .ok (f', next, more)) :
    collect k labels capacity (fuel + 1) f level collected noted =
      collect k labels capacity fuel f' next
        ((collected ++ next.filter (counts k)).take capacity) (noted ++ more) := by
  have hgoes : ¬ (level.isEmpty || decide (capacity ≤ collected.length)) = true := by
    rw [Bool.or_eq_true, List.isEmpty_iff, decide_eq_true_eq, not_or]
    exact ⟨hne, Nat.not_le.mpr hroom⟩
  rw [collect, if_neg hgoes, hexplore]
  rfl

/-- Whether an operation counts depends on nothing but the operation. -/
theorem filter_counts (k' : Kernel) (labels : Labels) {xs : List Nat}
    (hsame : ∀ x ∈ xs, k'.op? x = k.op? x) : (xs.map (k.readyOp labels)).filter (counts k') =
      (xs.filter k.couples).map (k.readyOp labels) := by
  rw [List.filter_map]
  refine congrArg _ (List.filter_congr fun x hx => ?_)
  show (k'.op? x).any _ = _
  rw [hsame x hx]
  rfl

/-- What is collected is found, and the visits are taken back. -/
theorem layer_of_collect (hk : k.Consistent) {front ops : List ReadyOp}
    (h : collect k labels capacity (k.ops.size + 1) f front [] [] = .ok (f', ops, noted)) :
    ∃ f₂, layer k labels f front capacity = .ok (f₂, ops) ∧ f.Same f₂ := by
  obtain ⟨⟨f₂, found⟩, hlayer⟩ := layer_ok labels hk f front capacity
  obtain ⟨out, hcollect, hback⟩ := Except.bind_eq_ok.mp hlayer
  cases h.symm.trans hcollect
  obtain ⟨f₃, -, hreturn⟩ := Except.bind_eq_ok.mp hback
  cases hreturn
  exact ⟨f₂, hlayer, (layer_spec hlayer).1⟩

end Lookahead

/-! ## Looking ahead from levels -/

/-- Two kernels agree in the operations that are not yet seen, and in their consumers. -/
def Kernel.AgreesOff (k k' : Kernel) (seen : List Nat) : Prop :=
  ∀ x, x ∉ seen → k'.op? x = k.op? x ∧ k'.users x = k.users x

theorem Kernel.AgreesOff.mono {k k' : Kernel} {seen : List Nat} (h : k.AgreesOff k' seen)
    (more : List Nat) : k.AgreesOff k' (more ++ seen) :=
  fun x hx => h x fun hmem => hx (List.mem_append_right more hmem)

namespace Frontier

variable {k k' : Kernel} {labels : Labels} {f : Frontier} {seen front : List Nat}

/-- The frontier has counted what is seen, and what is held back awaits nothing more. -/
structure Awaits (k : Kernel) (seen : List Nat) (f : Frontier) : Prop where
  count : ∀ x, x ∉ seen → f.count x = (k.operandsOf x).countP (· ∈ seen.flatMap k.resultsOf)
  held : ∀ r ∈ f.deferred, ∀ y ∈ k.producers r.op, y ∈ seen

section Live

variable (hk : k.Consistent) (hlive : ∀ x, ∀ w ∈ k.operandsOf x, ∀ wire, k.wire? w = some wire →
    ∃ o, k.op? wire.producer = some o ∧ w ∈ o.results)
  (hlabels : ∀ x, k.LabelledOp labels x)

include hk

/-- Operations that are new add to the operands that have been produced those that they produce. -/
private theorem countP_front (x : Nat) (h : (front ++ seen).Nodup) :
    (k.operandsOf x).countP (· ∈ (front ++ seen).flatMap k.resultsOf) =
      (k.operandsOf x).countP (· ∈ seen.flatMap k.resultsOf) +
        (front.flatMap k.consumers).count x := by
  induction front with
  | nil => simp
  | cons y rest ih =>
      rw [List.cons_append, List.nodup_cons] at h
      have hvisited : ∀ z, z ∈ y :: rest ++ seen ↔ z ∈ rest ++ seen ∨ z = y := by
        simp [or_comm]
      rw [Kernel.countP_produced hvisited hk h.1, ih h.2, List.flatMap_cons, List.count_append,
        (hk.users_consumers y).2]
      omega

include hlive hlabels

/-- Looking ahead from a level releases the next one. -/
theorem Awaits.explore (h : f.Awaits k seen) (hfront : k.IsFront f.measuring seen front)
    (hagrees : k.AgreesOff k' seen) :
    ∃ f' noted, f.exploreAll k' labels front =
        .ok (f', (k.nextLevel f.measuring seen front).map (k.readyOp labels), noted) ∧
      f'.measuring = f.measuring ∧ f'.Awaits k (front ++ seen) := by
  have hnew : ∀ x ∈ front.flatMap k.consumers, x ∉ front ++ seen := fun x hx => by
    obtain ⟨y, hy, hproducer⟩ := (Kernel.IsFront.mem_flatMap_consumers hk hlive).mp hx
    exact hfront.not_mem_of_consumes hy hproducer
  have hnew' : ∀ x ∈ front.flatMap k.consumers, x ∉ seen := fun x hx hmem =>
    hnew x hx (List.mem_append_right _ hmem)
  have htotal : ∀ x, x ∉ seen → f.count x + (front.flatMap k.consumers).count x =
      (k.operandsOf x).countP (· ∈ (front ++ seen).flatMap k.resultsOf) := fun x hx => by
    rw [h.count x hx, countP_front hk x hfront.nodup]
  have husers : front.mapM k'.users = .ok (front.map k.consumers) := by
    rw [mapM_eq_ok_iff, List.forall₂_map_right_iff, List.forall₂_same]
    intro y hy
    rw [(hagrees y (hfront.not_mem_retired hy)).2, (hk.users_consumers y).1]
  have hfits : Fits k labels f (front.flatMap k.consumers) :=
    { labelled := fun x _ => hlabels x
      count := fun x hx => htotal x (hnew' x hx) ▸ List.countP_le_length
      deferred := fun r hr hmem => by
        obtain ⟨y, hy, hproducer⟩ := (Kernel.IsFront.mem_flatMap_consumers hk hlive).mp hmem
        exact hfront.not_mem_retired hy (h.held r hr y hproducer) }
  have hnext : (completed k f (front.flatMap k.consumers)).filter (f.goes k) =
      k.nextLevel f.measuring seen front := by
    unfold completed Kernel.nextLevel
    rw [List.filter_filter]
    refine List.filter_congr fun x hx => ?_
    rw [htotal x (hnew' x (List.mem_dedup.mp hx)), Bool.and_comm, goes]
    congr 1
    rw [Bool.eq_iff_iff, beq_iff_eq, List.countP_eq_length]
    simp only [decide_eq_true_eq, List.all_eq_true]
    exact Kernel.operands_produced_iff hk (hlive x)
  have hreleased := (reachAll_eq .explore _ hfits).1
  rw [hnext] at hreleased
  refine ⟨(f.reachAll k labels .explore (front.flatMap k.consumers)).1,
    front.flatMap k.consumers, ?_, measuring_reachAll _ f, fun x hx => ?_, fun r hr => ?_⟩
  · have hcongr : f.reachAll k' labels .explore (front.flatMap k.consumers) =
        f.reachAll k labels .explore (front.flatMap k.consumers) :=
      reachAll_congr _ (fun x hx => (hagrees x (hnew' x hx)).1) f
    rw [exploreAll_eq, husers, ← hreleased, ← hcongr]
    rfl
  · rw [count_reachAll, htotal x fun hmem => hx (List.mem_append_right _ hmem)]
  · rw [deferred_reachAll] at hr
    exact fun y hy => List.mem_append_right _ (h.held r hr y hy)

/-- Of what follows a level, as many two-qubit operations are collected as there is room for. It
does not matter how long the search may go on, if it may go on for more levels than operations are
left. -/
theorem Awaits.collect (capacity N : Nat) : ∀ {f : Frontier} {seen front : List Nat}
    {level : List ReadyOp} (collected : List ReadyOp) (noted : List Nat), f.Awaits k seen →
      k.IsFront f.measuring seen front → k.AgreesOff k' seen → level.map (·.op) = front →
      (Kernel.IsFront.remaining k seen).card ≤ N → collected.length ≤ capacity →
      ∃ f' noted', ∀ fuel, N < fuel →
        Lookahead.collect k' labels capacity fuel f level collected noted =
          .ok (f', (collected ++ (((List.range N).flatMap fun n =>
            k.levelsAhead f.measuring seen front (n + 1)).filter k.couples).map
              (k.readyOp labels)).take capacity, noted') := by
  induction N with
  | zero =>
      intro f seen front level collected noted _ hfront _ hlevel hcard hlen
      have hempty : level = [] := by
        by_contra hne
        have := hfront.remaining_card_lt (by rw [← hlevel]; simpa using hne)
        omega
      exact ⟨f, noted, fun fuel hfuel => Lookahead.collect_stop hfuel hlen (.inl ⟨hempty, rfl⟩)⟩
  | succ N ih =>
      intro f seen front level collected noted h hfront hagrees hlevel hcard hlen
      by_cases hempty : level = []
      · refine ⟨f, noted, fun fuel hfuel => Lookahead.collect_stop (Nat.zero_lt_of_lt hfuel) hlen
          (.inl ⟨hempty, ?_⟩)⟩
        have hnone : front = [] := by rw [← hlevel, hempty, List.map_nil]
        have hlevels : (List.range (N + 1)).flatMap (fun n =>
            k.levelsAhead f.measuring seen front (n + 1)) = [] :=
          List.flatMap_eq_nil_iff.mpr fun n _ => by rw [hnone, Kernel.levelsAhead_nil]
        rw [hlevels]
        rfl
      by_cases hfull : capacity ≤ collected.length
      · exact ⟨f, noted, fun fuel hfuel =>
          Lookahead.collect_stop (Nat.zero_lt_of_lt hfuel) hlen (.inr hfull)⟩
      obtain ⟨f₁, more, hexplore, hmeasuring, h₁⟩ := h.explore hk hlive hlabels hfront hagrees
      have hnext := hfront.next hk hlive
      rw [← hmeasuring] at hnext
      have hexplore' := (congrArg (f.exploreAll k' labels) hlevel).trans hexplore
      have hcard₁ := hfront.remaining_card_lt (by rw [← hlevel]; simpa using hempty)
      have hops : ((k.nextLevel f.measuring seen front).map (k.readyOp labels)).map (·.op) =
          k.nextLevel f.measuring seen front := by
        rw [List.map_map]
        exact List.map_id _
      -- what the next level has is as in the kernel that the run began with
      have hcounts := Lookahead.filter_counts k' labels fun x hx => (hagrees x fun hmem =>
        hnext.not_mem_retired (hmeasuring ▸ hx) (List.mem_append_right front hmem)).1
      obtain ⟨f₂, noted', hrest⟩ := ih ((collected ++ ((k.nextLevel f.measuring seen front).filter
        k.couples).map (k.readyOp labels)).take capacity) (noted ++ more) h₁ (hmeasuring ▸ hnext)
        (hagrees.mono front) hops (by omega) (List.length_take_le _ _)
      refine ⟨f₂, noted', fun fuel hfuel => ?_⟩
      obtain ⟨fuel, rfl⟩ := Nat.exists_eq_succ_of_ne_zero (Nat.ne_of_gt (Nat.zero_lt_of_lt hfuel))
      rw [Lookahead.collect_step hempty (Nat.not_le.mp hfull) hexplore', hcounts,
        hrest fuel (Nat.lt_of_succ_lt_succ hfuel), List.range_succ_eq_map, List.flatMap_cons,
        List.flatMap_map, List.filter_append, List.map_append, Lookahead.take_append_take,
        List.append_assoc, hmeasuring]
      rfl

end Live

end Frontier

/-! ## Looking ahead in a run -/

namespace Router

/-- A look ahead from a state of a run over the kernel `k₀` of a program finds some operations: the
first ones of the levels that are two-qubit operations whose qubits have to be adjacent. -/
structure FindsAhead (task : RoutingTask) (p : Program) (k₀ : Kernel) (levels : Nat → List Nat)
    (s : Router) (ops : List ReadyOp) : Prop where
  /-- The search ends by itself, no matter how much longer it might go on. -/
  ends : ∃ f noted, ∀ fuel, s.kernel.ops.size < fuel →
    Lookahead.collect s.kernel task.labels task.options.lookaheadSize fuel s.frontier s.front [] []
      = .ok (f, ops, noted)
  returns : Returns (lookAhead task) s fun found s' => found = ops ∧ s.Same s'
  first : ops.map (·.op) = (((List.range k₀.ops.size).flatMap fun n => levels (n + 1)).filter
    k₀.couples).take task.options.lookaheadSize
  nodup : (ops.map (·.op)).Nodup
  waits : ∀ r ∈ ops, r.op ∉ s.emitted.toList ∧ r.op ∉ s.front.map (·.op)
  /-- What is found are instructions of the program, with their qubits. -/
  qubits : ∀ r ∈ ops, ∃ i ins, r.op = p.numQubits + i ∧ p.instructions[i]? = some ins ∧
    r.qubits = ins.qubits

variable {task : RoutingTask} {p : Program} {n : Nat} {k₀ : Kernel} {s : Router}
  {waiting : List ReadyOp}

/-- What is not emitted is, and is consumed, as in the kernel that the run began with. -/
theorem Running.agreesOff (h : Running task k₀ waiting s) (hk : k₀.Consistent)
    (hsingle : ∀ w wire, k₀.wire? w = some wire → wire.users.length ≤ 1) :
    k₀.AgreesOff s.kernel s.emitted.toList := by
  intro x hx
  have hop := h.fed.pending x hx
  have hresults : s.kernel.resultsOf x = k₀.resultsOf x := by simp [Kernel.resultsOf, hop]
  refine ⟨hop, ?_⟩
  rw [h.fed.consistent.users_eq_flatMap, hk.users_eq_flatMap, hresults]
  refine congrArg Except.ok (List.flatMap_congr fun w hw => ?_)
  obtain ⟨o, ho, hmem⟩ := Kernel.mem_resultsOf.mp hw
  have hcount : ∀ y, (s.kernel.usersOf w).count y = (k₀.usersOf w).count y := by
    intro y
    rw [h.fed.consistent.count_usersOf, hk.count_usersOf]
    by_cases hy : y ∈ s.emitted.toList
    · -- what is emitted consumes only what was emitted before, then as now
      have hnot : w ∉ s.kernel.operandsOf y := fun hwy =>
        h.fed.not_consumed (hop.trans ho) (.inl hx) hmem (List.mem_flatMap.mpr ⟨y, hy, hwy⟩)
      have hnot₀ : w ∉ k₀.operandsOf y := fun hwy => by
        obtain ⟨z, hz, hwz⟩ := List.mem_flatMap.mp (h.tracks.closed y hy w hwy)
        exact hx (hk.producer_unique hw hwz ▸ hz)
      rw [List.count_eq_zero.mpr hnot, List.count_eq_zero.mpr hnot₀]
    · rw [Kernel.operandsOf_congr (h.fed.pending y hy)]
  have hperm := List.perm_iff_count.mpr hcount
  have hlen := Kernel.length_usersOf hsingle w
  cases husers : k₀.usersOf w with
  | nil =>
      rw [husers] at hperm
      exact hperm.eq_nil
  | cons a more =>
      rw [husers, List.length_cons] at hlen
      obtain rfl := List.eq_nil_of_length_eq_zero (Nat.le_zero.mp (Nat.le_of_succ_le_succ hlen))
      rw [husers] at hperm
      exact List.perm_singleton.mp hperm

section Padded

variable (hpad : Padded p n k₀ task.labels) (hmappable : ∀ ins ∈ p.instructions, ins.qubits ≠ [])
  (h : Running task k₀ s.front s)
  (hsources : (List.range n).map p.sourceOp ⊆ s.emitted.toList)

include hpad

/-- The qubits of an instruction are the labels of its operands. -/
private theorem readyOp_qubits {i : Nat} {ins : Instruction} (hi : p.instructions[i]? = some ins) :
    (k₀.readyOp task.labels (p.numQubits + i)).qubits = ins.qubits := by
  rw [Kernel.readyOp, hpad.labels_instruction hi]
  rfl

include hsources

/-- What is not emitted is an instruction. -/
private theorem exists_instruction_of_not_emitted {x : Nat} (hx : x < k₀.ops.size)
    (hnew : x ∉ s.emitted.toList) :
    ∃ i ins, x = p.numQubits + i ∧ p.instructions[i]? = some ins := by
  rcases Program.sourceOp_or_instruction hpad.le (hpad.ops ▸ hx) with ⟨v, hv, rfl⟩ | ⟨i, hi, rfl⟩
  · exact absurd (hsources (List.mem_map.mpr ⟨v, List.mem_range.mpr hv, rfl⟩)) hnew
  · exact ⟨i, _, rfl, List.getElem?_eq_getElem hi⟩

include hmappable h

/-- The front layer is in front of what is emitted. -/
theorem Running.isFront :
    k₀.IsFront s.frontier.measuring s.emitted.toList (s.front.map (·.op)) := by
  have hready := hpad.ready_iff h.tracks
  have hwaits : ∀ x ∈ s.front.map (·.op), x ∈ (s.front ++ s.frontier.deferred).map (·.op) :=
    fun x hx => by
      rw [List.map_append]
      exact List.mem_append_left _ hx
  refine
    { nodup := ?_
      live := fun x hx => ?_
      allowed := fun x hx hm => ?_
      closed := fun x hx => ?_
      complete := fun x hsome hallowed hall => ?_ }
  · have hnodup := h.tracks.nodup
    rw [List.map_append, List.nodup_append] at hnodup
    refine List.nodup_append.mpr ⟨hnodup.1, h.fed.nodup, ?_⟩
    rintro x hx _ hx' rfl
    exact ((hready x).mp (hwaits x hx)).1 hx'
  · have hne := ((h.tracks.ready x).mp (hwaits x hx)).2.1
    by_contra hnone
    simp [Kernel.operandsOf, Option.not_isSome_iff_eq_none.mp hnone] at hne
  · obtain ⟨r, hr, rfl⟩ := List.mem_map.mp hx
    exact (h.tracks.early hm).2.1 r hr
  · rcases List.mem_append.mp hx with hx | hx
    · exact ((hready x).mp (hwaits x hx)).2.2
    · exact (Kernel.operands_produced_iff hpad.consistent (hpad.exists_producer x)).mp
        (h.tracks.closed x hx)
  · by_cases hx : x ∈ s.emitted.toList
    · exact List.mem_append_right _ hx
    · obtain ⟨o, ho⟩ := Option.isSome_iff_exists.mp hsome
      obtain ⟨i, ins, rfl, hi⟩ := exists_instruction_of_not_emitted hpad hsources
        (Kernel.lt_of_op?_eq_some ho) hx
      have hne : k₀.producers (p.numQubits + i) ≠ [] := fun hnil => by
        have hproducers := hpad.producers_instruction hi
        rw [hnil, List.forall₂_nil_left_iff] at hproducers
        exact hmappable ins (List.mem_of_getElem? hi) hproducers
      obtain ⟨r, hr, hop⟩ := List.mem_map.mp ((hready _).mpr ⟨hx, hne, hall⟩)
      refine List.mem_append_left _ (List.mem_map.mpr ⟨r, ?_, hop⟩)
      refine (List.mem_append.mp hr).resolve_right fun hheld => ?_
      -- only measurements are held back, and only before the measurement phase
      cases hm : s.frontier.measuring with
      | true =>
          rw [h.tracks.unheld hm] at hheld
          cases hheld
      | false =>
          have hmeasure := (h.tracks.early hm).2.2 r hheld
          rw [hop, hallowed hm] at hmeasure
          cases hmeasure

/-- What is not retired divides into levels. -/
theorem Running.isLevels : k₀.IsLevels s.frontier.measuring s.emitted.toList (s.front.map (·.op))
    (k₀.levelsAhead s.frontier.measuring s.emitted.toList (s.front.map (·.op))) :=
  (h.isFront hpad hmappable hsources).isLevels hpad.consistent hpad.exists_producer hpad.single

/-- A look ahead finds what the levels have first. -/
theorem Running.findsAhead {levels : Nat → List Nat} (hlevels : k₀.IsLevels s.frontier.measuring
    s.emitted.toList (s.front.map (·.op)) levels) : ∃ ops, FindsAhead task p k₀ levels s ops := by
  have hawaits : s.frontier.Awaits k₀ s.emitted.toList :=
    { count := h.tracks.count
      held := fun r hr => ((hpad.ready_iff h.tracks r.op).mp
        (List.mem_map.mpr ⟨r, List.mem_append_right _ hr, rfl⟩)).2.2 }
  obtain rfl := (h.isLevels hpad hmappable hsources).unique hlevels
  obtain ⟨f, noted, hcollect⟩ := hawaits.collect hpad.consistent hpad.exists_producer
    hpad.labels_operands task.options.lookaheadSize k₀.ops.size [] []
    (h.isFront hpad hmappable hsources) (h.agreesOff hpad.consistent hpad.single) rfl
    (Kernel.IsFront.remaining_card_le _ _) (Nat.zero_le _)
  rw [List.nil_append] at hcollect
  generalize hahead : (((List.range k₀.ops.size).flatMap fun n => k₀.levelsAhead
    s.frontier.measuring s.emitted.toList (s.front.map (·.op)) (n + 1)).filter k₀.couples) = ahead
    at hcollect
  have hwaits : ∀ x ∈ ahead, (k₀.op? x).isSome ∧ x ∉ s.emitted.toList ∧
      x ∉ s.front.map (·.op) := by
    intro x hx
    rw [← hahead] at hx
    obtain ⟨n, -, hmem⟩ := List.mem_flatMap.mp (List.mem_of_mem_filter hx)
    obtain ⟨hsome, -, hnot, -⟩ := (hlevels.mem n x).mp hmem
    exact ⟨hsome, fun hmem => hnot (.inl hmem), fun hmem => hnot (.inr ⟨0, Nat.succ_pos n, hmem⟩)⟩
  have hops : ((ahead.map (k₀.readyOp task.labels)).take task.options.lookaheadSize).map (·.op) =
      ahead.take task.options.lookaheadSize := by
    rw [List.map_take, List.map_map]
    exact congrArg _ (List.map_id ahead)
  refine ⟨_,
    { ends := ⟨f, noted, fun fuel hfuel => hcollect fuel (Nat.lt_of_le_of_lt h.fed.size hfuel)⟩
      returns := ?_
      first := hops.trans (hahead ▸ rfl)
      nodup := ?_
      waits := fun r hr => ?_
      qubits := fun r hr => ?_ }⟩
  · unfold lookAhead
    split
    · rename_i hzero
      rw [hzero, List.take_zero]
      exact ⟨rfl, .refl s⟩
    · obtain ⟨f₂, hlayer, hsame⟩ := Lookahead.layer_of_collect h.fed.consistent
        (hcollect _ (Nat.lt_succ_of_le h.fed.size))
      rw [returns_get_bind, hlayer]
      exact ⟨rfl, f₂, hsame, rfl⟩
  · rw [hops, ← hahead]
    exact ((hlevels.nodup _).filter _).sublist (List.take_sublist _ _)
  · have hmem : r.op ∈ ahead.take task.options.lookaheadSize :=
      hops ▸ List.mem_map.mpr ⟨r, hr, rfl⟩
    exact (hwaits r.op (List.mem_of_mem_take hmem)).2
  · obtain ⟨x, hx, rfl⟩ := List.mem_map.mp (List.mem_of_mem_take hr)
    obtain ⟨hsome, hnew, -⟩ := hwaits x hx
    obtain ⟨o, ho⟩ := Option.isSome_iff_exists.mp hsome
    obtain ⟨i, ins, rfl, hi⟩ := exists_instruction_of_not_emitted hpad hsources
      (Kernel.lt_of_op?_eq_some ho) hnew
    exact ⟨i, ins, rfl, hi, readyOp_qubits hpad hi⟩

end Padded

/-- Wherever a run over the kernel of a program comes, filled up with any number of fresh qubits and
started from any placement: ahead of the front layer there is one way to divide what is not retired
into levels, and the search for the operations ahead ends and finds the first two-qubit operations
of the levels. -/
theorem lookAhead_levels {k : Kernel} {l l' : Labelling} {count : Nat} {props : Properties}
    {c : Compilation} {d : Device} {options : Options} {placement : Placement}
    (hk : p.lower = .ok k) (hl : Labelling.ofKernel k = .ok l)
    (hfilled : Mapping.insertAncillas l (Mapping.ancillaPosition k) count ⟨k, props⟩ = .ok l' c)
    (hcomes : Comes ⟨d, l'.labels, options⟩ l'.sources.toList (start c.kernel placement d) s) :
    ∃ levels, (∀ levels', c.kernel.IsLevels s.frontier.measuring s.emitted.toList
        (s.front.map (·.op)) levels' ↔ levels' = levels) ∧
      (∀ n, c.kernel.ops.size ≤ n → levels n = []) ∧
      (s.frontier.measuring = false → ∀ n, ∀ x ∈ levels n, ¬ c.kernel.BehindMeasure x) ∧
      ∃ ops, FindsAhead ⟨d, l'.labels, options⟩ p c.kernel levels s ops := by
  obtain ⟨-, hmappable, hreturns⟩ :=
    Mapping.padding_spec props hk hl (Nat.le_add_right l.sources.size count)
  rw [Nat.add_sub_cancel_left, returns_of_eq hfilled] at hreturns
  obtain ⟨hpad, hsources, -⟩ := hreturns
  generalize l.sources.size + count = n at hpad hsources
  let task : RoutingTask := ⟨d, l'.labels, options⟩
  change Padded p n c.kernel task.labels at hpad
  change Comes task _ (start c.kernel placement task.device) s at hcomes
  have hnodup : ((List.range n).map p.sourceOp).Nodup :=
    List.nodup_range.map fun _ _ => Program.sourceOp_inj
  have hallocs : ∀ x ∈ (List.range n).map p.sourceOp, ∃ w,
      c.kernel.op? x = some { kind := .alloc, operands := [], results := [w] } := by
    intro x hx
    obtain ⟨v, hv, rfl⟩ := List.mem_map.mp hx
    obtain ⟨w, -, ho⟩ := hpad.source v (List.mem_range.mp hv)
    exact ⟨w, ho⟩
  rw [hsources] at hcomes
  obtain ⟨hrunning, hemitted⟩ := hcomes.running hpad.consistent hnodup hallocs
  have hnonempty : ∀ ins ∈ p.instructions, ins.qubits ≠ [] := fun ins hins =>
    (hmappable ins hins).nonempty
  have hfront := hrunning.isFront hpad hnonempty hemitted
  have hlevels := hrunning.isLevels hpad hnonempty hemitted
  refine ⟨_, fun levels' => ⟨hlevels.unique, fun heq => heq ▸ hlevels⟩, fun n hn => ?_,
    fun hmeasuring => ?_, hrunning.findsAhead hpad hnonempty hemitted hlevels⟩
  · exact hfront.levelsAhead_eq_nil hpad.consistent hpad.exists_producer
      (Nat.le_trans (Kernel.IsFront.remaining_card_le _ _) hn)
  · rw [hmeasuring] at hfront hlevels ⊢
    exact hfront.not_behindMeasure (hrunning.tracks.early hmeasuring).1 hlevels

/-- A gate on the outer two of three qubits. Behind it one of them is measured before the last gate,
the other one goes through a gate and then meets the qubit between them. -/
def heldBack : Program where
  name := "held back"
  numQubits := 3
  instructions := [⟨.gate "cx" [], [0, 2]⟩, ⟨.measure (some "c"), [0]⟩, ⟨.gate "h" [], [2]⟩,
    ⟨.gate "cx" [], [2, 1]⟩, ⟨.gate "cx" [], [0, 1]⟩]

/-- On a path the first gate waits, and a look ahead finds the one of the other two that is behind
no measurement, two levels on. -/
theorem lookAhead_levels_heldBack : ∃ k l l' c s levels,
    heldBack.lower = .ok k ∧ Labelling.ofKernel k = .ok l ∧
      Mapping.insertAncillas l (Mapping.ancillaPosition k) 0 ⟨k, .empty⟩ = .ok l' c ∧
      Comes ⟨.line, l'.labels, {}⟩ l'.sources.toList
        (start c.kernel ⟨#[some 0, some 1, some 2], #[some 0, some 1, some 2]⟩ .line) s ∧
      s.front = [⟨3, [0, 2]⟩] ∧ s.frontier.measuring = false ∧
      c.kernel.IsLevels s.frontier.measuring s.emitted.toList (s.front.map (·.op)) levels ∧
      ¬ c.kernel.BehindMeasure 6 ∧
      FindsAhead ⟨.line, l'.labels, {}⟩ heldBack c.kernel levels s [⟨6, [2, 1]⟩] := by
  have hcomputed : (do
      let k ← heldBack.lower.toOption
      let l ← (Labelling.ofKernel k).toOption
      let filled ← ended? (Mapping.insertAncillas l (Mapping.ancillaPosition k) 0 ⟨k, .empty⟩)
      let task : RoutingTask := ⟨.line, filled.1.labels, {}⟩
      let placed ← ended? (filled.1.sources.toList.forM (placeSource task)
        (start filled.2.kernel ⟨#[some 0, some 1, some 2], #[some 0, some 1, some 2]⟩ .line))
      let tried ← ended? (round task placed.2)
      let found ← ended? (lookAhead task tried.2)
      return (tried.1, tried.2.front, tried.2.frontier.measuring, found.1)) =
        some (false, [⟨3, [0, 2]⟩], false, [⟨6, [2, 1]⟩]) := by
    decide +kernel
  simp only [bind, pure, Option.bind_eq_some_iff, Except.toOption_eq_some, ended?_eq_some,
    Option.some.injEq, Prod.mk.injEq] at hcomputed
  obtain ⟨k, hk, l, hl, filled, hfilled, placed, hplaced, tried, htried, found, hfound, -, hfront,
    hmeasuring, hops⟩ := hcomputed
  have hcomes : Comes ⟨.line, filled.1.labels, {}⟩ filled.1.sources.toList
      (start filled.2.kernel ⟨#[some 0, some 1, some 2], #[some 0, some 1, some 2]⟩ .line)
        tried.2 := ⟨{}, placed.2, .placed hplaced, .inr ⟨tried.1, htried⟩⟩
  obtain ⟨levels, hlevels, -, hbehind, ops, hfinds⟩ := lookAhead_levels hk hl hfilled hcomes
  obtain rfl : found.1 = ops := (hfinds.returns.ensures.of_ok hfound).1
  rw [hops] at hfinds
  have hfree : ¬ filled.2.kernel.BehindMeasure 6 := by
    have hmem : 6 ∈ [(⟨6, [2, 1]⟩ : ReadyOp)].map (·.op) := List.mem_singleton_self 6
    rw [hfinds.first] at hmem
    obtain ⟨n, -, hmem⟩ := List.mem_flatMap.mp (List.mem_of_mem_filter (List.mem_of_mem_take hmem))
    exact hbehind hmeasuring (n + 1) 6 hmem
  exact ⟨k, l, filled.1, filled.2, tried.2, levels, hk, hl, hfilled, hcomes, hfront, hmeasuring,
    (hlevels levels).mpr rfl, hfree, hfinds⟩

end Router

end QubitMapper
