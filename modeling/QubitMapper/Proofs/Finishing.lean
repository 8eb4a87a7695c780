import QubitMapper.Proofs.Kernel.Order
import QubitMapper.Proofs.Kernel.Verify
import QubitMapper.Proofs.Routing.Turns

/-!
# Finished kernels

After a run the only block lists everything in the order of emission. This order has producers
first, so sorting leaves it alone. Unused allocations are then erased, which changes nothing in what
the kernel stands for.

## Main results

* `Router.Sound.finished`: a run that has done everything leaves a finished kernel.
* `Mapping.reorder_spec`, `Mapping.prune_spec`: what is done to the kernel then.
* `Kernel.Finished.verify`: finished kernels are in value semantics.
-/

namespace QubitMapper

namespace Kernel

/-- The only block of a kernel is an order of all live operations, producers first, that stands for
the physical instructions of a trace. -/
structure Finished (k : Kernel) (order : List Nat) (trace : List Instruction) : Prop where
  consistent : k.Consistent
  /-- A wire is a result of its producer, as long as that is live. -/
  made : ∀ w wire o, k.wire? w = some wire → k.op? wire.producer = some o → w ∈ o.results
  single : ∀ w wire, k.wire? w = some wire → wire.users.length ≤ 1
  blocks : k.blocks = [order]
  nodup : order.Nodup
  live : ∀ x, x ∈ order ↔ (k.op? x).isSome
  first : k.ProducersFirst order
  mapped : ∀ x o, k.op? x = some o → o.Annotated
  threaded : k.Threaded order
  trace : k.trace order = trace

variable {k : Kernel} {x : Nat} {o : Operation} {order : List Nat} {trace : List Instruction}

/-- A finished kernel passes verification. -/
theorem Finished.verify (h : k.Finished order trace) : k.verify = .ok () := by
  rw [verify_eq_ok_iff]
  have hflat : k.blocks.flatten = order := by simp [h.blocks]
  refine
    { operand := ?_
      result := fun x o hx w hw => h.consistent.producer_of_mem hx hw
      single := h.single
      live := fun x hx => (h.live x).mp (hflat ▸ hx)
      placed := hflat ▸ h.nodup }
  intro x o hx w hw
  obtain ⟨i, hi⟩ := List.mem_iff_getElem?.mp ((h.live x).mpr (by simp [hx]))
  obtain ⟨wire, hwire, hmem⟩ := h.first i x hi w (by rwa [operandsOf_of_op? hx])
  exact ⟨wire, hwire, (h.live _).mp (List.mem_of_mem_take hmem)⟩

/-- What stands before an element of a filtered list. -/
private theorem take_filter {α : Type} {f : α → Bool} {a : α} (l : List α) : ∀ {i : Nat},
    (l.filter f)[i]? = some a → ∃ j : Nat, l[j]? = some a ∧
      ∀ b ∈ l.take j, f b = true → b ∈ (l.filter f).take i := by
  induction l with
  | nil => simp
  | cons c rest ih =>
      intro i hi
      by_cases hc : f c = true
      · rw [List.filter_cons_of_pos hc] at hi ⊢
        cases i with
        | zero => exact ⟨0, by simpa using hi, by simp⟩
        | succ i =>
            obtain ⟨j, hj, hbefore⟩ := ih (by simpa using hi)
            refine ⟨j + 1, by simpa using hj, fun b hb hfb => ?_⟩
            rw [List.take_succ_cons, List.mem_cons] at hb ⊢
            exact hb.imp_right fun hb => hbefore b hb hfb
      · rw [List.filter_cons_of_neg hc] at hi ⊢
        obtain ⟨j, hj, hbefore⟩ := ih hi
        refine ⟨j + 1, by simpa using hj, fun b hb hfb => ?_⟩
        rw [List.take_succ_cons, List.mem_cons] at hb
        rcases hb with rfl | hb
        · exact absurd hfb hc
        · exact hbefore b hb hfb

section Erase

variable (h : k.Finished order trace) (hx : k.op? x = some o) (hunused : k.users x = .ok [])

include h hx hunused

/-- Nothing consumes a wire that an unused operation produces. -/
private theorem Finished.producer_ne {y w : Nat} (hw : w ∈ k.operandsOf y) {wire : Wire}
    (hwire : k.wire? w = some wire) : wire.producer ≠ x := by
  rintro rfl
  exact h.consistent.unconsumed hx hunused y w (h.made w wire o hwire hx) hw

private theorem Finished.first_without :
    (k.without x o.operands).ProducersFirst (order.filter (· != x)) := by
  intro i y hi w hw
  obtain ⟨j, hj, hbefore⟩ := take_filter order hi
  have hy : y ≠ x := by simpa using (List.mem_filter.mp (List.mem_of_getElem? hi)).2
  have hop : (k.without x o.operands).op? y = k.op? y := by rw [op?_without, if_neg (Ne.symm hy)]
  rw [operandsOf_congr hop] at hw
  obtain ⟨wire, hwire, hmem⟩ := h.first j y hj w hw
  have hwire' : (k.without x o.operands).wire? w = some
      { wire with users := wire.users.diff (List.replicate (o.operands.count w) x) } := by
    rw [wire?_without, hwire, Option.map_some]
  refine ⟨_, hwire', hbefore _ hmem ?_⟩
  simpa using h.producer_ne hx hunused hw hwire

omit h hunused in
/-- An allocation stands for no instruction. -/
private theorem trace_without (halloc : o.kind.isAlloc = true) (l : List Nat) :
    (k.without x o.operands).trace (l.filter (· != x)) = k.trace l := by
  induction l with
  | nil => rfl
  | cons y rest ih =>
      by_cases hy : y = x
      · subst hy
        have hskip : k.instruction? y = none := by
          rw [instruction?, hx, Option.bind_some, if_pos halloc]
        rw [List.filter_cons_of_neg (by simp), ih, Kernel.trace, Kernel.trace,
          List.filterMap_cons, hskip]
      · have hins : (k.without x o.operands).instruction? y = k.instruction? y := by
          rw [instruction?, instruction?, op?_without, if_neg (Ne.symm hy)]
        rw [List.filter_cons_of_pos (by simpa using hy)]
        unfold Kernel.trace at ih ⊢
        rw [List.filterMap_cons, List.filterMap_cons, hins, ih]

/-- Erasing an allocation that nothing uses keeps a kernel finished, with the same trace. -/
theorem Finished.without (halloc : o.kind.isAlloc = true) :
    (k.without x o.operands).Finished (order.filter (· != x)) trace := by
  have hlive : ∀ {y o'}, (k.without x o.operands).op? y = some o' → k.op? y = some o' := by
    intro y o' hy
    rw [op?_without] at hy
    split at hy
    · cases hy
    · exact hy
  refine
    { consistent := h.consistent.without hx
      made := ?_
      single := ?_
      blocks := by rw [blocks_without, h.blocks, List.map_singleton]
      nodup := h.nodup.filter _
      live := ?_
      first := h.first_without hx hunused
      mapped := fun y o' hy => h.mapped y o' (hlive hy)
      threaded := h.threaded.erase h.nodup hx halloc
        (fun y _ => h.consistent.unconsumed hx hunused y)
        fun y hy => by rw [op?_without, if_neg (Ne.symm hy)]
      trace := by rw [trace_without hx halloc, h.trace] }
  · intro w wire o' hw ho'
    rw [wire?_without] at hw
    obtain ⟨wire', hw', rfl⟩ := Option.map_eq_some_iff.mp hw
    exact h.made w wire' o' hw' (hlive ho')
  · intro w wire hw
    rw [wire?_without] at hw
    obtain ⟨wire', hw', rfl⟩ := Option.map_eq_some_iff.mp hw
    exact Nat.le_trans (List.diff_sublist _ _).length_le (h.single w wire' hw')
  · intro y
    rw [List.mem_filter, h.live, bne_iff_ne, op?_without]
    by_cases hy : y = x
    · subst hy
      simp
    · simp [hy, Ne.symm hy]

end Erase

end Kernel

/-! ## After a run -/

namespace Router

variable {task : RoutingTask} {p : Program} {k₀ : Kernel} {π₀ π : Nat → Nat} {done : List Nat}
  {s : Router}

section Complete

variable (h : Sound task p k₀ π₀ task.device.numQubits done π s)
  (hpad : Padded p task.device.numQubits k₀ task.labels)
  (hall : ∀ i < p.instructions.length, i ∈ done)

include h hpad hall

/-- When everything is done, every operation is emitted. -/
theorem Sound.mem_emitted {x : Nat} {o : Operation} (hx : s.kernel.op? x = some o) :
    x ∈ s.emitted.toList := by
  by_contra hnot
  have hlt := Kernel.lt_of_op?_eq_some ((h.wired.pending x hnot).symm.trans hx)
  refine hnot ((h.visited x hlt).mpr ?_)
  rcases Program.sourceOp_or_instruction hpad.le (hpad.ops ▸ hlt) with ⟨v, hv, rfl⟩ | ⟨i, hi, rfl⟩
  · exact (Program.source_mem_visited h.history.lt_length).mpr hv
  · exact (Program.instruction_mem_visited hi).mpr (hall i hi)

/-- When everything is done, the order of emission finishes the kernel. -/
theorem Sound.finished : ({ s.kernel with blocks := [s.emitted.toList] } : Kernel).Finished
    s.emitted.toList (s.kernel.trace s.emitted.toList) where
  consistent := h.wired.consistent.congr rfl rfl
  made := by
    intro w wire o hw ho
    obtain ⟨o', ho', hmem⟩ := h.wired.made hpad.made w wire hw
    cases ho.symm.trans ho'
    exact hmem
  single := h.wired.single fun y o hy => h.mem_emitted hpad hall hy
  blocks := rfl
  nodup := h.wired.nodup
  live := by
    intro x
    constructor
    · intro hx
      obtain ⟨o, ho, -⟩ := h.wired.mapped x hx
      exact Option.isSome_iff_exists.mpr ⟨o, ho⟩
    · intro hx
      obtain ⟨o, ho⟩ := Option.isSome_iff_exists.mp hx
      exact h.mem_emitted hpad hall ho
  first := h.wired.ordered
  threaded := h.wired.threaded.congr fun y _ => rfl
  mapped := by
    intro x o hx
    obtain ⟨o', ho', hmapped⟩ := h.wired.mapped x (h.mem_emitted hpad hall hx)
    cases Eq.trans (Eq.symm hx) ho'
    exact hmapped
  trace := rfl

/-- The operations of the entry block of the circuit are live and emitted. -/
theorem Sound.entry_emitted {x : Nat} (hx : x ∈ s.kernel.entry) : x ∈ s.emitted.toList := by
  obtain ⟨entry, hentry, -, hlt⟩ := hpad.blocks
  rw [Kernel.entry, h.wired.blocks, hentry] at hx
  have hxlt := hlt x hx
  rw [h.visited x hxlt]
  rcases Program.sourceOp_or_instruction hpad.le (hpad.ops ▸ hxlt) with ⟨v, hv, rfl⟩ | ⟨i, hi, rfl⟩
  · exact (Program.source_mem_visited h.history.lt_length).mpr hv
  · exact (Program.instruction_mem_visited hi).mpr (hall i hi)

/-- Nothing of the circuit is left without physical qubits. -/
theorem Sound.unmappedCount_eq_zero : unmappedCount s.kernel = 0 := by
  rw [unmappedCount, List.countP_eq_zero]
  intro o ho
  obtain ⟨x, hx, ho⟩ := List.mem_filterMap.mp ho
  obtain ⟨o', ho', hphysical, -⟩ := h.wired.mapped x (h.entry_emitted hpad hall hx)
  cases ho.symm.trans ho'
  simpa [Operation.isMapped] using hphysical

/-- The block is put into the order of emission, which leaves nothing over. -/
theorem Sound.setBlockOrder_eq :
    s.kernel.setBlockOrder 0
        (s.emitted.toList ++ s.kernel.entry.filter fun op => !s.emitted.contains op) =
      .ok { s.kernel with blocks := [s.emitted.toList] } := by
  have hfinished := h.finished hpad hall
  obtain ⟨entry, hentry, -, -⟩ := hpad.blocks
  have hblocks : s.kernel.blocks = [entry] := h.wired.blocks.trans hentry
  have hkept : ∀ x ∈ entry, x ∈ s.emitted.toList := by
    intro x hx
    apply h.entry_emitted hpad hall
    rw [Kernel.entry, hblocks]
    exact hx
  have hleftovers : (s.kernel.entry.filter fun op => !s.emitted.contains op) = [] := by
    rw [Kernel.entry, hblocks, List.filter_eq_nil_iff]
    intro x hx
    simpa using hkept x hx
  rw [hleftovers, List.append_nil]
  exact Kernel.setBlockOrder_eq_ok hblocks (fun x hx => (hfinished.live x).mp hx)
    hfinished.nodup hkept

/-- Sorting leaves the order of emission as it is. -/
theorem Sound.sortBlock_eq :
    ({ s.kernel with blocks := [s.emitted.toList] } : Kernel).sortBlock 0 =
      .ok { s.kernel with blocks := [s.emitted.toList] } :=
  Kernel.sortBlock_eq_self rfl (h.finished hpad hall).first (h.finished hpad hall).nodup

end Complete

end Router

namespace Mapping

variable {task : RoutingTask} {p : Program} {k₀ : Kernel} {π₀ π : Nat → Nat} {done : List Nat}
  {s : Router}

/-- The block is put into the order of emission. -/
theorem reorder_spec (h : Router.Sound task p k₀ π₀ task.device.numQubits done π s)
    (hpad : Padded p task.device.numQubits k₀ task.labels)
    (hall : ∀ i < p.instructions.length, i ∈ done) (props : Properties) :
    reorder s.emitted ⟨s.kernel, props⟩ =
      .ok () ⟨{ s.kernel with blocks := [s.emitted.toList] }, props⟩ := by
  unfold reorder
  rw [get_bind]
  dsimp only
  rw [h.setBlockOrder_eq hpad hall, Compile.liftCircuit_ok, pure_bind]
  simp only [h.sortBlock_eq hpad hall, Compile.liftCircuit_ok, pure_bind]
  rfl

/-- Erasing operations without users, as far as it gets, keeps what each single erasure keeps. -/
theorem prune_invariant {P : Compilation → Prop} (l : List Nat)
    (hstep : ∀ c x out, x ∈ l → P c → c.kernel.users x = .ok [] → c.kernel.erase x = .ok out →
      P { c with kernel := out.1 }) :
    ∀ c, P c → Meets (prune l) c (fun _ c' => P c')
      (fun e c' => P c' ∧ ∃ reason, e = .circuit reason) := by
  induction l with
  | nil => exact fun c h => h
  | cons x rest ih =>
      intro c h
      unfold prune
      rw [meets_get_bind]
      dsimp only
      cases husers : c.kernel.users x with
      | error reason => exact ⟨h, reason, rfl⟩
      | ok users =>
          rw [Compile.liftCircuit_ok, pure_bind]
          cases users with
          | cons user users => exact h
          | nil =>
              rw [List.isEmpty_nil, if_pos rfl]
              cases herase : c.kernel.erase x with
              | error reason => exact ⟨h, reason, rfl⟩
              | ok out =>
                  exact ih (fun c y out hy => hstep c y out (List.mem_cons_of_mem _ hy)) _
                    (hstep c x out List.mem_cons_self h husers herase)

/-- Allocations that nothing uses are erased. -/
theorem prune_spec (l : List Nat) : ∀ {c : Compilation} {order : List Nat}
    {trace : List Instruction}, c.kernel.Finished order trace → l.Nodup →
    (∀ x ∈ l, ∃ o, c.kernel.op? x = some o ∧ o.kind.isAlloc = true) →
    Returns (prune l) c fun _ c' => c'.properties = c.properties ∧
      ∃ order', c'.kernel.Finished order' trace := by
  induction l with
  | nil => exact fun {c order trace} h _ _ => ⟨rfl, order, h⟩
  | cons x rest ih =>
      intro c order trace h hnodup hallocs
      rw [List.nodup_cons] at hnodup
      obtain ⟨o, ho, halloc⟩ := hallocs x List.mem_cons_self
      obtain ⟨us, hus⟩ := h.consistent.users_ok x
      unfold prune
      rw [returns_get_bind]
      dsimp only
      rw [hus, Compile.liftCircuit_ok, pure_bind]
      cases us with
      | cons u us => exact ⟨rfl, order, h⟩
      | nil =>
          have herase : c.kernel.erase x = .ok (c.kernel.without x o.operands, o) := by
            refine Kernel.erase_eq_ok_iff.mpr
              ⟨o, ho, h.consistent.unused ho hus, fun w hw => ?_, rfl⟩
            exact h.consistent.operand x w (by rwa [Kernel.operandsOf_of_op? ho])
          simp only [List.isEmpty_nil, ↓reduceIte, herase, Compile.liftCircuit_ok, pure_bind]
          rw [returns_bind, Compile.returns_setKernel]
          apply ih (h.without ho hus halloc) hnodup.2
          intro y hy
          obtain ⟨o', ho', halloc'⟩ := hallocs y (List.mem_cons_of_mem _ hy)
          have hne : x ≠ y := by
            rintro rfl
            exact hnodup.1 hy
          exact ⟨o', by rw [Kernel.op?_without, if_neg hne, ho'], halloc'⟩

end Mapping

end QubitMapper
