import QubitMapper.Pass.Connectivity
import QubitMapper.Proofs.Finishing

/-!
# The connectivity check on finished kernels

The check looks at a kernel operation by operation. On a finished kernel it finds nothing wrong, and
what it counts is what the physical instructions are.

## Main results

* `Connectivity.check_eq_ok`: a finished kernel passes, with a report on its instructions.
-/

namespace QubitMapper

/-- Whether an instruction acts on two qubits that have to be adjacent. -/
def Instruction.isPair (ins : Instruction) : Bool := ins.isConstrained && ins.qubits.length == 2

/-- A report continued by some instructions. -/
def ConnectivityReport.count (report : ConnectivityReport) (l : List Instruction) :
    ConnectivityReport :=
  { report with
    twoQubit := report.twoQubit + l.countP (·.isPair)
    swaps := report.swaps + l.countP fun ins => ins.isPair && ins.kind.isSwap
    measurements := report.measurements + l.countP (·.kind.isMeasure) }

namespace ConnectivityReport

@[simp] theorem count_nil (report : ConnectivityReport) : report.count [] = report := rfl

theorem count_append (report : ConnectivityReport) (l l' : List Instruction) :
    report.count (l ++ l') = (report.count l).count l' := by
  simp [count, Nat.add_assoc]

end ConnectivityReport

namespace Connectivity

variable {d : Device} {k : Kernel} {x : Nat} {o : Operation} {order : List Nat}
  {trace : List Instruction}

/-- An operation in order is counted as the instruction that it stands for. -/
private theorem checkOp_eq_ok (report : ConnectivityReport) (hx : k.op? x = some o)
    (hphysical : o.kind.isAlloc = true → o.physical.length = 1)
    (hadjacent : ∀ ins ∈ k.instruction? x, ins.isConstrained = true → ∀ a b, ins.qubits = [a, b] →
      d.isAdjacent a b = true) :
    checkOp d k report x = .ok (report.count (k.instruction? x).toList) := by
  unfold checkOp
  rw [Kernel.instruction?, hx, Option.bind_some] at hadjacent ⊢
  obtain ⟨kind, operands, results, physical⟩ := o
  simp only at hphysical hadjacent ⊢
  cases halloc : kind.isAlloc with
  | true =>
      obtain ⟨q, rfl⟩ := List.length_eq_one_iff.mp (hphysical halloc)
      cases kind <;> simp_all [OpKind.isAlloc, OpKind.isMeasure, OpKind.isSupported]
  | false =>
      rw [halloc] at hadjacent
      simp only [Bool.false_eq_true, ↓reduceIte, Option.mem_def, Option.some.injEq,
        forall_eq', Instruction.isConstrained, Bool.and_eq_true, Bool.not_eq_true'] at hadjacent ⊢
      cases hmeasure : kind.isMeasure with
      | true =>
          have hswap : kind.isSwap = false := by
            cases kind <;> simp_all [OpKind.isMeasure, OpKind.isSwap]
          simp [ConnectivityReport.count, Instruction.isPair, Instruction.isConstrained, hmeasure,
            hswap]
      | false =>
          cases hsupported : kind.isSupported with
          | false =>
              simp [ConnectivityReport.count, Instruction.isPair, Instruction.isConstrained,
                hmeasure, hsupported]
          | true =>
              rcases physical with _ | ⟨a, _ | ⟨b, _ | ⟨c, rest⟩⟩⟩
              · simp [ConnectivityReport.count, Instruction.isPair, hmeasure]
              · simp [ConnectivityReport.count, Instruction.isPair, hmeasure]
              · have hab := hadjacent ⟨hsupported, hmeasure⟩ a b rfl
                cases hswap : kind.isSwap <;>
                  simp [ConnectivityReport.count, Instruction.isPair, Instruction.isConstrained,
                    hmeasure, hsupported, hab, hswap]
              · simp [ConnectivityReport.count, Instruction.isPair, hmeasure]

private theorem foldlM_checkOp (l : List Nat) : ∀ report : ConnectivityReport,
    (∀ x ∈ l, ∃ o, k.op? x = some o ∧ (o.kind.isAlloc = true → o.physical.length = 1)) →
    (∀ ins ∈ k.trace l, ins.isConstrained = true → ∀ a b, ins.qubits = [a, b] →
      d.isAdjacent a b = true) →
    l.foldlM (checkOp d k) report = .ok (report.count (k.trace l)) := by
  induction l with
  | nil => exact fun report _ _ => rfl
  | cons x rest ih =>
      intro report hops hadjacent
      have htrace : k.trace (x :: rest) = (k.instruction? x).toList ++ k.trace rest := by
        rw [Kernel.trace, List.filterMap_cons]
        cases k.instruction? x <;> rfl
      rw [htrace] at hadjacent ⊢
      obtain ⟨o, ho, hphysical⟩ := hops x List.mem_cons_self
      have hfirst := checkOp_eq_ok report ho hphysical fun ins hins =>
        hadjacent ins (List.mem_append_left _ (by simpa using hins))
      have hrest := ih (report.count (k.instruction? x).toList)
        (fun y hy => hops y (List.mem_cons_of_mem _ hy))
        fun ins hins => hadjacent ins (List.mem_append_right _ hins)
      rw [List.foldlM_cons, hfirst, ConnectivityReport.count_append]
      exact hrest

/-- Where producers stand first, no operation stands before one of its producers. -/
private theorem checkOrder_eq_ok (hfirst : k.ProducersFirst order) (hnodup : order.Nodup)
    (l : List (Nat × Nat)) : (∀ entry ∈ l, order[entry.2]? = some entry.1) →
      checkOrder k (Kernel.positions order) l = .ok () := by
  induction l with
  | nil => exact fun _ => rfl
  | cons entry rest ih =>
      intro hall
      obtain ⟨x, i⟩ := entry
      have hx := hall (x, i) List.mem_cons_self
      have hlate : (k.op? x).bind (lateProducer? k (Kernel.positions order) i) = none := by
        cases ho : k.op? x with
        | none => rfl
        | some o =>
            rw [Option.bind_some, lateProducer?, List.find?_eq_none]
            intro y hy
            obtain ⟨w, hw, hproducer⟩ := List.mem_filterMap.mp hy
            obtain ⟨wire, hwire, rfl⟩ := Option.map_eq_some_iff.mp hproducer
            rw [← Kernel.operandsOf_of_op? ho] at hw
            cases hposition : (Kernel.positions order)[wire.producer]? with
            | none => simp
            | some j =>
                have := hfirst.position_lt hnodup hx hw hwire hposition
                simp only [Option.any_some, decide_eq_true_eq]
                omega
      unfold checkOrder
      rw [hlate]
      exact ih fun entry hentry => hall entry (List.mem_cons_of_mem _ hentry)

/-- A finished kernel whose instructions have the adjacent qubits they need passes the check. -/
theorem check_eq_ok (h : k.Finished order trace) {p : Placement} {n : Nat} {π : Nat → Nat}
    (hplaced : p.Realizes n π)
    (hadjacent : ∀ ins ∈ trace, ins.isConstrained = true → ∀ a b, ins.qubits = [a, b] →
      d.isAdjacent a b = true) :
    check d p k = .ok { ConnectivityReport.count {} trace with passed := true } := by
  have hentry : k.entry = order := by
    rw [Kernel.entry, h.blocks]
    rfl
  have hops : ∀ x ∈ order, ∃ o, k.op? x = some o ∧
      (o.kind.isAlloc = true → o.physical.length = 1) := by
    intro x hx
    obtain ⟨o, ho⟩ := Option.isSome_iff_exists.mp ((h.live x).mp hx)
    exact ⟨o, ho, fun halloc => ((h.mapped x o ho).alloc halloc).2⟩
  have hcount := foldlM_checkOp (d := d) order {} hops (h.trace ▸ hadjacent)
  have horder := checkOrder_eq_ok h.first h.nodup order.zipIdx fun entry hentry =>
    List.mk_mem_zipIdx_iff_getElem?.mp hentry
  simp only [check, hplaced.isComplete, hplaced.isBijective, Bool.not_true, Bool.or_self,
    Bool.false_eq_true, ↓reduceIte, hentry, hcount, horder, h.trace, bind, Except.bind]
  rfl

/-- The pass leaves the report among the properties. -/
theorem run_eq_ok {c : Compilation} {p : Placement} {report : ConnectivityReport}
    (hd : c.properties.get? .device = some d) (hp : c.properties.get? .placement = some p)
    (hcheck : check d p c.kernel = .ok report) :
    run c = .ok () { c with properties := c.properties.insert .connectivity report } := by
  unfold run
  rw [get_bind, hd, hp]
  simp only [hcheck]
  rfl

end Connectivity

/-! ## Counting by shapes -/

/-- What the report counts does not depend on the order of the instructions and on their qubits, but
for the number of these. -/
theorem ConnectivityReport.count_of_shapes {l l' : List Instruction} {swaps : Nat}
    (hshapes : (l.map (·.shape)).Perm (l'.map (·.shape) ++ List.replicate swaps (.swap, 2)))
    (hpairs : ∀ ins ∈ l', ins.kind.isSwap = true → ins.qubits.length = 2) :
    ConnectivityReport.count {} l =
      { twoQubit := l'.countP (·.isPair) + swaps
        swaps := swaps + l'.countP (·.kind.isSwap)
        measurements := l'.countP (·.kind.isMeasure) } := by
  have hcount : ∀ f : OpKind × Nat → Bool, l.countP (fun ins => f ins.shape) =
      l'.countP (fun ins => f ins.shape) + if f (.swap, 2) then swaps else 0 := by
    intro f
    have hperm := hshapes.countP_eq f
    rw [List.countP_append, List.countP_map, List.countP_map, List.countP_replicate] at hperm
    exact hperm
  have htwo := hcount fun s => s.1.isSupported && !s.1.isMeasure && s.2 == 2
  have hswap := hcount fun s => (s.1.isSupported && !s.1.isMeasure && s.2 == 2) && s.1.isSwap
  have hmeasure := hcount fun s => s.1.isMeasure
  have hself : l'.countP (fun ins => ins.isPair && ins.kind.isSwap) =
      l'.countP (·.kind.isSwap) := by
    apply List.countP_congr
    intro ins hins
    cases hk : ins.kind <;>
      simp_all [Instruction.isPair, Instruction.isConstrained, OpKind.isSwap, OpKind.isSupported,
        OpKind.isMeasure]
  simp only [OpKind.isSupported, OpKind.isMeasure, OpKind.isSwap, Bool.not_false, Bool.and_self,
    beq_self_eq_true, ↓reduceIte, Bool.false_eq_true, Nat.add_zero] at htwo hswap hmeasure
  simp only [ConnectivityReport.count, Nat.zero_add, ConnectivityReport.mk.injEq, true_and]
  refine ⟨htwo, ?_, hmeasure⟩
  rw [Nat.add_comm swaps, ← hself]
  exact hswap

end QubitMapper
