import QubitMapper.Device.Topology
import QubitMapper.Pass.Connectivity
import QubitMapper.Proofs.Kernel.Calls
import QubitMapper.Proofs.Placement

/-!
# What the connectivity check accepts

The check asks three things of a mapped kernel, its device and its placement, one scan each. It
reads kernel, device and placement and changes none of them; its report is all that it leaves. The
scan of the order only looks for producers that stand behind their users, so that an operation
which consumes a result of its own passes.

## Main results

* `Connectivity.Accepts`: what the check asks.
* `Connectivity.exists_check_eq_ok_iff`: acceptance is `Connectivity.Accepts`.
* `Connectivity.run_accepts_iff`: the pass on any kernel that calls have made.
-/

namespace QubitMapper.Connectivity

variable {d : Device} {p : Placement} {k : Kernel} {x i : Nat} {o : Operation}

/-- What the check asks of a mapped kernel. -/
structure Accepts (d : Device) (p : Placement) (k : Kernel) : Prop where
  /-- Every virtual qubit has a place. -/
  complete : ∀ v < p.virtualCount, ∃ q, p.physical? v = some q
  /-- The two directions of the placement are inverse to each other. -/
  inverse : ∀ v q, p.physical? v = some q ↔ p.virtual? q = some v
  /-- What is supported, no measurement and on two qubits has them adjacent. -/
  adjacent : ∀ x ∈ k.entry, ∀ o, k.op? x = some o → o.kind.isSupported = true →
    o.kind.isMeasure = false → ∀ a b, o.physical = [a, b] → d.isAdjacent a b = true
  /-- A producer in the block stands before its user, or is that itself. -/
  ordered : ∀ (i j x w : Nat) (wire : Wire), k.entry[i]? = some x → w ∈ k.operandsOf x →
    k.wire? w = some wire → k.entry[j]? = some wire.producer → j < i ∨ wire.producer = x

/-! ## The scan of the operations -/

/-- The scan goes on behind an operation exactly if that has the adjacent qubits it needs. -/
theorem exists_checkOp_eq_ok_iff (report : ConnectivityReport) (x : Nat) :
    (∃ report', checkOp d k report x = .ok report') ↔
      ∀ o, k.op? x = some o → o.kind.isSupported = true → o.kind.isMeasure = false →
        ∀ a b, o.physical = [a, b] → d.isAdjacent a b = true := by
  unfold checkOp
  cases k.op? x with
  | none => simp
  | some o =>
      simp only [Option.some.injEq, forall_eq']
      by_cases hmeasure : o.kind.isMeasure = true
      · simp [hmeasure]
      by_cases hsupported : o.kind.isSupported = true
      · rcases hphysical : o.physical with _ | ⟨a, _ | ⟨b, _ | ⟨c, rest⟩⟩⟩
        · simp [hmeasure, hsupported]
        · simp [hmeasure, hsupported]
        · by_cases hadjacent : d.isAdjacent a b = true <;>
            simp [hmeasure, hsupported, hadjacent]
        · simp [hmeasure, hsupported]
      · simp [hmeasure, hsupported]

/-! ## The scan of the order -/

/-- No producer of an operand is late exactly if none has a position behind that of its user. -/
theorem lateProducer?_eq_none_iff {positions : Std.TreeMap Nat Nat} :
    lateProducer? k positions i o = none ↔ ∀ w ∈ o.operands, ∀ wire, k.wire? w = some wire →
      ∀ j, positions[wire.producer]? = some j → j ≤ i := by
  unfold lateProducer?
  rw [List.find?_eq_none]
  constructor
  · intro hall w hw wire hwire j hj
    have hmem : wire.producer ∈ o.operands.filterMap fun w => (k.wire? w).map (·.producer) :=
      List.mem_filterMap.mpr ⟨w, hw, by rw [hwire, Option.map_some]⟩
    have := hall _ hmem
    rw [hj, Option.any_some, decide_eq_true_eq] at this
    omega
  · intro hall y hy hlate
    obtain ⟨w, hw, hproducer⟩ := List.mem_filterMap.mp hy
    obtain ⟨wire, hwire, rfl⟩ := Option.map_eq_some_iff.mp hproducer
    obtain ⟨j, hj, hlt⟩ := (Option.any_eq_true _ _).mp hlate
    have := hall w hw wire hwire j hj
    rw [decide_eq_true_eq] at hlt
    omega

private theorem checkOrder_eq_ok_iff {positions : Std.TreeMap Nat Nat} {l : List (Nat × Nat)} :
    checkOrder k positions l = .ok () ↔ ∀ entry ∈ l,
      (k.op? entry.1).bind (lateProducer? k positions entry.2) = none := by
  induction l with
  | nil => simp [checkOrder]
  | cons entry rest ih =>
      obtain ⟨x, i⟩ := entry
      rw [List.forall_mem_cons, ← ih]
      simp only [checkOrder]
      cases (k.op? x).bind (lateProducer? k positions i) with
      | none => simp
      | some producer => simp

/-- The order of a block that lists nothing twice passes exactly if no producer stands behind a user
of its results. -/
theorem checkOrder_entry_eq_ok_iff (hnodup : k.entry.Nodup) :
    checkOrder k (Kernel.positions k.entry) k.entry.zipIdx = .ok () ↔
      ∀ (i j x w : Nat) (wire : Wire), k.entry[i]? = some x → w ∈ k.operandsOf x →
        k.wire? w = some wire → k.entry[j]? = some wire.producer → j < i ∨ wire.producer = x := by
  have hsame {i j x : Nat} (hi : k.entry[i]? = some x) {wire : Wire}
      (hj : k.entry[j]? = some wire.producer) : j ≤ i ↔ j < i ∨ wire.producer = x := by
    rw [Nat.le_iff_lt_or_eq]
    refine or_congr_right ⟨fun heq => ?_, fun heq => ?_⟩
    · subst heq
      exact Option.some.inj (hj.symm.trans hi)
    · have hlt := (List.getElem?_eq_some_iff.mp hj).1
      exact (List.getElem?_inj hlt hnodup).mp (hj.trans (heq ▸ hi.symm))
  rw [checkOrder_eq_ok_iff]
  simp only [Prod.forall, List.mk_mem_zipIdx_iff_getElem?]
  constructor
  · intro hall i j x w wire hi hw hwire hj
    obtain ⟨o, ho, hmem⟩ := Kernel.mem_operandsOf.mp hw
    have hlate := hall x i hi
    rw [ho, Option.bind_some, lateProducer?_eq_none_iff] at hlate
    exact (hsame hi hj).mp
      (hlate w hmem wire hwire j ((Kernel.positions_eq_some_iff hnodup).mpr hj))
  · intro hall x i hi
    cases ho : k.op? x with
    | none => rfl
    | some o =>
        rw [Option.bind_some, lateProducer?_eq_none_iff]
        intro w hw wire hwire j hj
        have hj := Kernel.getElem?_of_positions hj
        exact (hsame hi hj).mpr
          (hall i j x w wire hi (Kernel.operandsOf_of_op? ho ▸ hw) hwire hj)

/-! ## The check -/

/-- The check accepts a kernel whose block lists nothing twice exactly if it has what is asked. -/
theorem exists_check_eq_ok_iff (hnodup : k.entry.Nodup) :
    (∃ report, check d p k = .ok report) ↔ Accepts d p k := by
  have hops : (∃ report, k.entry.foldlM (checkOp d k) {} = .ok report) ↔ _ :=
    exists_foldlM_eq_ok_iff exists_checkOp_eq_ok_iff
  have horder := checkOrder_entry_eq_ok_iff hnodup
  unfold check
  cases hcomplete : p.isComplete with
  | false =>
      refine ⟨fun ⟨_, h⟩ => (by cases h), fun h => ?_⟩
      rw [Placement.isComplete_iff.mpr h.complete] at hcomplete
      cases hcomplete
  | true =>
      cases hbijective : p.isBijective with
      | false =>
          refine ⟨fun ⟨_, h⟩ => (by cases h), fun h => ?_⟩
          rw [Placement.isBijective_iff.mpr h.inverse] at hbijective
          cases hbijective
      | true =>
          simp only [Bool.not_true, Bool.or_self, Bool.false_eq_true, ↓reduceIte,
            Except.bind_eq_ok]
          constructor
          · rintro ⟨report, counted, hcounted, ⟨⟩, hfirst, -⟩
            exact ⟨Placement.isComplete_iff.mp hcomplete, Placement.isBijective_iff.mp hbijective,
              hops.mp ⟨counted, hcounted⟩, horder.mp hfirst⟩
          · intro h
            obtain ⟨counted, hcounted⟩ := hops.mpr h.adjacent
            exact ⟨_, counted, hcounted, (), horder.mpr h.ordered, rfl⟩

/-- An accepted kernel is reported as such. -/
theorem passed_of_check_eq_ok {report : ConnectivityReport} (h : check d p k = .ok report) :
    report.passed = true := by
  unfold check at h
  split at h
  · cases h
  · obtain ⟨counted, -, h⟩ := Except.bind_eq_ok.mp h
    obtain ⟨⟨⟩, -, h⟩ := Except.bind_eq_ok.mp h
    cases h
    rfl

/-! ## The pass -/

/-- The pass with a device and a placement at hand is the check. -/
theorem run_eq {c : Compilation} (hd : c.properties.get? .device = some d)
    (hp : c.properties.get? .placement = some p) : run c =
      match check d p c.kernel with
      | .ok report => .ok () { c with properties := c.properties.insert .connectivity report }
      | .error e => .error e c := by
  unfold run
  rw [get_bind, hd, hp]
  simp only
  cases check d p c.kernel <;> rfl

/-- The pass on any kernel that calls have made, at any level. It succeeds exactly if the kernel has
what is asked, and then leaves a report and nothing else. When it fails, it leaves nothing. -/
theorem run_accepts_iff (name : String) (cs : List Kernel.Call) (level : Level)
    (mapping : Option (List Nat)) (props : Properties) (hd : props.get? .device = some d)
    (hp : props.get? .placement = some p) :
    let k := { (Kernel.empty name).calls cs with level, mapping }
    ((∃ c, run ⟨k, props⟩ = .ok () c) ↔ Accepts d p k) ∧
    (∀ c, run ⟨k, props⟩ = .ok () c →
      ∃ report, report.passed = true ∧ c = ⟨k, props.insert .connectivity report⟩) ∧
    ∀ e c, run ⟨k, props⟩ = .error e c → c = ⟨k, props⟩ := by
  intro k
  have hnodup : k.entry.Nodup :=
    ((Kernel.Coherent.empty name).calls cs).placed.sublist (Kernel.entry_sublist _)
  rw [← exists_check_eq_ok_iff hnodup, run_eq (c := ⟨k, props⟩) hd hp]
  cases hcheck : check d p k with
  | ok report =>
      refine ⟨⟨fun _ => ⟨report, rfl⟩, fun _ => ⟨_, rfl⟩⟩, ?_, ?_⟩
      · rintro _ ⟨⟩
        exact ⟨report, passed_of_check_eq_ok hcheck, rfl⟩
      · rintro _ _ ⟨⟩
  | error e =>
      refine ⟨⟨?_, ?_⟩, ?_, ?_⟩
      · rintro ⟨_, ⟨⟩⟩
      · rintro ⟨_, ⟨⟩⟩
      · rintro _ ⟨⟩
      · rintro _ _ ⟨⟩
        rfl

/-! ## Two kernels -/

/-- The properties of a kernel on a line of two qubits, each virtual qubit in its own place. -/
def onLine (d : Device) (p : Placement) : Properties :=
  (Slots.empty.insert .device d).insert .placement p

/-- What a computed run of the pass shows. -/
private theorem exists_run_onLine {k : Kernel} {n : Nat} (h : (do
      let d ← (Device.path 2).toOption
      let p ← (Placement.identity 2 2).toOption
      let out ← ended? (run ⟨k, onLine d p⟩)
      return out.2.kernel.opCount) = some n) :
    ∃ d p c, Device.path 2 = .ok d ∧ Placement.identity 2 2 = .ok p ∧
      run ⟨k, onLine d p⟩ = .ok () c := by
  simp only [bind, pure, Option.bind_eq_some_iff, Except.toOption_eq_some, ended?_eq_some] at h
  obtain ⟨d, hd, p, hp, out, hrun, -⟩ := h
  exact ⟨d, p, out.2, hd, hp, hrun⟩

/-- A gate on two neighbours. -/
def neighbours : List Kernel.Call :=
  [.alloc, .alloc, .apply (.gate "cx" []) [0, 1], .setPhysical 2 [0, 1]]

/-- The gate on neighbours is accepted, and the pass leaves the kernel alone. -/
theorem run_accepts_iff_neighbours :
    let k := { (Kernel.empty "pair").calls neighbours with level := .physical, mapping := none }
    ∃ d p c, Device.path 2 = .ok d ∧ Placement.identity 2 2 = .ok p ∧
      run ⟨k, onLine d p⟩ = .ok () c ∧ Accepts d p k ∧ c.kernel = k := by
  intro k
  obtain ⟨d, p, c, hd, hp, hrun⟩ := exists_run_onLine (k := k) (n := 3) (by decide +kernel)
  obtain ⟨hiff, hafter, -⟩ :=
    run_accepts_iff "pair" neighbours .physical none (onLine d p) (d := d) (p := p) rfl rfl
  obtain ⟨report, -, hc⟩ := hafter c hrun
  exact ⟨d, p, c, hd, hp, hrun, hiff.mp ⟨c, hrun⟩, by rw [hc]⟩

/-- A gate that is given its own result for an operand. -/
def looped : List Kernel.Call := [.alloc, .apply (.gate "h" []) [0], .setOperands 1 [1]]

/-- The gate that consumes its own result is accepted, although its producer does not stand before
it. -/
theorem run_accepts_own_result :
    let k := { (Kernel.empty "loop").calls looped with level := .physical, mapping := none }
    (∃ d p c, Device.path 2 = .ok d ∧ Placement.identity 2 2 = .ok p ∧
      run ⟨k, onLine d p⟩ = .ok () c) ∧
    k.entry[1]? = some 1 ∧ 1 ∈ k.operandsOf 1 ∧ (k.wire? 1).map (·.producer) = some 1 := by
  intro k
  exact ⟨exists_run_onLine (n := 2) (by decide +kernel), by decide +kernel, by decide +kernel,
    by decide +kernel⟩

end QubitMapper.Connectivity
