import QubitMapper.Proofs.Connectivity
import QubitMapper.Proofs.Mapping.Run

/-!
# What the mapping pass guarantees

The theorems are about the kernel of any program that lowering accepts, any device and any options.
Costs are floating-point numbers that nothing is known of.

## Main results

* `Mapping.run_preserves_meaning`: the mapped program does what the program does.
* `Mapping.run_succeeds_iff`: the pass succeeds exactly if a way joins the two qubits of every
  instruction that needs one.
* `Mapping.run_passes_connectivity`: what the pass leaves passes both checks, with matching counts.
-/

namespace QubitMapper

universe u

namespace Mapping

variable {p : Program} {k : Kernel} {files : FileReader} {target : Target} {props : Properties}
  {c : Compilation}

section Mapped

variable {d : Device} {done : List Nat} {π : Nat → Nat} {trace : List Instruction}
  {stats : RoutingStats} {placement : Placement}

/-! ## The mapped program -/

/-- The mapped program has valid instructions on the qubits of the device. -/
theorem Mapped.trace_valid (h : Mapped p d c done π trace stats placement) :
    ∀ ins ∈ trace, ins.Valid d.numQubits :=
  h.history.trace_valid h.valid h.le (fun _ hv => hv) fun _ _ _ _ heq => heq

/-- The mapped program acts on qubits of the device. -/
theorem Mapped.trace_lt (h : Mapped p d c done π trace stats placement) :
    ∀ ins ∈ trace, ∀ a ∈ ins.qubits, a < d.numQubits :=
  fun ins hins => (h.trace_valid ins hins).lt

/-- The places of the program's qubits are distinct qubits of the device. -/
theorem Mapped.places_lt (h : Mapped p d c done π trace stats placement) :
    ∀ a ∈ (List.range p.numQubits).map π, a < d.numQubits := by
  intro a ha
  obtain ⟨v, hv, rfl⟩ := List.mem_map.mp ha
  exact h.placed.lt v (Nat.lt_of_lt_of_le (List.mem_range.mp hv) h.le)

/-- The mapped kernel is emitted, and its program is the trace of the run. -/
theorem Mapped.physicalProgram (h : Mapped p d c done π trace stats placement) :
    ∃ q, c.kernel.physicalProgram = .ok q ∧ q.instructions = trace := by
  obtain ⟨order, hfinished⟩ := h.finished
  have hsmall : ∀ {a}, a < d.numQubits → a + 1 < Text.limit32 := by
    intro a ha
    have := d.le
    unfold maxQubits at this
    unfold Text.limit32 UInt32.size
    omega
  have hphysical : ∀ x ∈ order, ∃ o, c.kernel.op? x = some o ∧ o.physical ≠ [] := by
    intro x hx
    obtain ⟨o, ho⟩ := Option.isSome_iff_exists.mp ((hfinished.live x).mp hx)
    exact ⟨o, ho, (hfinished.mapped x o ho).1⟩
  have hqubits : ∀ ins ∈ c.kernel.trace order, ∀ a ∈ ins.qubits, a + 1 < Text.limit32 := by
    intro ins hins a ha
    rw [hfinished.trace] at hins
    exact hsmall (h.trace_lt ins hins a ha)
  have hplaces : ∀ a ∈ c.kernel.mapping.getD [], a + 1 < Text.limit32 := by
    intro a ha
    rw [h.mapping, Option.getD_some] at ha
    exact hsmall (h.places_lt a ha)
  obtain ⟨q, hq, hinstructions⟩ :=
    Kernel.physicalProgram_eq_ok hfinished.blocks hphysical hqubits hplaces
  exact ⟨q, hq, hinstructions.trans hfinished.trace⟩

/-- The mapped program does to the places of the program's qubits what the program does to these. -/
theorem Mapped.simulates (h : Mapped p d c done π trace stats placement) {α : Type u}
    (I : Interpretation α) {cells physical : Nat → α}
    (h₀ : ∀ v < p.numQubits, physical v = cells v) :
    ∀ v < p.numQubits, runAll I trace physical (π v) = runAll I p.instructions cells v := by
  intro v hv
  calc runAll I trace physical (π v)
    _ = runDone I done 0 p.instructions physical v :=
        h.history.simulates h.valid h.le (fun _ _ _ _ heq => heq) I (fun _ _ => rfl) v
          (Nat.lt_of_lt_of_le hv h.le)
    _ = runAll I p.instructions physical v := by
        rw [runDone_of_all fun i _ hi => h.all i (by omega)]
    _ = runAll I p.instructions cells v :=
        runAll_congr (fun ins hins => (h.valid ins hins).lt) h₀ v hv

/-- The mapped program has the instructions of the program, and the swaps. -/
theorem Mapped.shapes (h : Mapped p d c done π trace stats placement) :
    (trace.map (·.shape)).Perm
      (p.instructions.map (·.shape) ++ List.replicate stats.swaps (.swap, 2)) :=
  h.history.shapes.trans (((h.history.perm h.all).map _).append_right _)

/-- What needs adjacent qubits could get them. -/
theorem Mapped.routable (h : Mapped p d c done π trace stats placement) :
    Router.Routable d p id := by
  intro ins hins hconstrained u v huv
  obtain ⟨i, hi⟩ := List.mem_iff_getElem?.mp hins
  have hilt := (List.getElem?_eq_some_iff.mp hi).1
  exact h.history.joined_of_done i (h.all i hilt) ins hi hconstrained u v huv

end Mapped

/-- Mapping preserves meaning. Whatever the kinds of operations do to the contents of their
operands' cells, swaps exchanging theirs: from contents where the cell of each program qubit `v` is
the physical one of the same number, the mapped program leaves in the place of `v` what the program
leaves in `v`. And it has the instructions of the program, each once, and one swap for each that was
counted, all on qubits of the device. -/
theorem run_preserves_meaning (hk : p.lower = .ok k)
    (hrun : run files target ⟨k, props⟩ = .ok () c) :
    ∃ d q places stats, c.properties.get? .device = some d ∧
      c.kernel.physicalProgram = .ok q ∧ c.kernel.mapping = some places ∧
      c.properties.get? .stats = some stats ∧ places.length = p.numQubits ∧
      (∀ (α : Type u) (I : Interpretation α) (cells physical : Nat → α),
        (∀ v < p.numQubits, physical v = cells v) → ∀ v a : Nat, places[v]? = some a →
          runAll I q.instructions physical a = runAll I p.instructions cells v) ∧
      (q.instructions.map (·.shape)).Perm
        (p.instructions.map (·.shape) ++ List.replicate stats.swaps (.swap, 2)) ∧
      ∀ ins ∈ q.instructions, ∀ a ∈ ins.qubits, a < d.numQubits := by
  obtain ⟨d, done, π, trace, stats, placement, hmapped⟩ := mapped_of_run_eq_ok hk hrun
  obtain ⟨q, hq, hinstructions⟩ := hmapped.physicalProgram
  refine ⟨d, q, (List.range p.numQubits).map π, stats, hmapped.device, hq, hmapped.mapping,
    hmapped.stats, by simp, ?_, hinstructions ▸ hmapped.shapes, hinstructions ▸ hmapped.trace_lt⟩
  intro α I cells physical h₀ v a hv
  rw [List.getElem?_map, Option.map_eq_some_iff] at hv
  obtain ⟨v', hv', rfl⟩ := hv
  obtain ⟨hlt, rfl⟩ := List.getElem?_eq_some_iff.mp hv'
  rw [List.length_range] at hlt
  rw [List.getElem_range, hinstructions]
  exact hmapped.simulates I h₀ v hlt

/-- A gate on the outer two of three qubits in a line, with the contents as numbers. -/
theorem run_preserves_meaning_outerPair :
    ∃ k c q places, Program.outerPair.lower = .ok k ∧
      run .none ⟨.path none, {}⟩ ⟨k, .empty⟩ = .ok () c ∧ c.kernel.physicalProgram = .ok q ∧
      c.kernel.mapping = some places ∧ places.length = 3 ∧
      ∀ (I : Interpretation Nat) (cells : Nat → Nat) (v a : Nat), places[v]? = some a →
        runAll I q.instructions cells a = runAll I Program.outerPair.instructions cells v := by
  obtain ⟨k, c, hk, hrun⟩ := exists_run_outerPair
  obtain ⟨d, q, places, stats, -, hq, hmapping, -, hlength, hmeaning, -⟩ :=
    run_preserves_meaning hk hrun
  exact ⟨k, c, q, places, hk, hrun, hq, hmapping, hlength,
    fun I cells => hmeaning Nat I cells cells fun _ _ => rfl⟩

/-! ## When the pass succeeds -/

/-- On a device with enough qubits and with options that can be used, the pass maps the kernel of a
program of mappable instructions exactly if the device joins the two qubits of every instruction
that needs them adjacent. Otherwise it reports two qubits with no way between them, and nothing
else. -/
theorem run_succeeds_iff {d : Device} (hk : p.lower = .ok k)
    (hoptions : target.options.validate = .ok ())
    (hd : target.spec.build files p.numQubits = .ok d) (hn : p.numQubits ≤ d.numQubits)
    (hnonempty : ∀ ins ∈ p.instructions, ins.qubits ≠ [])
    (hregister : ∀ ins ∈ p.instructions, ∀ r, ins.kind = .measure r → r.getD "" ≠ "")
    (hpair : ∀ ins ∈ p.instructions, ins.kind.isSupported = true → ins.kind.isMeasure = false →
      ins.qubits.length ≤ 2) :
    let joined := ∀ ins ∈ p.instructions, ins.kind.isSupported = true →
      ins.kind.isMeasure = false → ∀ u w, ins.qubits = [u, w] → (d.distance? u w).isSome
    ((∃ c, run files target ⟨k, props⟩ = .ok () c) ↔ joined) ∧
      (¬ joined → ∃ a b c, run files target ⟨k, props⟩ = .error (.unroutable a b) c) := by
  intro joined
  obtain ⟨tags, hlowered⟩ := Program.lower_spec hk
  obtain ⟨l, hl⟩ := (Labelling.ofKernel_isOk_iff hlowered).mpr fun ins hins =>
    ⟨hnonempty ins hins, hregister ins hins, hpair ins hins⟩
  have hjoined : joined ↔ Router.Routable d p id := by
    have hiff : ∀ ins ∈ p.instructions, ∀ u w, ins.qubits = [u, w] →
        ((d.distance? u w).isSome ↔ d.Joined u w) := by
      intro ins hins u w huw
      have hu := (hlowered.valid ins hins).lt u (by simp [huw])
      exact d.distance?_isSome_iff (Nat.lt_of_lt_of_le hu hn)
    constructor
    · intro h ins hins hconstrained u w huw
      simp only [Instruction.isConstrained, Bool.and_eq_true, Bool.not_eq_true'] at hconstrained
      exact (hiff ins hins u w huw).mp (h ins hins hconstrained.1 hconstrained.2 u w huw)
    · intro h ins hins hsupported hmeasure u w huw
      refine (hiff ins hins u w huw).mpr (h ins hins ?_ u w huw)
      simp [Instruction.isConstrained, hsupported, hmeasure]
  have hmeets := run_spec props hk hoptions hl hd hn
  unfold Meets at hmeets
  cases hrun : run files target ⟨k, props⟩ with
  | ok _ c =>
      rw [hrun] at hmeets
      obtain ⟨done, π, trace, stats, placement, hmapped⟩ := hmeets
      have hyes : joined := hjoined.mpr hmapped.routable
      exact ⟨⟨fun _ => hyes, fun _ => ⟨c, rfl⟩⟩, fun hno => absurd hyes hno⟩
  | error e c =>
      rw [hrun] at hmeets
      obtain ⟨⟨a, b, rfl⟩, hno⟩ := hmeets
      refine ⟨⟨?_, fun hyes => absurd (hjoined.mp hyes) hno⟩, fun _ => ⟨a, b, c, rfl⟩⟩
      rintro ⟨c', h⟩
      cases h

/-- The outer two of three qubits in a line are joined, so that a gate on them is mapped. -/
theorem run_succeeds_iff_outerPair :
    ∃ k d c, Program.outerPair.lower = .ok k ∧ Spec.build .none (.path none) 3 = .ok d ∧
      (d.distance? 0 2).isSome = true ∧
      run .none ⟨.path none, {}⟩ ⟨k, .empty⟩ = .ok () c := by
  obtain ⟨k, hk⟩ : ∃ k, Program.outerPair.lower = .ok k := ⟨_, rfl⟩
  obtain ⟨d, hd, hn, hjoined⟩ := build_outerPair
  have hdistance : (d.distance? 0 2).isSome = true :=
    (d.distance?_isSome_iff (by omega)).mpr hjoined
  have hregister : ∀ ins ∈ Program.outerPair.instructions, ∀ r, ins.kind = .measure r →
      r.getD "" ≠ "" := by
    intro ins hins r hr
    rcases List.mem_pair.mp hins with rfl | rfl
    · cases hr
    · cases hr
      decide
  have hall : ∀ ins ∈ Program.outerPair.instructions, ∀ u w, ins.qubits = [u, w] →
      (d.distance? u w).isSome := by
    intro ins hins u w huw
    rcases List.mem_pair.mp hins with rfl | rfl
    · cases huw
      exact hdistance
    · cases huw
  have hiff : ((∃ c, run .none ⟨.path none, {}⟩ ⟨k, .empty⟩ = .ok () c) ↔ _) ∧ _ :=
    run_succeeds_iff hk rfl hd (Nat.le_of_eq hn.symm) (by decide) hregister (by decide)
  obtain ⟨c, hrun⟩ := hiff.1.mpr fun ins hins _ _ => hall ins hins
  exact ⟨k, d, c, hk, hd, hdistance, hrun⟩

/-! ## What the checks say -/

/-- What the pass leaves is in value semantics and at the physical level, it is emitted, and it
passes the connectivity check, which counts the pairs, swaps and measurements of the program and the
inserted swaps. Nothing is left unmapped. The placement is complete and bijective on the qubits of
the device, and the mapping of the kernel, the published assignment and the first places are the
same list of distinct qubits of the device. -/
theorem run_passes_connectivity (hk : p.lower = .ok k)
    (hrun : run files target ⟨k, props⟩ = .ok () c) :
    ∃ d stats placement assignment, c.properties.get? .device = some d ∧
      c.properties.get? .stats = some stats ∧ c.properties.get? .placement = some placement ∧
      c.properties.get? .assignment = some assignment ∧
      c.kernel.verify = .ok () ∧ c.kernel.level = .physical ∧
      (∃ q, c.kernel.physicalProgram = .ok q) ∧
      (∃ c' report, Connectivity.run c = .ok () c' ∧
        c'.properties.get? .connectivity = some report ∧ report.passed = true ∧
        report.twoQubit = p.instructions.countP (fun ins => ins.kind.isSupported &&
          !ins.kind.isMeasure && ins.qubits.length == 2) + stats.swaps ∧
        report.swaps = stats.swaps + p.instructions.countP (·.kind.isSwap) ∧
        report.measurements = p.instructions.countP (·.kind.isMeasure)) ∧
      stats.unmapped = 0 ∧
      placement.isComplete = true ∧ placement.isBijective = true ∧
      placement.places.size = d.numQubits ∧ placement.holders.size = d.numQubits ∧
      c.kernel.mapping = some assignment.places ∧
      assignment.places = placement.firstSlots p.numQubits ∧
      assignment.places.length = p.numQubits ∧ assignment.places.Nodup ∧
      ∀ a ∈ assignment.places, a < d.numQubits := by
  obtain ⟨d, done, π, trace, stats, placement, hmapped⟩ := mapped_of_run_eq_ok hk hrun
  obtain ⟨order, hfinished⟩ := hmapped.finished
  obtain ⟨q, hq, -⟩ := hmapped.physicalProgram
  have hcheck := Connectivity.check_eq_ok (d := d) hfinished hmapped.placed
    hmapped.history.adjacent
  have hswap : ∀ ins ∈ p.instructions, ins.kind.isSwap = true → ins.qubits.length = 2 := by
    intro ins hins hisSwap
    refine ((hmapped.valid ins hins).arity 2 ?_).symm
    cases hkind : ins.kind <;> simp_all [OpKind.isSwap, OpKind.arity?]
  rw [ConnectivityReport.count_of_shapes hmapped.shapes hswap] at hcheck
  have hconnectivity := Connectivity.run_eq_ok hmapped.device hmapped.placement hcheck
  refine ⟨d, stats, placement, ⟨(List.range p.numQubits).map π⟩, hmapped.device, hmapped.stats,
    hmapped.placement, hmapped.assignment, hfinished.verify, hmapped.level, ⟨q, hq⟩,
    ⟨_, _, hconnectivity, Slots.get?_insert _ _ _, rfl, rfl, rfl, rfl⟩, hmapped.unmapped,
    hmapped.placed.isComplete, hmapped.placed.isBijective, hmapped.placed.places,
    hmapped.placed.holders, hmapped.mapping, (hmapped.placed.firstSlots hmapped.le).symm,
    by simp, hmapped.placed.nodup_map_range hmapped.le, hmapped.places_lt⟩

/-- What is left of the gate and the measurement has one pair for the gate and one for each swap. -/
theorem run_passes_connectivity_outerPair :
    ∃ k c c' stats report, Program.outerPair.lower = .ok k ∧
      run .none ⟨.path none, {}⟩ ⟨k, .empty⟩ = .ok () c ∧ c.kernel.verify = .ok () ∧
      c.properties.get? .stats = some stats ∧ Connectivity.run c = .ok () c' ∧
      c'.properties.get? .connectivity = some report ∧ report.twoQubit = 1 + stats.swaps ∧
      report.swaps = stats.swaps ∧ report.measurements = 1 := by
  obtain ⟨k, c, hk, hrun⟩ := exists_run_outerPair
  obtain ⟨d, stats, placement, assignment, -, hstats, -, -, hverify, -, -,
    ⟨c', report, hcheck, hreport, -, htwo, hswaps, hmeasurements⟩, -⟩ :=
    run_passes_connectivity hk hrun
  exact ⟨k, c, c', stats, report, hk, hrun, hverify, hstats, hcheck, hreport, htwo, hswaps,
    hmeasurements⟩

end Mapping

end QubitMapper
