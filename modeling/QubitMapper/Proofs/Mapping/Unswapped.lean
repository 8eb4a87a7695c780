import QubitMapper.Proofs.Device.Sizes
import QubitMapper.Proofs.Mapping.Emitted
import QubitMapper.Proofs.Routing.Unswapped

/-!
# Swaps only where they are needed

A program that fits the device as it stands is mapped without swaps, and its qubits stay where they
are. What the pass emits fits the device, so that mapping it once more changes nothing.

## Main results

* `Mapping.run_of_fits`: the pass on a program that fits.
* `Mapping.run_swaps_when_needed`: when a successful run has inserted swaps, and what the pass makes
  of an emitted program.
-/

namespace QubitMapper

namespace Mapping

variable {p q : Program} {k : Kernel} {files : FileReader} {target : Target} {props : Properties}
  {c : Compilation} {d : Device} {done : List Nat} {π : Nat → Nat} {trace : List Instruction}
  {stats : RoutingStats} {placement : Placement}

/-! ## Programs that fit -/

/-- The condition spelled out for virtual qubits on the physical qubits of equal number. -/
theorem fits_id_iff : p.Fits d id ↔ ∀ ins ∈ p.instructions, ins.kind.isSupported = true →
    ins.kind.isMeasure = false → ∀ u w, ins.qubits = [u, w] → d.isAdjacent u w = true := by
  simp only [Program.Fits, Instruction.isConstrained, Bool.and_eq_true, Bool.not_eq_true', and_imp,
    id_eq]

/-- A run on a program that fits publishes that nothing was swapped. -/
private theorem run_unswapped {l : Labelling} (props : Properties) (hk : p.lower = .ok k)
    (hoptions : target.options.validate = .ok ()) (hl : Labelling.ofKernel k = .ok l)
    (hd : target.spec.build files p.numQubits = .ok d) (hn : p.numQubits ≤ d.numQubits)
    (hfits : p.Fits d id) :
    Meets (run files target) ⟨k, props⟩
      (fun _ c => ∃ stats, c.properties.get? .stats = some stats ∧ stats.swaps = 0)
      fun _ _ => True := by
  refine run_meets hk hoptions hl hd hn fun labels placement c hpad hmappable hplaced => ?_
  let task : RoutingTask := ⟨d, labels, target.options⟩
  change Padded p task.device.numQubits c.kernel task.labels at hpad
  have hroute := Router.route_unswapped hpad hmappable hplaced hfits
  refine meets_bind.mpr ((route_meets hroute).mono ?_ fun _ _ _ => trivial)
  rintro router _ ⟨hswaps, rfl⟩
  exact meets_true.bind fun _ _ _ => meets_true.bind fun _ c' _ => ⟨router.stats, rfl, hswaps⟩

/-- Without swaps the program fits, and its qubits stay where they are. -/
theorem Mapped.of_unswapped (h : Mapped p d c done π trace stats placement)
    (hswaps : stats.swaps = 0) : p.Fits d id ∧ c.kernel.mapping = some (List.range p.numQubits) ∧
      c.properties.get? .assignment = some ⟨List.range p.numQubits⟩ := by
  obtain ⟨rfl, hdone⟩ := h.history.of_unswapped hswaps
  refine ⟨fun ins hins hconstrained u v huv => ?_, by simpa using h.mapping,
    by simpa using h.assignment⟩
  obtain ⟨i, hi⟩ := List.mem_iff_getElem?.mp hins
  exact hdone i (h.all i (List.getElem?_eq_some_iff.mp hi).1) ins hi hconstrained u v huv

/-- A program that fits can be routed. -/
theorem routable_of_fits (hfits : p.Fits d id) : Router.Routable d p id :=
  fun ins hins hconstrained u v huv =>
    (Device.Joined.refl d u).step (hfits ins hins hconstrained u v huv)

/-- The pass maps a program that fits, without a swap and onto the qubits of equal number. -/
theorem run_of_fits {l : Labelling} (props : Properties) (hk : p.lower = .ok k)
    (hoptions : target.options.validate = .ok ()) (hl : Labelling.ofKernel k = .ok l)
    (hd : target.spec.build files p.numQubits = .ok d) (hn : p.numQubits ≤ d.numQubits)
    (hfits : p.Fits d id) :
    ∃ c stats, run files target ⟨k, props⟩ = .ok () c ∧ c.properties.get? .device = some d ∧
      c.properties.get? .stats = some stats ∧ stats.swaps = 0 ∧
      c.kernel.mapping = some (List.range p.numQubits) ∧
      c.properties.get? .assignment = some ⟨List.range p.numQubits⟩ := by
  have hspec := run_spec props hk hoptions hl hd hn
  have hunswapped := run_unswapped props hk hoptions hl hd hn hfits
  cases hrun : run files target ⟨k, props⟩ with
  | ok _ c =>
      obtain ⟨done, π, trace, stats, placement, hmapped⟩ := hspec.of_ok hrun
      obtain ⟨stats', hstats', hswaps⟩ := hunswapped.of_ok hrun
      cases hmapped.stats.symm.trans hstats'
      obtain ⟨-, hmapping, hassignment⟩ := hmapped.of_unswapped hswaps
      exact ⟨c, stats, rfl, hmapped.device, hmapped.stats, hswaps, hmapping, hassignment⟩
  | error e c =>
      unfold Meets at hspec
      rw [hrun] at hspec
      exact absurd (routable_of_fits hfits) hspec.2

/-! ## Emitted programs -/

/-- The emitted program of a mapped kernel has at least as many qubits as the program and at most as
many as the device. -/
theorem Mapped.numQubits (h : Mapped p d c done π trace stats placement)
    (hq : c.kernel.physicalProgram = .ok q) (htrace : q.instructions = trace) :
    p.numQubits ≤ q.numQubits ∧ q.numQubits ≤ d.numQubits := by
  have hlt := Kernel.physicalProgram_mapping_lt hq
  rw [h.mapping, Option.getD_some] at hlt
  constructor
  · have hsub := List.subperm_of_subset (h.placed.nodup_map_range h.le)
      fun a ha => List.mem_range.mpr (hlt a ha)
    simpa using hsub.length_le
  · refine Kernel.physicalProgram_le hq ?_ (htrace ▸ h.trace_lt)
    rw [h.mapping, Option.getD_some]
    exact h.places_lt

/-- The emitted program fits the device. -/
theorem Mapped.fits (h : Mapped p d c done π trace stats placement)
    (htrace : q.instructions = trace) : q.Fits d id :=
  fun ins hins hconstrained u v huv =>
    h.history.adjacent ins (htrace ▸ hins) hconstrained u v huv

/-- Whether an instruction can be mapped depends on its kind and its number of qubits. -/
private theorem mappable_congr {ins other : Instruction} (hshape : ins.shape = other.shape)
    (h : ins.Mappable) : other.Mappable := by
  obtain ⟨kind, qubits⟩ := ins
  obtain ⟨kind', qubits'⟩ := other
  obtain ⟨rfl, hlen⟩ : kind = kind' ∧ qubits.length = qubits'.length := by
    simpa [Instruction.shape] using hshape
  refine ⟨?_, h.register, hlen ▸ h.pair⟩
  rw [← List.length_pos_iff, ← hlen, List.length_pos_iff]
  exact h.nonempty

/-- The instructions of an emitted program can be mapped. -/
theorem Mapped.mappable (h : Mapped p d c done π trace stats placement)
    (hmappable : ∀ ins ∈ p.instructions, ins.Mappable) : ∀ ins ∈ trace, ins.Mappable := by
  intro ins hins
  rcases List.mem_append.mp (h.shapes.mem_iff.mp (List.mem_map_of_mem hins)) with hshape | hshape
  · obtain ⟨source, hsource, heq⟩ := List.mem_map.mp hshape
    exact mappable_congr heq (hmappable source hsource)
  · have hswap : Instruction.Mappable ⟨.swap, [0, 1]⟩ := ⟨by simp, by simp, by simp⟩
    have heq : Instruction.shape ⟨.swap, [0, 1]⟩ = ins.shape :=
      (List.eq_of_mem_replicate hshape).symm
    exact mappable_congr heq hswap

/-- Swaps are inserted only where they are needed. A successful run has inserted none exactly if the
device joins the two qubits of every instruction that needs them adjacent, and then the qubits stay
where they are. So the emitted program of a program without sinks, which is lowered again, is mapped
onto the same device by any options that can be used without a swap and onto the qubits of equal
number; and the specification that named the device names it for the emitted program, too. -/
theorem run_swaps_when_needed (hk : p.lower = .ok k)
    (hrun : run files target ⟨k, props⟩ = .ok () c) :
    ∃ d stats q, target.spec.build files p.numQubits = .ok d ∧
      c.properties.get? .device = some d ∧ c.properties.get? .stats = some stats ∧
      c.kernel.physicalProgram = .ok q ∧
      (stats.swaps = 0 ↔ ∀ ins ∈ p.instructions, ins.kind.isSupported = true →
        ins.kind.isMeasure = false → ∀ u w, ins.qubits = [u, w] → d.isAdjacent u w = true) ∧
      (stats.swaps = 0 → c.kernel.mapping = some (List.range p.numQubits) ∧
        c.properties.get? .assignment = some ⟨List.range p.numQubits⟩) ∧
      ((∀ ins ∈ p.instructions, ins.kind.isSink = false) →
        target.spec.build files q.numQubits = .ok d ∧ ∃ k', q.lower = .ok k' ∧
          ∀ files' target' props', target'.options.validate = .ok () →
            target'.spec.build files' q.numQubits = .ok d →
            ∃ c' stats', run files' target' ⟨k', props'⟩ = .ok () c' ∧
              c'.properties.get? .device = some d ∧ c'.properties.get? .stats = some stats' ∧
              stats'.swaps = 0 ∧ c'.kernel.mapping = some (List.range q.numQubits) ∧
              c'.properties.get? .assignment = some ⟨List.range q.numQubits⟩) := by
  obtain ⟨hoptions, l, d, hl, hd, hn, done, π, trace, stats, placement, hmapped⟩ :=
    built_of_run_eq_ok hk hrun
  obtain ⟨q, hq, htrace⟩ := hmapped.physicalProgram
  obtain ⟨hle, hle'⟩ := hmapped.numQubits hq htrace
  refine ⟨d, stats, q, hd, hmapped.device, hmapped.stats, hq, ?_,
    fun hswaps => (hmapped.of_unswapped hswaps).2, fun hsink => ?_⟩
  · rw [← fits_id_iff]
    refine ⟨fun hswaps => (hmapped.of_unswapped hswaps).1, fun hfits => ?_⟩
    obtain ⟨stats', hstats', hswaps⟩ := (run_unswapped props hk hoptions hl hd hn hfits).of_ok hrun
    cases hmapped.stats.symm.trans hstats'
    exact hswaps
  · have hvalid : q.Valid := by
      intro ins hins
      have hins' := hmapped.trace_valid ins (htrace ▸ hins)
      exact ⟨hins'.alloc, hins'.arity, hins'.nodup, Kernel.physicalProgram_lt hq ins hins⟩
    obtain ⟨k', hk'⟩ := Program.lower_isOk_iff.mpr
      ⟨hvalid, sinksLast_of_no_sink (htrace ▸ hmapped.isSink_eq_false hsink)⟩
    obtain ⟨tags, hlowered⟩ := Program.lower_spec hk
    obtain ⟨tags', hlowered'⟩ := Program.lower_spec hk'
    obtain ⟨l', hl'⟩ := (Labelling.ofKernel_isOk_iff hlowered').mpr
      (htrace ▸ hmapped.mappable ((Labelling.ofKernel_isOk_iff hlowered).mp ⟨l, hl⟩))
    refine ⟨Spec.build_of_le hd hle hle', k', hk', fun files' target' props' hoptions' hd' => ?_⟩
    exact run_of_fits props' hk' hoptions' hl' hd' hle' (hmapped.fits htrace)

/-- On a path of three qubits, what is emitted for a gate on the outer two is mapped again without
swaps, whatever else the options are. -/
theorem run_swaps_when_needed_outerPair :
    ∃ k c q k', Program.outerPair.lower = .ok k ∧
      run .none ⟨.path none, {}⟩ ⟨k, .empty⟩ = .ok () c ∧ c.kernel.physicalProgram = .ok q ∧
      q.lower = .ok k' ∧ ∀ options : Options, options.validate = .ok () →
        ∃ c' stats, run .none ⟨.path none, options⟩ ⟨k', .empty⟩ = .ok () c' ∧
          c'.properties.get? .stats = some stats ∧ stats.swaps = 0 ∧
          c'.kernel.mapping = some (List.range q.numQubits) := by
  obtain ⟨k, c, hk, hrun⟩ := exists_run_outerPair
  obtain ⟨d, stats, q, -, -, -, hq, -, -, hagain⟩ := run_swaps_when_needed hk hrun
  obtain ⟨hd, k', hk', hrun'⟩ := hagain (by decide)
  refine ⟨k, c, q, k', hk, hrun, hq, hk', fun options hoptions => ?_⟩
  obtain ⟨c', stats', hrun', -, hstats', hswaps, hmapping, -⟩ :=
    hrun' .none ⟨.path none, options⟩ .empty hoptions hd
  exact ⟨c', stats', hrun', hstats', hswaps, hmapping⟩

end Mapping

end QubitMapper
