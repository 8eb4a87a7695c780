import QubitMapper.Proofs.Mapping.Correctness
import QubitMapper.Proofs.Routing.Sinks

/-!
# Emitted programs as programs

The instructions of an emitted program are valid ones. Programs have no allocations, so a physical
qubit that a sink has emptied stays out of use, while routing may allocate it anew to move another
qubit there. The emitted program is lowered exactly if no swap does that.

## Main results

* `Mapping.run_emits_valid`: an emitted program is valid, and when it is lowered.
* `Mapping.run_emits_released`: an emitted program that is not lowered.
-/

namespace QubitMapper

namespace Mapping

variable {p : Program} {k : Kernel} {files : FileReader} {target : Target} {props : Properties}
  {c : Compilation} {d : Device} {done : List Nat} {π : Nat → Nat} {trace : List Instruction}
  {stats : RoutingStats} {placement : Placement}

/-- The physical instructions of a program without sinks have none. -/
theorem Mapped.isSink_eq_false (h : Mapped p d c done π trace stats placement)
    (hsink : ∀ ins ∈ p.instructions, ins.kind.isSink = false) :
    ∀ ins ∈ trace, ins.kind.isSink = false := by
  intro ins hins
  have hshape := h.shapes.mem_iff.mp (List.mem_map_of_mem hins)
  rcases List.mem_append.mp hshape with hshape | hshape
  · obtain ⟨source, hsource, heq⟩ := List.mem_map.mp hshape
    have hkind : source.kind = ins.kind := congrArg Prod.fst heq
    rw [← hkind]
    exact hsink source hsource
  · have hkind : ins.kind = .swap := congrArg Prod.fst (List.eq_of_mem_replicate hshape)
    rw [hkind]
    rfl

/-- A physical program is a valid program: its instructions act on distinct qubits below its number
of qubits, as many as their kind takes, and none is an allocation. It is lowered exactly if no swap
acts on a physical qubit behind a sink of it. So it is if nothing was swapped, or if the program has
no sinks. -/
theorem run_emits_valid (hk : p.lower = .ok k)
    (hrun : run files target ⟨k, props⟩ = .ok () c) :
    ∃ q stats, c.kernel.physicalProgram = .ok q ∧ c.properties.get? .stats = some stats ∧
      q.Valid ∧ ((∃ k', q.lower = .ok k') ↔ SinksLast OpKind.isSwap q.instructions) ∧
      ((stats.swaps = 0 ∨ ∀ ins ∈ p.instructions, ins.kind.isSink = false) →
        ∃ k', q.lower = .ok k') := by
  obtain ⟨d, done, π, trace, stats, placement, hmapped⟩ := mapped_of_run_eq_ok hk hrun
  obtain ⟨q, hq, rfl⟩ := hmapped.physicalProgram
  have hinj : ∀ u < d.numQubits, ∀ v < d.numQubits, id u = id v → u = v := fun _ _ _ _ heq => heq
  have hvalid : q.Valid := by
    intro ins hins
    have hins' := hmapped.trace_valid ins hins
    exact ⟨hins'.alloc, hins'.arity, hins'.nodup, Kernel.physicalProgram_lt hq ins hins⟩
  have hlower : (∃ k', q.lower = .ok k') ↔ SinksLast (fun _ => true) q.instructions :=
    Program.lower_isOk_iff.trans (and_iff_right hvalid)
  have hlast := hmapped.history.sinksLast hmapped.valid hmapped.le
    (Program.lower_isOk_iff.mp ⟨k, hk⟩).2 hinj
  refine ⟨q, stats, hq, hmapped.stats, hvalid, ?_, fun h => hlower.mpr ?_⟩
  · exact hlower.trans ⟨fun h => h.mono fun _ _ => rfl, fun hswaps => hlast (.inr hswaps)⟩
  · rcases h with hswaps | hsink
    · exact hlast (.inl hswaps)
    · exact sinksLast_of_no_sink (hmapped.isSink_eq_false hsink)

/-! ## Examples -/

/-- Without sinks the physical program is lowered again. -/
theorem run_emits_valid_outerPair :
    ∃ k c q k', Program.outerPair.lower = .ok k ∧
      run .none ⟨.path none, {}⟩ ⟨k, .empty⟩ = .ok () c ∧ c.kernel.physicalProgram = .ok q ∧
      q.lower = .ok k' := by
  obtain ⟨k, c, hk, hrun⟩ := exists_run_outerPair
  obtain ⟨q, stats, hq, -, -, -, hlower⟩ := run_emits_valid hk hrun
  obtain ⟨k', hk'⟩ := hlower (.inr (by decide))
  exact ⟨k, c, q, k', hk, hrun, hq, hk'⟩

theorem build_line : Spec.build .none (.path none) 3 = .ok .line := by
  obtain ⟨d, hd, hn, hedges⟩ : ∃ d, Spec.build .none (.path none) 3 = .ok d ∧ d.numQubits = 3 ∧
      d.edges = [(0, 1), (1, 2)] := ⟨_, rfl, rfl, rfl⟩
  rw [hd]
  obtain ⟨n, edges, table, searches, _, _, _, htable, hsearches⟩ := d
  subst hn hedges
  rw [Device.adjacency_line] at htable
  subst htable hsearches
  rfl

/-- A sink between the two qubits of a gate. -/
def sunken : Program where
  name := "sunken"
  numQubits := 3
  instructions := [⟨.sink, [1]⟩, ⟨.gate "cx" [], [0, 2]⟩]

/-- The swap that brings the two qubits together acts on the qubit that the sink has emptied. -/
theorem run_emits_released :
    ∃ k c q, sunken.lower = .ok k ∧ run .none ⟨.path none, {}⟩ ⟨k, .empty⟩ = .ok () c ∧
      c.kernel.physicalProgram = .ok q ∧ ¬ ∃ k', q.lower = .ok k' := by
  have hcomputed : (do
      let k ← sunken.lower.toOption
      let l ← (Labelling.ofKernel k).toOption
      let out ← ended? (mapOnto {} l .line ⟨k, .empty⟩)
      let q ← out.2.kernel.physicalProgram.toOption
      return (l.sources.size, q.lower.toOption.isSome)) = some (3, false) := by
    decide +kernel
  simp only [bind, pure, Option.bind_eq_some_iff, Except.toOption_eq_some, ended?_eq_some,
    Option.some.injEq, Prod.mk.injEq] at hcomputed
  obtain ⟨k, hk, l, hl, out, hmap, q, hq, hsize, hlower⟩ := hcomputed
  have hpre : preflight .none ⟨.path none, {}⟩ k = .ok (l, .line) :=
    preflight_eq_ok_iff.mpr
      ⟨rfl, checkKernel_eq_ok hk, hl, by rw [hsize]; exact build_line, Nat.le_of_eq hsize⟩
  refine ⟨k, out.2, q, hk, by rw [run_eq, hpre]; exact hmap, hq, fun ⟨k', hk'⟩ => ?_⟩
  rw [hk'] at hlower
  cases hlower

end Mapping

end QubitMapper
