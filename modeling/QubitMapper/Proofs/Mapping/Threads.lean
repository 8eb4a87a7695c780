import QubitMapper.Proofs.Mapping.Run

/-!
# Wires and physical qubits of mapped kernels

Consumers of a mapped kernel may follow its wires, or the physical qubits that its operations list.
Both lead through the same operations in the same order.

## Main results

* `Mapping.run_threads_qubits`: the wires of a mapped kernel run along its physical qubits.
-/

namespace QubitMapper

namespace Mapping

variable {p : Program} {k : Kernel} {files : FileReader} {target : Target} {props : Properties}
  {c : Compilation} {d : Device} {done : List Nat} {π : Nat → Nat} {trace : List Instruction}
  {stats : RoutingStats} {placement : Placement}

/-- The entry block of a mapped kernel finishes it. -/
theorem Mapped.finished_entry (h : Mapped p d c done π trace stats placement) :
    c.kernel.Finished c.kernel.entry trace := by
  obtain ⟨order, hfinished⟩ := h.finished
  rwa [Kernel.entry, hfinished.blocks, List.headD_cons]

/-- Wires run along physical qubits. Every operation of the entry block of a mapped kernel lists
distinct physical qubits, one for each operand, and a single one if it is an allocation. Each
operand was left by an operation that stands earlier, on the physical qubit where it is consumed.
And the operations that list a physical qubit begin with an allocation, and each of the others takes
what the one before it left there, or allocates the qubit after a sink. -/
theorem run_threads_qubits (hk : p.lower = .ok k)
    (hrun : run files target ⟨k, props⟩ = .ok () c) :
    (∀ x ∈ c.kernel.entry, ∃ o, c.kernel.op? x = some o ∧ o.physical.Nodup ∧
      o.physical.length = if o.kind.isAlloc then 1 else o.operands.length) ∧
    (∀ i y j w : Nat, c.kernel.entry[i]? = some y → ∀ o, c.kernel.op? y = some o →
      o.operands[j]? = some w → ∃ wire o', c.kernel.wire? w = some wire ∧
        wire.producer ∈ c.kernel.entry.take i ∧ c.kernel.op? wire.producer = some o' ∧
        ∃ q, o.physical[j]? = some q ∧ o'.physical[wire.index]? = some q) ∧
    ∀ q, (∀ x ∈ (c.kernel.thread c.kernel.entry q).head?, ∃ o, c.kernel.op? x = some o ∧
        o.kind.isAlloc = true) ∧
      (c.kernel.thread c.kernel.entry q).IsChain (c.kernel.Follows q) := by
  obtain ⟨d, done, π, trace, stats, placement, hmapped⟩ := mapped_of_run_eq_ok hk hrun
  have hfinished := hmapped.finished_entry
  refine ⟨fun x hx => ?_, fun i y j w hi o ho hj => ?_, fun q => ?_⟩
  · obtain ⟨o, ho⟩ := Option.isSome_iff_exists.mp ((hfinished.live x).mp hx)
    have hannotated := hfinished.mapped x o ho
    refine ⟨o, ho, hannotated.nodup, ?_⟩
    cases halloc : o.kind.isAlloc with
    | true => simpa using (hannotated.alloc halloc).2
    | false => simpa using hannotated.other halloc
  · obtain ⟨x, o', wire, hwire, rfl, hbefore, ho', hqubit⟩ :=
      hfinished.threaded.producer hfinished.consistent hi ho (hfinished.mapped y o ho) hj
    exact ⟨wire, o', hwire, hbefore, ho', hqubit⟩
  · exact ⟨hfinished.threaded.first q, hfinished.threaded.chain q⟩

/-- On a path of three qubits, a gate on the outer two leaves threads of operations that follow each
other. -/
theorem run_threads_qubits_outerPair :
    ∃ k c, Program.outerPair.lower = .ok k ∧
      run .none ⟨.path none, {}⟩ ⟨k, .empty⟩ = .ok () c ∧
      (∀ x ∈ c.kernel.entry, ∃ o, c.kernel.op? x = some o ∧ o.physical.Nodup) ∧
      ∀ q, (c.kernel.thread c.kernel.entry q).IsChain (c.kernel.Follows q) := by
  obtain ⟨k, c, hk, hrun⟩ := exists_run_outerPair
  obtain ⟨hoperations, -, hthreads⟩ := run_threads_qubits hk hrun
  refine ⟨k, c, hk, hrun, fun x hx => ?_, fun q => (hthreads q).2⟩
  obtain ⟨o, ho, hnodup, -⟩ := hoperations x hx
  exact ⟨o, ho, hnodup⟩

end Mapping

end QubitMapper
