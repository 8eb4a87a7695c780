import QubitMapper.Proofs.Mapping.Correctness
import QubitMapper.Proofs.Registers

/-!
# What a mapped program measures

Measurements wait until nothing else is left to do, and are then made as they become ready. Each of
them reads what it reads in the program. A register that several of them name holds what it holds
after the program if its last measurement depends on the others; otherwise the order of emission
decides.

## Main results

* `Mapping.run_preserves_readings`: what is measured, and what registers hold at the end.
* `Mapping.run_reorders_readings`: two measurements of one register that change places.
-/

namespace QubitMapper

universe u

namespace Mapping

variable {p : Program} {k : Kernel} {files : FileReader} {target : Target} {props : Properties}
  {c : Compilation} {d : Device} {done : List Nat} {π : Nat → Nat} {trace : List Instruction}
  {stats : RoutingStats} {placement : Placement}

/-- The mapped program reads what each measurement of the program reads. -/
theorem Mapped.readings_eq (h : Mapped p d c done π trace stats placement) {α : Type u}
    (I : Interpretation α) (cells : Nat → α) :
    readings I trace cells = done.filterMap (p.readingAt I cells) :=
  h.history.readings_eq h.valid h.le (fun _ _ _ _ heq => heq) I fun _ _ => rfl

theorem Mapped.readings_perm (h : Mapped p d c done π trace stats placement) {α : Type u}
    (I : Interpretation α) (cells : Nat → α) :
    (readings I trace cells).Perm (readings I p.instructions cells) := by
  rw [h.readings_eq, p.readings_eq]
  exact (h.history.perm_range h.all).filterMap _

/-- Mapping preserves what is measured. Whatever the kinds of operations do to the contents of their
operands' cells, the measurements of the mapped program read the same contents into the same
registers as those of the program, though not always in the same order. A register holds the same
contents at the end if a chain of shared qubits leads from every other measurement into it to the
last one in the program, so in particular if it is measured into once. -/
theorem run_preserves_readings (hk : p.lower = .ok k)
    (hrun : run files target ⟨k, props⟩ = .ok () c) :
    ∃ q, c.kernel.physicalProgram = .ok q ∧
      ∀ (α : Type u) (I : Interpretation α) (cells physical : Nat → α),
        (∀ v < p.numQubits, physical v = cells v) →
          (readings I q.instructions physical).Perm (readings I p.instructions cells) ∧
          ∀ registers register, p.Settles register →
            store registers (readings I q.instructions physical) register =
              store registers (readings I p.instructions cells) register := by
  obtain ⟨d, done, π, trace, stats, placement, hmapped⟩ := mapped_of_run_eq_ok hk hrun
  obtain ⟨q, hq, rfl⟩ := hmapped.physicalProgram
  refine ⟨q, hq, fun α I cells physical h₀ => ?_⟩
  have hcongr : readings I p.instructions physical = readings I p.instructions cells :=
    readings_congr (fun ins hins => (hmapped.valid ins hins).lt) h₀
  refine ⟨hcongr ▸ hmapped.readings_perm I physical, fun registers register hsettles => ?_⟩
  rw [hmapped.readings_eq, hmapped.history.store_eq hmapped.all hsettles, hcongr]

/-! ## Examples -/

/-- The register that is measured into once holds what it holds after the program. -/
theorem run_preserves_readings_outerPair :
    ∃ k c q, Program.outerPair.lower = .ok k ∧
      run .none ⟨.path none, {}⟩ ⟨k, .empty⟩ = .ok () c ∧ c.kernel.physicalProgram = .ok q ∧
      ∀ (I : Interpretation Nat) (cells : Nat → Nat) (registers : String → List Nat),
        store registers (readings I q.instructions cells) "c" =
          store registers (readings I Program.outerPair.instructions cells) "c" := by
  obtain ⟨k, c, hk, hrun⟩ := exists_run_outerPair
  obtain ⟨q, hq, hreadings⟩ := run_preserves_readings hk hrun
  have honce : ∀ i, Program.outerPair.MeasuresInto "c" i → i = 1 := by
    rintro i ⟨ins, hi, hkind⟩
    match i with
    | 0 =>
        cases hi
        cases hkind
    | 1 => rfl
  have hsettles : Program.outerPair.Settles "c" := by
    intro i j hi hj _ hlt
    rw [honce i hi, honce j hj] at hlt
    exact absurd hlt (Nat.lt_irrefl 1)
  exact ⟨k, c, q, hk, hrun, hq, fun I cells registers =>
    (hreadings Nat I cells cells fun _ _ => rfl).2 registers "c" hsettles⟩

/-- Two measurements into one register, the first one of a qubit that a gate acts on before. -/
def shared : Program where
  name := "shared"
  numQubits := 2
  instructions := [⟨.gate "h" [], [0]⟩, ⟨.measure (some "r"), [0]⟩, ⟨.measure (some "r"), [1]⟩]

/-- The measurement that waits for the gate comes last, and its register holds what it read. -/
theorem run_reorders_readings :
    ∃ k c q, shared.lower = .ok k ∧ run .none ⟨.path none, {}⟩ ⟨k, .empty⟩ = .ok () c ∧
      c.kernel.physicalProgram = .ok q ∧
      ∃ (I : Interpretation Nat) (cells : Nat → Nat) (registers : String → List Nat),
        store registers (readings I q.instructions cells) "r" ≠
          store registers (readings I shared.instructions cells) "r" := by
  have hcomputed : (do
      let k ← shared.lower.toOption
      let out ← ended? (run .none ⟨.path none, {}⟩ ⟨k, .empty⟩)
      let q ← out.2.kernel.physicalProgram.toOption
      return store (fun _ => []) (readings (fun _ contents => contents) q.instructions
        fun v => v) "r") = some [0] := by
    decide +kernel
  simp only [bind, pure, Option.bind_eq_some_iff, Except.toOption_eq_some, ended?_eq_some,
    Option.some.injEq] at hcomputed
  obtain ⟨k, hk, out, hrun, q, hq, hstore⟩ := hcomputed
  refine ⟨k, out.2, q, hk, hrun, hq, fun _ contents => contents, fun v => v, fun _ => [], ?_⟩
  rw [hstore]
  decide

end Mapping

end QubitMapper
