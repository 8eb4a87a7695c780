import QubitMapper.Circuit.Emission
import QubitMapper.Proofs.Kernel.Lookup
import QubitMapper.Proofs.Outcome

/-!
# Emitted programs

The physical program of a kernel lists what its operations stand for, in the order of the blocks.

## Main results

* `Kernel.physicalProgram_eq_ok`: a kernel whose operations have physical qubits is emitted.
* `Kernel.physicalProgram_lt`, `Kernel.physicalProgram_le`: an emitted program has enough qubits,
  and no more than it needs.
-/

namespace QubitMapper.Kernel

variable {k : Kernel}

/-- The physical instruction that an emitted operation stands for; none for an allocation. -/
def instruction? (k : Kernel) (x : Nat) : Option Instruction :=
  (k.op? x).bind fun o => if o.kind.isAlloc then none else some ⟨o.kind, o.physical⟩

/-- The physical instructions of emitted operations in order. -/
def trace (k : Kernel) (emitted : List Nat) : List Instruction :=
  emitted.filterMap k.instruction?

private theorem widen_eq_ok (count : Nat) {qubits : List Nat}
    (h : ∀ q ∈ qubits, q + 1 < Text.limit32) : ∃ m, widen count qubits = .ok m := by
  unfold widen
  cases hmax : qubits.max? with
  | none => exact ⟨count, rfl⟩
  | some greatest =>
      have hlt := h greatest (List.max?_mem hmax)
      exact ⟨max count (greatest + 1), by simp only [hlt, ↓reduceIte]⟩

private theorem emit_eq_ok (l : List Nat) : ∀ count : Nat,
    (∀ x ∈ l, ∃ o, k.op? x = some o ∧ o.physical ≠ []) →
    (∀ ins ∈ k.trace l, ∀ q ∈ ins.qubits, q + 1 < Text.limit32) →
    ∃ m, k.emit count l = .ok (m, k.trace l) := by
  induction l with
  | nil => exact fun count _ _ => ⟨count, rfl⟩
  | cons x rest ih =>
      intro count hmapped hlt
      obtain ⟨o, ho, hphysical⟩ := hmapped x List.mem_cons_self
      have hrest := fun y hy => hmapped y (List.mem_cons_of_mem _ hy)
      have htrace : k.trace (x :: rest) =
          if o.kind.isAlloc then k.trace rest else ⟨o.kind, o.physical⟩ :: k.trace rest := by
        rw [trace, List.filterMap_cons, instruction?, ho, Option.bind_some]
        split <;> simp_all [trace]
      unfold emit
      simp only [ho]
      rw [htrace] at hlt ⊢
      cases halloc : o.kind.isAlloc with
      | true =>
          simp only [halloc, ↓reduceIte] at hlt ⊢
          exact ih count hrest hlt
      | false =>
          simp only [halloc, Bool.false_eq_true, ↓reduceIte, List.forall_mem_cons] at hlt ⊢
          have hisMapped : o.isMapped = true := by simpa [Operation.isMapped] using hphysical
          obtain ⟨count', hwiden⟩ := widen_eq_ok count hlt.1
          obtain ⟨m, hemit⟩ := ih count' hrest hlt.2
          refine ⟨m, ?_⟩
          simp only [hisMapped, Bool.not_true, Bool.false_eq_true, ↓reduceIte, hwiden, hemit, bind,
            Except.bind]
          rfl

/-- A kernel of one block is emitted if all operations there have physical qubits that are numbers
of 32 bits. -/
theorem physicalProgram_eq_ok {order : List Nat} (hblocks : k.blocks = [order])
    (hmapped : ∀ x ∈ order, ∃ o, k.op? x = some o ∧ o.physical ≠ [])
    (hlt : ∀ ins ∈ k.trace order, ∀ q ∈ ins.qubits, q + 1 < Text.limit32)
    (hmapping : ∀ q ∈ k.mapping.getD [], q + 1 < Text.limit32) :
    ∃ q, k.physicalProgram = .ok q ∧ q.instructions = k.trace order := by
  obtain ⟨count, hwiden⟩ := widen_eq_ok 0 hmapping
  obtain ⟨m, hemit⟩ := emit_eq_ok order count hmapped hlt
  refine ⟨⟨k.name, m, k.trace order⟩, ?_, rfl⟩
  have hflat : k.blocks.flatten = order := by simp [hblocks]
  simp only [physicalProgram, hwiden, hflat, hemit, bind, Except.bind]
  rfl

/-! ## The number of qubits -/

private theorem widen_lt {count m : Nat} {qubits : List Nat} (h : widen count qubits = .ok m) :
    count ≤ m ∧ ∀ q ∈ qubits, q < m := by
  unfold widen at h
  split at h
  · rename_i hmax
    rw [List.max?_eq_none_iff] at hmax
    cases h
    simp [hmax]
  · rename_i greatest hmax
    split at h
    · cases h
      refine ⟨Nat.le_max_left .., fun q hq => ?_⟩
      have hle : q ≤ greatest := (List.max?_eq_some_iff.mp hmax).2 q hq
      omega
    · cases h

private theorem emit_lt (l : List Nat) : ∀ {count m : Nat} {instructions : List Instruction},
    k.emit count l = .ok (m, instructions) →
      count ≤ m ∧ ∀ ins ∈ instructions, ∀ q ∈ ins.qubits, q < m := by
  induction l with
  | nil =>
      intro count m instructions h
      cases h
      simp
  | cons x rest ih =>
      intro count m instructions h
      unfold emit at h
      split at h
      · exact ih h
      split at h
      · exact ih h
      split at h
      · cases h
      obtain ⟨count', hwiden, h⟩ := Except.bind_eq_ok.mp h
      obtain ⟨⟨m', instructions'⟩, hemit, h⟩ := Except.bind_eq_ok.mp h
      cases h
      obtain ⟨hcount, hqubits⟩ := widen_lt hwiden
      obtain ⟨hm, hall⟩ := ih hemit
      refine ⟨Nat.le_trans hcount hm, List.forall_mem_cons.mpr ⟨fun q hq => ?_, hall⟩⟩
      exact Nat.lt_of_lt_of_le (hqubits q hq) hm

private theorem widen_le {count m n : Nat} {qubits : List Nat} (h : widen count qubits = .ok m)
    (hcount : count ≤ n) (hqubits : ∀ q ∈ qubits, q < n) : m ≤ n := by
  unfold widen at h
  split at h
  · cases h
    exact hcount
  · rename_i greatest hmax
    split at h
    · cases h
      have := hqubits greatest (List.max?_mem hmax)
      omega
    · cases h

private theorem emit_le {n : Nat} (l : List Nat) :
    ∀ {count m : Nat} {instructions : List Instruction}, k.emit count l = .ok (m, instructions) →
      count ≤ n → (∀ ins ∈ instructions, ∀ q ∈ ins.qubits, q < n) → m ≤ n := by
  induction l with
  | nil =>
      intro count m instructions h hcount _
      cases h
      exact hcount
  | cons x rest ih =>
      intro count m instructions h hcount hall
      unfold emit at h
      split at h
      · exact ih h hcount hall
      split at h
      · exact ih h hcount hall
      split at h
      · cases h
      obtain ⟨count', hwiden, h⟩ := Except.bind_eq_ok.mp h
      obtain ⟨⟨m', instructions'⟩, hemit, h⟩ := Except.bind_eq_ok.mp h
      cases h
      rw [List.forall_mem_cons] at hall
      exact ih hemit (widen_le hwiden hcount hall.1) hall.2

/-- An emitted program has the qubits of the mapping. -/
theorem physicalProgram_mapping_lt {p : Program} (h : k.physicalProgram = .ok p) :
    ∀ q ∈ k.mapping.getD [], q < p.numQubits := by
  obtain ⟨count, hwiden, h⟩ := Except.bind_eq_ok.mp h
  obtain ⟨⟨m, instructions⟩, hemit, h⟩ := Except.bind_eq_ok.mp h
  cases h
  exact fun q hq => Nat.lt_of_lt_of_le ((widen_lt hwiden).2 q hq) (emit_lt _ hemit).1

/-- An emitted program has no more qubits than its mapping and its instructions need. -/
theorem physicalProgram_le {p : Program} {n : Nat} (h : k.physicalProgram = .ok p)
    (hmapping : ∀ q ∈ k.mapping.getD [], q < n)
    (hinstructions : ∀ ins ∈ p.instructions, ∀ q ∈ ins.qubits, q < n) : p.numQubits ≤ n := by
  obtain ⟨count, hwiden, h⟩ := Except.bind_eq_ok.mp h
  obtain ⟨⟨m, instructions⟩, hemit, h⟩ := Except.bind_eq_ok.mp h
  cases h
  exact emit_le _ hemit (widen_le hwiden (Nat.zero_le n) hmapping) hinstructions

/-- An emitted program has all the qubits that its instructions act on. -/
theorem physicalProgram_lt {p : Program} (h : k.physicalProgram = .ok p) :
    ∀ ins ∈ p.instructions, ∀ q ∈ ins.qubits, q < p.numQubits := by
  obtain ⟨count, -, h⟩ := Except.bind_eq_ok.mp h
  obtain ⟨⟨m, instructions⟩, hemit, h⟩ := Except.bind_eq_ok.mp h
  cases h
  exact (emit_lt _ hemit).2

end QubitMapper.Kernel
