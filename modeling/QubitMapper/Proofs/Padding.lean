import QubitMapper.Pass.Mapping
import QubitMapper.Proofs.Labelling

/-!
# Padded kernels

Routing starts from the kernel of a program with fresh qubits added until there are as many virtual
qubits as physical ones. `Padded` lists what is known of such a kernel; the proofs about routing use
nothing else of it.

## Main results

* `Mapping.padding_spec`: padding the kernel of a program succeeds and gives a padded kernel.
-/

namespace QubitMapper

/-- The allocation of a virtual qubit: those of the program come first, fresh ones stand behind its
instructions. -/
def Program.sourceOp (p : Program) (v : Nat) : Nat :=
  if v < p.numQubits then v else v + p.instructions.length

/-- The kernel of a program padded to `n` virtual qubits, with the qubit of each wire. -/
structure Padded (p : Program) (n : Nat) (k : Kernel) (labels : Labels) : Prop where
  valid : p.Valid
  le : p.numQubits ≤ n
  consistent : k.Consistent
  made : k.Made
  single : ∀ w wire, k.wire? w = some wire → wire.users.length ≤ 1
  blocks : ∃ entry, k.blocks = [entry] ∧ p.numQubits ≤ entry.length ∧ ∀ x ∈ entry, x < k.ops.size
  ops : k.ops.size = n + p.instructions.length
  source : ∀ v < n, ∃ w, labels[w]? = some v ∧
    k.op? (p.sourceOp v) = some { kind := .alloc, operands := [], results := [w] }
  instruction : ∀ i ins, p.instructions[i]? = some ins → ∃ o,
    k.op? (p.numQubits + i) = some o ∧
      Encodes p.numQubits (p.instructions.take i) (labels[·]?) k ins o
  known : ∀ w q : Nat, labels[w]? = some q → w < k.wires.size

section Sources

variable {p : Program} {v x : Nat}

theorem Program.sourceOp_inj {u : Nat} (h : p.sourceOp v = p.sourceOp u) : v = u := by
  unfold sourceOp at h
  split at h <;> split at h <;> omega

/-- No allocation is an instruction. -/
theorem Program.sourceOp_ne {i : Nat} (hi : i < p.instructions.length) :
    p.sourceOp v ≠ p.numQubits + i := by
  unfold sourceOp
  split <;> omega

/-- Every operation of a padded kernel is an allocation or an instruction. -/
theorem Program.sourceOp_or_instruction {n : Nat} (hle : p.numQubits ≤ n)
    (hx : x < n + p.instructions.length) :
    (∃ v < n, x = p.sourceOp v) ∨ ∃ i < p.instructions.length, x = p.numQubits + i := by
  by_cases h : x < p.numQubits
  · exact .inl ⟨x, by omega, by rw [sourceOp, if_pos h]⟩
  · by_cases h' : x < p.numQubits + p.instructions.length
    · exact .inr ⟨x - p.numQubits, by omega, by omega⟩
    · refine .inl ⟨x - p.instructions.length, by omega, ?_⟩
      rw [sourceOp, if_neg (by omega)]
      omega

end Sources

/-- A lowered kernel with its labels is padded to the qubits of its program. -/
theorem Lowered.padded {p : Program} {tags : List Nat} {k : Kernel} {labels : Labels}
    (h : Lowered p.numQubits p.instructions tags k) (hlabels : ∀ w : Nat, labels[w]? = tags[w]?) :
    Padded p p.numQubits k labels where
  valid := h.valid
  le := Nat.le_refl _
  consistent := h.consistent
  made := h.made
  single := h.single
  blocks := ⟨_, h.blocks, by simp, by simp [h.ops]⟩
  ops := h.ops
  source := by
    intro v hv
    obtain ⟨hop, htag⟩ := h.source v hv
    exact ⟨v, by rw [hlabels, htag], by rw [Program.sourceOp, if_pos hv, hop]⟩
  instruction := by
    intro i ins hi
    obtain ⟨o, ho, hencodes⟩ := h.instruction i ins hi
    refine ⟨o, ho, hencodes.mono (fun w q hw => ?_) fun w wire hw => ⟨wire, hw, rfl⟩⟩
    rw [hlabels, hw]
  known := by
    intro w q hw
    rw [hlabels] at hw
    exact h.wires ▸ (List.getElem?_eq_some_iff.mp hw).1

/-- A fresh qubit keeps a kernel padded. -/
theorem Padded.addOp {p : Program} {n : Nat} {k : Kernel} {labels : Labels}
    (h : Padded p n k labels) {entry : List Nat} (hentry : k.blocks = [entry]) {position : Nat}
    (hposition : position ≤ entry.length) :
    Padded p (n + 1) ((k.addOp .alloc []).1.setBlock 0 (entry.insertIdx position k.ops.size))
      (labels.insert k.wires.size n) := by
  have hold : ∀ w wire, k.wire? w = some wire → ∃ wire',
      ((k.addOp .alloc []).1.setBlock 0 (entry.insertIdx position k.ops.size)).wire? w =
        some wire' ∧ wire'.producer = wire.producer := by
    intro w wire hw
    rw [Kernel.wire?_setBlock]
    exact Kernel.wire?_addOp_of_eq_some (by simp) hw
  have hlabels : ∀ w q : Nat, labels[w]? = some q →
      (labels.insert k.wires.size n)[w]? = some q := by
    intro w q hw
    rw [Labels.getElem?_insert, if_neg (Nat.ne_of_gt (h.known w q hw)), hw]
  refine
    { valid := h.valid
      le := Nat.le_succ_of_le h.le
      consistent := (h.consistent.addOp (by simp)).setBlock 0 _
      made := h.made.addOp (by simp)
      single := Kernel.single_addOp ⟨List.nodup_nil, by simp⟩ h.single
      blocks := ?_
      ops := by
        show (k.addOp .alloc []).1.ops.size = _
        rw [Kernel.size_ops_addOp, h.ops]
        omega
      source := ?_
      instruction := ?_
      known := ?_ }
  · obtain ⟨entry', hentry', hlen, hlt⟩ := h.blocks
    obtain rfl : entry = entry' := by simpa using hentry.symm.trans hentry'
    refine ⟨entry.insertIdx position k.ops.size, by simp [Kernel.setBlock, hentry], ?_, ?_⟩
    · rw [List.length_insertIdx_of_le_length hposition]
      omega
    · intro x hx
      show x < (k.addOp .alloc []).1.ops.size
      rw [Kernel.size_ops_addOp]
      rcases (List.mem_insertIdx hposition).mp hx with rfl | hx
      · exact Nat.lt_succ_self _
      · exact Nat.lt_succ_of_lt (hlt x hx)
  · intro v hv
    by_cases hvn : v = n
    · subst hvn
      refine ⟨k.wires.size, by rw [Labels.getElem?_insert, if_pos rfl], ?_⟩
      have hsource : p.sourceOp v = k.ops.size := by
        rw [Program.sourceOp, if_neg (Nat.not_lt.mpr h.le), h.ops]
      rw [hsource, Kernel.op?_setBlock, Kernel.op?_addOp, if_pos rfl]
      rfl
    · obtain ⟨w, hw, ho⟩ := h.source v (by omega)
      exact ⟨w, hlabels w v hw, Kernel.op?_addOp_of_eq_some ho⟩
  · intro i ins hi
    obtain ⟨o, ho, hencodes⟩ := h.instruction i ins hi
    exact ⟨o, Kernel.op?_addOp_of_eq_some ho, hencodes.mono hlabels hold⟩
  · intro w q hw
    show w < (k.addOp .alloc []).1.wires.size
    rw [Kernel.size_wires_addOp]
    rcases Labels.insert_eq_some hw with hw | ⟨rfl, -⟩
    · exact Nat.lt_add_right _ (h.known w q hw)
    · exact Nat.lt_add_of_pos_right (by simp [OpKind.resultCount])

/-- Instructions act on virtual qubits. -/
theorem Padded.qubits_lt {p : Program} {n : Nat} {k : Kernel} {labels : Labels}
    (h : Padded p n k labels) {i : Nat} {ins : Instruction} (hi : p.instructions[i]? = some ins) :
    ∀ v ∈ ins.qubits, v < n := by
  intro v hv
  exact Nat.lt_of_lt_of_le ((h.valid ins (List.mem_of_getElem? hi)).lt v hv) h.le

/-! ## Inserting the fresh qubits -/

theorem Compile.liftCircuit_ok {α : Type} (a : α) :
    (Compile.liftCircuit (.ok a) : Compile α) = pure a := rfl

@[simp] theorem Compile.returns_setKernel {k : Kernel} {c : Compilation}
    {post : Unit → Compilation → Prop} :
    Returns (Compile.setKernel k) c post ↔ post () { c with kernel := k } := Iff.rfl

theorem Compile.lift_ok {α : Type} (a : α) : (Compile.lift (.ok a) : Compile α) = pure a := rfl

namespace Mapping

private theorem insert_alloc {k : Kernel} {entry : List Nat} (hentry : k.blocks = [entry])
    {position : Nat} (hposition : position ≤ entry.length) :
    k.insert 0 position .alloc [] =
      .ok ((k.addOp .alloc []).1.setBlock 0 (entry.insertIdx position k.ops.size), k.ops.size,
        [k.wires.size]) := by
  have hcreate : k.create .alloc [] true = .ok (k.addOp .alloc []) :=
    Kernel.create_eq_ok_iff.mpr ⟨by rintro m ⟨⟩; rfl, ⟨List.nodup_nil, by simp⟩, rfl⟩
  have hblock : k.block 0 = .ok entry := by
    simp [Kernel.block, Kernel.block?, hentry]
  unfold Kernel.insert
  rw [hblock]
  simp only [bind, Except.bind, if_neg (Nat.not_lt.mpr hposition), hcreate]
  rfl

/-- As many fresh qubits are added as are asked for, labelled and listed in order. -/
theorem insertAncillas_spec {p : Program} (count : Nat) :
    ∀ {n position : Nat} {l : Labelling} {c : Compilation} {entry : List Nat},
      Padded p n c.kernel l.labels → c.kernel.blocks = [entry] → position ≤ entry.length →
      l.sources.toList = (List.range n).map p.sourceOp →
      Returns (insertAncillas l position count) c fun l' c' =>
        Padded p (n + count) c'.kernel l'.labels ∧
          l'.sources.toList = (List.range (n + count)).map p.sourceOp ∧
          c'.properties = c.properties := by
  induction count with
  | zero =>
      intro n position l c entry h _ _ hsources
      exact ⟨h, hsources, rfl⟩
  | succ count ih =>
      intro n position l c entry h hentry hposition hsources
      have hsize : l.sources.size = n := by
        rw [← Array.length_toList, hsources, List.length_map, List.length_range]
      have hsource : p.sourceOp n = c.kernel.ops.size := by
        rw [Program.sourceOp, if_neg (Nat.not_lt.mpr h.le), h.ops]
      have hpadded := h.addOp hentry hposition
      unfold insertAncillas
      rw [returns_get_bind, insert_alloc hentry hposition, Compile.liftCircuit_ok, pure_bind]
      simp only [hsize]
      rw [returns_bind, Compile.returns_setKernel]
      have hblocks : ((c.kernel.addOp .alloc []).1.setBlock 0
          (entry.insertIdx position c.kernel.ops.size)).blocks =
          [entry.insertIdx position c.kernel.ops.size] := by simp [Kernel.setBlock, hentry]
      refine (ih hpadded hblocks ?_ ?_).mono fun l' c' h' => ?_
      · rw [List.length_insertIdx_of_le_length hposition]
        omega
      · simp [hsources, List.range_succ, hsource]
      · rw [Nat.add_right_comm] at h'
        exact h'

/-- The kernel of a program, labelled and filled up to `n` qubits. -/
theorem padding_spec {p : Program} {k : Kernel} {l : Labelling} {n : Nat} (props : Properties)
    (hk : p.lower = .ok k) (hl : Labelling.ofKernel k = .ok l) (hn : l.sources.size ≤ n) :
    l.sources.size = p.numQubits ∧ (∀ ins ∈ p.instructions, ins.Mappable) ∧
      Returns (insertAncillas l (ancillaPosition k) (n - l.sources.size)) ⟨k, props⟩ fun l' c =>
        Padded p n c.kernel l'.labels ∧ l'.sources.toList = (List.range n).map p.sourceOp ∧
          c.properties = props := by
  obtain ⟨tags, hlowered⟩ := Program.lower_spec hk
  obtain ⟨hsources, hlabels⟩ := Labelling.ofKernel_spec hlowered hl
  have hsize : l.sources.size = p.numQubits := by simp [hsources]
  refine ⟨hsize, (Labelling.ofKernel_isOk_iff hlowered).mp ⟨l, hl⟩, ?_⟩
  have hentry : k.entry = List.range (p.numQubits + p.instructions.length) := by
    rw [Kernel.entry, hlowered.blocks]
    rfl
  have hposition :
      ancillaPosition k ≤ (List.range (p.numQubits + p.instructions.length)).length := by
    unfold ancillaPosition
    rw [hentry]
    exact Nat.sub_le _ _
  have hlist : l.sources.toList = (List.range p.numQubits).map p.sourceOp := by
    rw [hsources, Array.toList_range]
    refine (List.map_id _).symm.trans (List.map_congr_left fun v hv => ?_)
    rw [Program.sourceOp, if_pos (List.mem_range.mp hv)]
    rfl
  refine (insertAncillas_spec _ (hlowered.padded hlabels) hlowered.blocks hposition hlist).mono
    fun l' c hpadded => ?_
  rwa [hsize, Nat.add_sub_cancel' (hsize ▸ hn)] at hpadded

end Mapping

end QubitMapper
