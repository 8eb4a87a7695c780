import Mathlib.Data.List.Perm.Basic
import Mathlib.Logic.Equiv.Basic
import QubitMapper.Proofs.Device.Metric
import QubitMapper.Proofs.Lowering
import QubitMapper.Proofs.Meaning

/-!
# Histories of a run

Seen from outside, a routing run retires the instructions of a program in some order and swaps
neighbors in between. A `History` records the positions of the instructions retired so far, where
each virtual qubit is, the physical instructions emitted, and the number of swaps. An instruction is
retired after all earlier ones that it shares a qubit with, and only on adjacent qubits if it needs
them.

## Main results

* `History.simulates`: the physical instructions do to the places of the virtual qubits what the
  retired instructions do in program order.
* `History.shapes`: the physical instructions are the retired ones and the swaps.
* `History.trace_valid`: the physical instructions are valid on the qubits of the device.
* `History.adjacent`: what needs adjacent qubits has them.
* `History.joined`: a virtual qubit stays in its part of the device.
-/

namespace QubitMapper

/-- Whether the two qubits of an instruction have to be adjacent. -/
def Instruction.isConstrained (ins : Instruction) : Bool :=
  ins.kind.isSupported && !ins.kind.isMeasure

/-- What an instruction does and to how many qubits. -/
def Instruction.shape (ins : Instruction) : OpKind × Nat := (ins.kind, ins.qubits.length)

/-- An instruction shares no qubit with any earlier one but those done. -/
def Program.Awaits (p : Program) (done : List Nat) (i : Nat) (ins : Instruction) : Prop :=
  ∀ j < i, ∀ earlier, p.instructions[j]? = some earlier → j ∉ done →
    ∀ q ∈ ins.qubits, q ∉ earlier.qubits

/-- What a run that started with the virtual qubits at `π₀` may have done. -/
inductive History (d : Device) (p : Program) (π₀ : Nat → Nat) :
    List Nat → (Nat → Nat) → List Instruction → Nat → Prop where
  | start : History d p π₀ [] π₀ [] 0
  | retire {done : List Nat} {π : Nat → Nat} {trace : List Instruction} {swaps : Nat}
      (h : History d p π₀ done π trace swaps) {i : Nat} {ins : Instruction}
      (hi : p.instructions[i]? = some ins) (hnew : i ∉ done) (hearlier : p.Awaits done i ins)
      (hadjacent : ins.isConstrained = true → ∀ a b, ins.qubits.map π = [a, b] →
        d.isAdjacent a b = true) :
      History d p π₀ (done ++ [i]) π (trace ++ [⟨ins.kind, ins.qubits.map π⟩]) swaps
  | swap {done : List Nat} {π : Nat → Nat} {trace : List Instruction} {swaps : Nat}
      (h : History d p π₀ done π trace swaps) {a b : Nat} (hadjacent : d.isAdjacent a b = true) :
      History d p π₀ done (fun v => Equiv.swap a b (π v)) (trace ++ [⟨.swap, [a, b]⟩]) (swaps + 1)

namespace History

variable {d : Device} {p : Program} {π₀ π : Nat → Nat} {done : List Nat}
  {trace : List Instruction} {swaps : Nat}

/-! ## What is done -/

theorem nodup (h : History d p π₀ done π trace swaps) : done.Nodup := by
  induction h with
  | start => exact List.nodup_nil
  | retire _ _ hnew _ _ ih =>
      rw [List.nodup_append]
      refine ⟨ih, List.nodup_singleton _, ?_⟩
      rintro j hj _ hi rfl
      rw [List.mem_singleton] at hi
      exact hnew (hi ▸ hj)
  | swap _ _ ih => exact ih

theorem lt_length (h : History d p π₀ done π trace swaps) :
    ∀ i ∈ done, i < p.instructions.length := by
  induction h with
  | start => simp
  | retire _ hi _ _ _ ih =>
      intro j hj
      rcases List.mem_append.mp hj with hj | hj
      · exact ih j hj
      · rw [List.mem_singleton.mp hj]
        exact (List.getElem?_eq_some_iff.mp hi).1
  | swap _ _ ih => exact ih

theorem length_le (h : History d p π₀ done π trace swaps) :
    done.length ≤ p.instructions.length := by
  have := (List.subperm_of_subset h.nodup fun i hi => List.mem_range.mpr (h.lt_length i hi))
  simpa using this.length_le

/-- What is done waited for everything before it on its qubits. -/
theorem closed (h : History d p π₀ done π trace swaps) :
    ∀ j ∈ done, ∀ later, p.instructions[j]? = some later →
      ∀ i < j, ∀ ins, p.instructions[i]? = some ins → i ∉ done →
        ∀ q ∈ ins.qubits, q ∉ later.qubits := by
  induction h with
  | start => simp
  | retire _ hi _ hearlier _ ih =>
      intro j hj later hlater k hkj other hk hnot q hq hmem
      have hnot' := fun hm => hnot (List.mem_append_left _ hm)
      rcases List.mem_append.mp hj with hj | hj
      · exact ih j hj later hlater k hkj other hk hnot' q hq hmem
      · rw [List.mem_singleton] at hj
        subst hj
        cases hi.symm.trans hlater
        exact hearlier k hkj other hk hnot' q hmem hq
  | swap _ _ ih => exact ih

/-- Once everything is done, it was done in some order. -/
theorem perm_range (h : History d p π₀ done π trace swaps)
    (hall : ∀ i < p.instructions.length, i ∈ done) :
    done.Perm (List.range p.instructions.length) := by
  apply (List.perm_ext_iff_of_nodup h.nodup List.nodup_range).mpr
  intro i
  rw [List.mem_range]
  exact ⟨h.lt_length i, hall i⟩

theorem perm (h : History d p π₀ done π trace swaps)
    (hall : ∀ i < p.instructions.length, i ∈ done) :
    (done.filterMap (p.instructions[·]?)).Perm p.instructions := by
  have hrange : (List.range p.instructions.length).filterMap (p.instructions[·]?) =
      p.instructions := by
    have hmap : (List.range p.instructions.length).map (p.instructions[·]?) =
        p.instructions.map some := by
      refine List.ext_getElem? fun i => ?_
      by_cases hi : i < p.instructions.length
      · simp [hi]
      · simp [hi]
    have hid := List.filterMap_map (f := (p.instructions[·]?)) (g := id)
      (l := List.range p.instructions.length)
    rw [hmap, List.filterMap_map] at hid
    simpa using hid.symm
  exact ((h.perm_range hall).filterMap _).trans (List.Perm.of_eq hrange)

/-- The physical instructions are the retired ones and the swaps, up to order and renaming. -/
theorem shapes (h : History d p π₀ done π trace swaps) :
    (trace.map (·.shape)).Perm ((done.filterMap (p.instructions[·]?)).map (·.shape) ++
      List.replicate swaps (.swap, 2)) := by
  induction h with
  | start => simp
  | @retire _ _ _ _ _ _ ins hi _ _ _ ih =>
      have hshape : ∀ π : Nat → Nat,
          Instruction.shape ⟨ins.kind, ins.qubits.map π⟩ = ins.shape := by
        simp [Instruction.shape]
      rw [List.map_append, List.filterMap_append, List.map_append]
      simp only [List.map_cons, List.map_nil, List.filterMap_cons, List.filterMap_nil, hi, hshape]
      refine (ih.append_right [ins.shape]).trans ?_
      rw [List.append_assoc, List.append_assoc]
      exact List.Perm.append_left _ List.perm_append_comm
  | swap _ _ ih =>
      rw [List.map_append, List.replicate_succ', ← List.append_assoc]
      exact ih.append_right _

/-! ## Where the qubits are -/

theorem lt (h : History d p π₀ done π trace swaps)
    (h₀ : ∀ v < d.numQubits, π₀ v < d.numQubits) : ∀ v < d.numQubits, π v < d.numQubits := by
  induction h with
  | start => exact h₀
  | retire _ _ _ _ _ ih => exact ih
  | @swap _ π _ _ _ a b hadjacent ih =>
      intro v hv
      obtain ⟨ha, hb⟩ := d.isAdjacent_lt hadjacent
      show Equiv.swap a b (π v) < d.numQubits
      rw [Equiv.swap_apply_def]
      split
      · exact hb
      · split
        · exact ha
        · exact ih v hv

theorem inj (h : History d p π₀ done π trace swaps) {n : Nat}
    (h₀ : ∀ u < n, ∀ v < n, π₀ u = π₀ v → u = v) : ∀ u < n, ∀ v < n, π u = π v → u = v := by
  induction h with
  | start => exact h₀
  | retire _ _ _ _ _ ih => exact ih
  | swap _ _ ih =>
      intro u hu v hv heq
      exact ih u hu v hv ((Equiv.swap _ _).injective heq)

/-- Swaps never take a virtual qubit out of its part of the device. -/
theorem joined (h : History d p π₀ done π trace swaps) (v : Nat) : d.Joined (π₀ v) (π v) := by
  induction h with
  | start => exact .refl d _
  | retire _ _ _ _ _ ih => exact ih
  | @swap _ π _ _ _ a b hadjacent ih =>
      show d.Joined (π₀ v) (Equiv.swap a b (π v))
      rw [Equiv.swap_apply_def]
      split
      · rename_i heq
        exact (heq ▸ ih).step hadjacent
      · split
        · rename_i heq
          exact (heq ▸ ih).step (by rwa [d.isAdjacent_comm])
        · exact ih

/-- What needs adjacent qubits and is done started on qubits in one part of the device. -/
theorem joined_of_done (h : History d p π₀ done π trace swaps) :
    ∀ i ∈ done, ∀ ins, p.instructions[i]? = some ins → ins.isConstrained = true →
      ∀ u v, ins.qubits = [u, v] → d.Joined (π₀ u) (π₀ v) := by
  induction h with
  | start => simp
  | retire h hi _ _ hadjacent ih =>
      intro j hj other hother hconstrained u v huv
      rcases List.mem_append.mp hj with hj | hj
      · exact ih j hj other hother hconstrained u v huv
      · rw [List.mem_singleton] at hj
        subst hj
        cases hi.symm.trans hother
        have := hadjacent hconstrained _ _ (by rw [huv, List.map_cons, List.map_cons, List.map_nil])
        exact ((h.joined u).step this).trans (h.joined v).symm
  | swap _ _ ih => exact ih

/-- Physical instructions are valid on the qubits of the device. -/
theorem trace_valid (h : History d p π₀ done π trace swaps) (hvalid : p.Valid)
    (hle : p.numQubits ≤ d.numQubits) (hlt : ∀ v < d.numQubits, π₀ v < d.numQubits)
    (hinj : ∀ u < d.numQubits, ∀ v < d.numQubits, π₀ u = π₀ v → u = v) :
    ∀ ins ∈ trace, ins.Valid d.numQubits := by
  induction h with
  | start => simp
  | @retire _ π _ _ h i ins hi _ _ _ ih =>
      intro other hother
      rcases List.mem_append.mp hother with hother | hother
      · exact ih other hother
      · rw [List.mem_singleton.mp hother]
        have hins := hvalid ins (List.mem_of_getElem? hi)
        have hqubits : ∀ v ∈ ins.qubits, v < d.numQubits := fun v hv =>
          Nat.lt_of_lt_of_le (hins.lt v hv) hle
        refine ⟨hins.alloc, by simpa using hins.arity, ?_, fun a ha => ?_⟩
        · exact hins.nodup.map_on fun u hu v hv heq =>
            h.inj hinj u (hqubits u hu) v (hqubits v hv) heq
        · obtain ⟨v, hv, rfl⟩ := List.mem_map.mp ha
          exact h.lt hlt v (hqubits v hv)
  | @swap _ _ _ _ _ a b hadjacent ih =>
      intro other hother
      rcases List.mem_append.mp hother with hother | hother
      · exact ih other hother
      · rw [List.mem_singleton.mp hother]
        obtain ⟨ha, hb⟩ := d.isAdjacent_lt hadjacent
        exact ⟨rfl, by rintro m ⟨⟩; rfl, by simp [d.isAdjacent_ne hadjacent], by simp [ha, hb]⟩

/-- What needs adjacent qubits has them. -/
theorem adjacent (h : History d p π₀ done π trace swaps) :
    ∀ ins ∈ trace, ins.isConstrained = true → ∀ a b, ins.qubits = [a, b] →
      d.isAdjacent a b = true := by
  induction h with
  | start => simp
  | retire _ _ _ _ hadjacent ih =>
      intro ins hins
      rcases List.mem_append.mp hins with hins | hins
      · exact ih ins hins
      · rw [List.mem_singleton.mp hins]
        exact hadjacent
  | swap _ hadjacent ih =>
      intro ins hins
      rcases List.mem_append.mp hins with hins | hins
      · exact ih ins hins
      · rw [List.mem_singleton.mp hins]
        intro _ a b hab
        cases hab
        exact hadjacent

/-! ## What it means -/

/-- The physical instructions do to the places of the virtual qubits what the retired instructions
do, in program order, to the virtual qubits. -/
theorem simulates {α : Type*} (h : History d p π₀ done π trace swaps) (hvalid : p.Valid)
    (hle : p.numQubits ≤ d.numQubits)
    (hinj : ∀ u < d.numQubits, ∀ v < d.numQubits, π₀ u = π₀ v → u = v) (I : Interpretation α)
    {cells cells' : Nat → α} (h₀ : ∀ v < d.numQubits, cells' (π₀ v) = cells v) :
    ∀ v < d.numQubits,
      runAll I trace cells' (π v) = runDone I done 0 p.instructions cells v := by
  induction h with
  | start =>
      rw [runDone_nil]
      exact h₀
  | @retire done π trace swaps h i ins hi hnew hearlier _ ih =>
      intro v hv
      have hqubits : ∀ q ∈ ins.qubits, q < d.numQubits :=
        fun q hq => Nat.lt_of_lt_of_le ((hvalid ins (List.mem_of_getElem? hi)).lt q hq) hle
      -- what was done before and stands behind the instruction shares no qubit with it
      have hdone : runDone I (done ++ [0 + i]) 0 p.instructions cells =
          ins.run I (runDone I done 0 p.instructions cells) := by
        apply runDone_append hi (by simpa using hnew)
        intro j other hij hj hmem q hq
        exact h.closed j (by simpa using hmem) other hj i hij ins hi hnew q hq
      rw [Nat.zero_add] at hdone
      rw [hdone, runAll, List.foldl_append]
      have hmap : (ins.qubits.map π).map (runAll I trace cells') =
          ins.qubits.map (runDone I done 0 p.instructions cells) := by
        rw [List.map_map]
        exact List.map_congr_left fun q hq => ih q (hqubits q hq)
      show write (runAll I trace cells') (ins.qubits.map π)
        (I.act ins.kind ((ins.qubits.map π).map (runAll I trace cells'))) (π v) = _
      rw [hmap]
      exact write_map (h.inj hinj) hqubits ih hv
  | @swap done π trace swaps h a b hadjacent ih =>
      intro v hv
      rw [← ih v hv, runAll, List.foldl_append]
      show write (runAll I trace cells') [a, b] [runAll I trace cells' b, runAll I trace cells' a]
        (Equiv.swap a b (π v)) = runAll I trace cells' (π v)
      have hne := d.isAdjacent_ne hadjacent
      rw [Equiv.swap_apply_def]
      split
      · rename_i heq
        simp [write, heq]
      · split
        · rename_i heq
          simp [write, heq, hne]
        · rename_i ha hb
          simp [write, ha, hb]

end History

end QubitMapper
