import Mathlib.Data.List.Nodup
import Mathlib.Data.List.Pairwise
import QubitMapper.Proofs.Kernel.Calls
import QubitMapper.Proofs.Kernel.Verify

/-!
# Wires that are shared

Verification goes through operands to see that their producers are live, but for who consumes a wire
it asks the wire's list of users alone. So it rules sharing out where the users are recorded and no
operation takes a wire twice, as in every kernel that calls have made. A document may record fewer
users than there are, and then verification accepts wires that are shared.

## Main results

* `Kernel.consumed_nodup_iff`: when no wire is consumed twice, said operation by operation.
* `Kernel.verify_guards`: what verification says of any kernel at all.
-/

namespace QubitMapper.Kernel

variable {k : Kernel}

/-! ## Coherent kernels -/

/-- Coherent kernels have most of what verification asks for. -/
theorem Coherent.valueSemantics (hk : k.Coherent)
    (hoperand : ∀ x o, k.op? x = some o → ∀ w ∈ o.operands,
      ∃ wire, k.wire? w = some wire ∧ (k.op? wire.producer).isSome)
    (hsingle : ∀ w wire, k.wire? w = some wire → wire.users.length ≤ 1) : k.ValueSemantics where
  operand := hoperand
  result _ _ hx _ hw := hk.producer_of_mem hx hw
  single := hsingle
  live := hk.live
  placed := hk.placed

/-! ## Wires consumed -/

/-- The wires that live operations consume, each as often as it is an operand. -/
def consumed (k : Kernel) : List Nat := k.liveOps.flatMap (·.2.operands)

/-- Every operation is among the users of the wires that it consumes. -/
def Recorded (k : Kernel) : Prop :=
  ∀ x, ∀ w ∈ k.operandsOf x, ∀ wire, k.wire? w = some wire → x ∈ wire.users

/-- Coherent kernels record their users. -/
theorem Coherent.recorded (hk : k.Coherent) : k.Recorded :=
  fun _ _ hw _ hwire => (hk.mem_users hwire).mpr hw

theorem liveOps_pairwise (k : Kernel) : k.liveOps.Pairwise fun p q => p.1 < q.1 := by
  unfold liveOps
  rw [List.pairwise_filterMap]
  have hidx : k.ops.toList.zipIdx.Pairwise fun p q => p.2 < q.2 := by
    rw [← List.pairwise_map, List.zipIdx_map_snd]
    exact List.pairwise_lt_range'
  refine hidx.imp fun {p q} hlt a ha b hb => ?_
  obtain ⟨_, -, rfl⟩ := Option.map_eq_some_iff.mp ha
  obtain ⟨_, -, rfl⟩ := Option.map_eq_some_iff.mp hb
  exact hlt

/-- No wire is consumed twice exactly if no operation repeats an operand and no two operations share
one. -/
theorem consumed_nodup_iff : k.consumed.Nodup ↔
    (∀ x o, k.op? x = some o → o.operands.Nodup) ∧
      ∀ w x y, w ∈ k.operandsOf x → w ∈ k.operandsOf y → x = y := by
  unfold consumed
  rw [List.nodup_flatMap]
  simp only [Prod.forall, mem_liveOps, and_congr_right_iff]
  intro _
  constructor
  · intro hdisjoint w x y hx hy
    obtain ⟨o, ho, hw⟩ := mem_operandsOf.mp hx
    obtain ⟨o', ho', hw'⟩ := mem_operandsOf.mp hy
    have : Std.Symm (Function.onFun List.Disjoint fun p : Nat × Operation => p.2.operands) :=
      ⟨fun _ _ h => List.Disjoint.symm h⟩
    by_contra hne
    have hapart := hdisjoint.forall (mem_liveOps.mpr ho) (mem_liveOps.mpr ho') fun heq =>
      hne (congrArg Prod.fst heq)
    exact hapart hw hw'
  · intro hunique
    refine k.liveOps_pairwise.imp_of_mem fun {p q} hp hq hlt w hw hw' => ?_
    have heq := hunique w p.1 q.1 (mem_operandsOf.mpr ⟨p.2, mem_liveOps.mp hp, hw⟩)
      (mem_operandsOf.mpr ⟨q.2, mem_liveOps.mp hq, hw'⟩)
    exact Nat.ne_of_lt hlt heq

/-- Where wires have at most one user, operations that are recorded do not share a wire. -/
theorem Recorded.unique (hk : k.Recorded) (hverified : k.ValueSemantics) {w x y : Nat}
    (hx : w ∈ k.operandsOf x) (hy : w ∈ k.operandsOf y) : x = y := by
  obtain ⟨o, ho, hw⟩ := mem_operandsOf.mp hx
  obtain ⟨wire, hwire, -⟩ := hverified.operand x o ho w hw
  have hmem := hk x w hx wire hwire
  have hmem' := hk y w hy wire hwire
  have hlength := hverified.single w wire hwire
  rcases hus : wire.users with _ | ⟨z, _ | ⟨z', rest⟩⟩
  · simp [hus] at hmem
  · rw [hus, List.mem_singleton] at hmem hmem'
    rw [hmem, hmem']
  · simp [hus] at hlength

/-- What verification says of any kernel. Operands have live producers, and the blocks list live
operations, none twice. Where the users of wires are recorded, no wire is consumed twice exactly if
no single operation takes one twice. Kernels that calls have made record their users, and those of
them that are accepted share no wire. -/
theorem verify_guards (h : k.verify = .ok ()) :
    (∀ x o, k.op? x = some o → ∀ w ∈ o.operands,
      ∃ wire, k.wire? w = some wire ∧ (k.op? wire.producer).isSome) ∧
    (∀ x ∈ k.blocks.flatten, (k.op? x).isSome) ∧ k.blocks.flatten.Nodup ∧
    (k.Recorded → (k.consumed.Nodup ↔ ∀ x o, k.op? x = some o → o.operands.Nodup)) ∧
    ∀ name cs, k = (empty name).calls cs → k.Recorded ∧ k.consumed.Nodup := by
  have hverified := verify_eq_ok_iff.mp h
  refine ⟨hverified.operand, hverified.live, hverified.placed, fun hrecorded => ?_, ?_⟩
  · rw [consumed_nodup_iff]
    exact and_iff_left fun w x y => hrecorded.unique hverified
  · intro name cs heq
    have hk : k.Coherent := heq ▸ (Coherent.empty name).calls cs
    obtain ⟨hnodup, hunique⟩ := hk.single_iff.mp hverified.single
    refine ⟨hk.recorded, consumed_nodup_iff.mpr ⟨fun x o hx => ?_, hunique⟩⟩
    exact operandsOf_of_op? hx ▸ hnodup x

/-- Two qubits that a gate entangles. -/
def entangled : List Call :=
  [.alloc, .alloc, .apply (.gate "h" []) [0], .apply (.gate "cx" []) [2, 1]]

/-- The kernel of two entangled qubits is accepted and shares no wire. -/
theorem verify_guards_entangled :
    ((empty "bell").calls entangled).verify = .ok () ∧
      ((empty "bell").calls entangled).Recorded ∧
        ((empty "bell").calls entangled).consumed = [0, 2, 1] ∧
          ((empty "bell").calls entangled).consumed.Nodup := by
  have hverify : ((empty "bell").calls entangled).verify = .ok () := by decide +kernel
  obtain ⟨hrecorded, hnodup⟩ := (verify_guards hverify).2.2.2.2 "bell" entangled rfl
  exact ⟨hverify, hrecorded, by decide +kernel, hnodup⟩

/-- Two gates on the wire of one allocation, which records the first only. -/
def sharing : Kernel where
  name := "sharing"
  ops := #[some ⟨.alloc, [], [0], []⟩, some ⟨.gate "h" [], [0], [1], []⟩,
    some ⟨.gate "x" [], [0], [2], []⟩]
  wires := #[⟨0, 0, [1]⟩, ⟨1, 0, []⟩, ⟨2, 0, []⟩]
  blocks := [[0, 1, 2]]
  level := .logical
  mapping := none

/-- A gate that takes the wire of one allocation twice, of which that records one use. -/
def repeating : Kernel where
  name := "repeating"
  ops := #[some ⟨.alloc, [], [0], []⟩, some ⟨.gate "cx" [], [0, 0], [1, 2], []⟩]
  wires := #[⟨0, 0, [1]⟩, ⟨1, 0, []⟩, ⟨1, 1, []⟩]
  blocks := [[0, 1]]
  level := .logical
  mapping := none

/-- Verification accepts wires that are consumed twice, by two operations of which one is not
recorded or by one operation that is recorded once. -/
theorem verify_overlooks_sharing :
    (sharing.verify = .ok () ∧ ¬ sharing.consumed.Nodup ∧ ¬ sharing.Recorded) ∧
      repeating.verify = .ok () ∧ ¬ repeating.consumed.Nodup := by
  have hstray : ¬ sharing.Recorded := by
    intro hrecorded
    have hmem := hrecorded 2 0 (by decide) ⟨0, 0, [1]⟩ rfl
    exact absurd hmem (by decide)
  exact ⟨⟨by decide +kernel, by decide +kernel, hstray⟩, by decide +kernel, by decide +kernel⟩

end QubitMapper.Kernel
