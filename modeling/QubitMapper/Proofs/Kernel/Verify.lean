import Mathlib.Data.List.Enum
import QubitMapper.Circuit.Kernel.Check
import QubitMapper.Proofs.Kernel.Lookup
import QubitMapper.Proofs.Outcome

/-!
# What verification checks

`Kernel.verify` runs through operations, wires and blocks and stops at the first fault. It accepts a
kernel exactly if the kernel is in value semantics.

## Main results

* `Kernel.verify_eq_ok_iff`: acceptance is `Kernel.ValueSemantics`.
* `Kernel.verify_eq_checkOps`, `Kernel.checkOp_eq_error`: where verification fails.
-/

namespace QubitMapper

namespace Kernel

variable {k : Kernel}

/-- Operands have live producers, results point back, wires have at most one user, and blocks list
live operations, none twice. -/
structure ValueSemantics (k : Kernel) : Prop where
  operand : ∀ x o, k.op? x = some o → ∀ w ∈ o.operands,
    ∃ wire, k.wire? w = some wire ∧ (k.op? wire.producer).isSome
  result : ∀ x o, k.op? x = some o → ∀ w ∈ o.results,
    ∃ wire, k.wire? w = some wire ∧ wire.producer = x
  single : ∀ w wire, k.wire? w = some wire → wire.users.length ≤ 1
  live : ∀ x ∈ k.blocks.flatten, (k.op? x).isSome
  placed : k.blocks.flatten.Nodup

theorem mem_liveOps {x : Nat} {o : Operation} : (x, o) ∈ k.liveOps ↔ k.op? x = some o := by
  simp only [liveOps, List.mem_filterMap, Prod.exists, Option.map_eq_some_iff, Prod.mk.injEq,
    List.mk_mem_zipIdx_iff_getElem?, Array.getElem?_toList, op?_eq_some]
  constructor
  · rintro ⟨slot, i, hslot, o', rfl, rfl, rfl⟩
    exact hslot
  · intro h
    exact ⟨some o, x, h, o, rfl, rfl, rfl⟩

private theorem checkOperand_eq_ok_iff {w : Nat} :
    k.checkOperand w = .ok () ↔ ∃ wire, k.wire? w = some wire ∧ (k.op? wire.producer).isSome := by
  unfold checkOperand
  cases k.wire? w with
  | none => simp
  | some wire => cases h : k.op? wire.producer <;> simp [h]

private theorem checkResult_eq_ok_iff {x w : Nat} :
    k.checkResult x w = .ok () ↔ ∃ wire, k.wire? w = some wire ∧ wire.producer = x := by
  unfold checkResult
  cases k.wire? w with
  | none => simp
  | some wire => by_cases h : wire.producer = x <;> simp [h]

private theorem checkOp_eq_ok_iff {x : Nat} {o : Operation} :
    k.checkOp x o = .ok () ↔
      (∀ w ∈ o.operands, ∃ wire, k.wire? w = some wire ∧ (k.op? wire.producer).isSome) ∧
        ∀ w ∈ o.results, ∃ wire, k.wire? w = some wire ∧ wire.producer = x := by
  show (forM o.operands k.checkOperand >>= fun _ => forM o.results (k.checkResult x)) = _ ↔ _
  rw [seq_eq_ok_iff, forM_eq_ok_iff, forM_eq_ok_iff]
  simp only [checkOperand_eq_ok_iff, checkResult_eq_ok_iff]

private theorem checkUsers_eq_ok_iff {ws : List (Wire × Nat)} :
    checkUsers ws = .ok () ↔ ∀ p ∈ ws, p.1.users.length ≤ 1 := by
  induction ws with
  | nil => simp [checkUsers]
  | cons p rest ih =>
      obtain ⟨⟨producer, index, users⟩, w⟩ := p
      rw [List.forall_mem_cons, ← ih]
      match users with
      | [] => simp [checkUsers]
      | [user] => simp [checkUsers]
      | user :: _ :: _ => simp [checkUsers]

private theorem checkPlaced_eq_ok_iff {ops : List (Nat × Nat)} :
    ∀ {seen : Std.TreeSet Nat}, k.checkPlaced seen ops = .ok () ↔
      (∀ p ∈ ops, (k.op? p.1).isSome ∧ p.1 ∉ seen) ∧ (ops.map (·.1)).Nodup := by
  induction ops with
  | nil => simp [checkPlaced]
  | cons p rest ih =>
      obtain ⟨x, b⟩ := p
      intro seen
      unfold checkPlaced
      cases hx : k.op? x with
      | none => simp [hx]
      | some o =>
          by_cases hseen : x ∈ seen
          · simp [hseen]
          · have hc : seen.contains x = false := by
              rwa [← Bool.not_eq_true, Std.TreeSet.contains_iff_mem]
            simp only [hc, ih, Option.isNone_some, Bool.false_eq_true, ↓reduceIte]
            rw [List.forall_mem_cons, List.map_cons, List.nodup_cons]
            simp only [Std.TreeSet.mem_insert, hx, hseen, Option.isSome_some]
            simp only [not_false_eq_true, and_self, true_and, List.mem_map, not_exists, not_and,
              not_or, Prod.forall]
            constructor
            · rintro ⟨hall, hnodup⟩
              refine ⟨fun y c hy => ⟨(hall y c hy).1, (hall y c hy).2.2⟩, ?_, hnodup⟩
              rintro y c hy rfl
              exact (hall y c hy).2.1 (by simp)
            · rintro ⟨hall, hnot, hnodup⟩
              refine ⟨fun y c hy => ⟨(hall y c hy).1, ?_, (hall y c hy).2⟩, hnodup⟩
              intro heq
              exact hnot y c hy (Nat.compare_eq_eq.mp heq).symm

private theorem placedOps_map_fst : k.placedOps.map (·.1) = k.blocks.flatten := by
  unfold placedOps
  have : ∀ (blocks : List (List Nat)) (n : Nat),
      ((blocks.zipIdx n).flatMap fun x => x.1.map (·, x.2)).map (·.1) = blocks.flatten := by
    intro blocks
    induction blocks with
    | nil => intro n; rfl
    | cons ops rest ih =>
        intro n
        rw [List.zipIdx_cons, List.flatMap_cons, List.map_append, ih, List.flatten_cons]
        simp [Function.comp_def]
  exact this k.blocks 0

/-- Verification accepts the kernels in value semantics and no others. -/
theorem verify_eq_ok_iff : k.verify = .ok () ↔ k.ValueSemantics := by
  have hops : (forM k.liveOps fun p => k.checkOp p.1 p.2) = .ok () ↔ ∀ x o, k.op? x = some o →
      (∀ w ∈ o.operands, ∃ wire, k.wire? w = some wire ∧ (k.op? wire.producer).isSome) ∧
        ∀ w ∈ o.results, ∃ wire, k.wire? w = some wire ∧ wire.producer = x := by
    rw [forM_eq_ok_iff]
    simp only [Prod.forall, mem_liveOps, checkOp_eq_ok_iff]
  have husers : checkUsers k.wires.toList.zipIdx = .ok () ↔
      ∀ w wire, k.wire? w = some wire → wire.users.length ≤ 1 := by
    rw [checkUsers_eq_ok_iff]
    simp only [Prod.forall, List.mk_mem_zipIdx_iff_getElem?, Array.getElem?_toList, wire?]
    exact forall_comm
  have hplaced : k.checkPlaced {} k.placedOps = .ok () ↔
      (∀ x ∈ k.blocks.flatten, (k.op? x).isSome) ∧ k.blocks.flatten.Nodup := by
    rw [checkPlaced_eq_ok_iff, placedOps_map_fst, ← placedOps_map_fst]
    simp
  show (forM k.liveOps (fun p => k.checkOp p.1 p.2) >>= fun _ =>
    checkUsers k.wires.toList.zipIdx >>= fun _ => k.checkPlaced {} k.placedOps) = _ ↔ _
  rw [seq_eq_ok_iff, seq_eq_ok_iff, hops, husers, hplaced]
  constructor
  · rintro ⟨hop, hsingle, hlive, hplaced⟩
    exact ⟨fun x o hx => (hop x o hx).1, fun x o hx => (hop x o hx).2, hsingle, hlive, hplaced⟩
  · intro h
    exact ⟨fun x o hx => ⟨h.operand x o hx, h.result x o hx⟩, h.single, h.live, h.placed⟩

/-! ## Where verification fails -/

/-- Where users and blocks are in order, verification asks about operands and results alone. -/
theorem verify_eq_checkOps (hsingle : ∀ w wire, k.wire? w = some wire → wire.users.length ≤ 1)
    (hlive : ∀ x ∈ k.blocks.flatten, (k.op? x).isSome) (hplaced : k.blocks.flatten.Nodup) :
    k.verify = forM k.liveOps fun p => k.checkOp p.1 p.2 := by
  have husers : checkUsers k.wires.toList.zipIdx = .ok () := by
    rw [checkUsers_eq_ok_iff]
    intro p hp
    rw [List.mem_zipIdx_iff_getElem?, Array.getElem?_toList] at hp
    exact hsingle p.2 p.1 hp
  have hblocks : k.checkPlaced {} k.placedOps = .ok () := by
    rw [checkPlaced_eq_ok_iff, placedOps_map_fst]
    refine ⟨fun p hp => ⟨hlive p.1 ?_, by simp⟩, hplaced⟩
    rw [← placedOps_map_fst]
    exact List.mem_map_of_mem hp
  show (forM k.liveOps (fun p => k.checkOp p.1 p.2) >>= fun _ =>
    checkUsers k.wires.toList.zipIdx >>= fun _ => k.checkPlaced {} k.placedOps) = _
  rw [husers, hblocks]
  cases forM k.liveOps fun p => k.checkOp p.1 p.2 <;> rfl

/-- What verification holds against an operand that is a wire of the kernel. -/
theorem checkOperand_eq_error {w : Nat} {wire : Wire} {e : CircuitError}
    (hw : k.wire? w = some wire) (h : k.checkOperand w = .error e) :
    k.op? wire.producer = none ∧ e = .erasedProducer w wire.producer := by
  unfold checkOperand at h
  rw [hw] at h
  cases hproducer : k.op? wire.producer with
  | some o => simp [hproducer] at h
  | none =>
      simp only [hproducer, Option.isNone_none, ↓reduceIte, Except.error.injEq] at h
      exact ⟨rfl, h.symm⟩

/-- An operation fails verification by an operand or by a result. -/
theorem checkOp_eq_error {x : Nat} {o : Operation} {e : CircuitError}
    (h : k.checkOp x o = .error e) :
    (∃ w ∈ o.operands, k.checkOperand w = .error e) ∨
      ∃ w ∈ o.results, k.checkResult x w = .error e := by
  have hseq : (forM o.operands k.checkOperand >>= fun _ => forM o.results (k.checkResult x)) =
      .error e := h
  cases hoperands : forM o.operands k.checkOperand with
  | error e' =>
      rw [hoperands] at hseq
      cases hseq
      exact .inl (exists_of_forM_eq_error hoperands)
  | ok _ =>
      rw [hoperands] at hseq
      exact .inr (exists_of_forM_eq_error hseq)

end Kernel

end QubitMapper
