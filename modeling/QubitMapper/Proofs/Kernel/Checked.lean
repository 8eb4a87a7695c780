import QubitMapper.Proofs.Kernel.Formed
import QubitMapper.Proofs.Kernel.Sharing

/-!
# Kernels built by checked calls

A call is *checked* if it asks that operands are unused before it takes them. Checked calls keep
every wire to a single user, and most of value semantics with it. They do not ask whether the
producer of an operand is still there: erasing leaves the wires of an operation behind, unused, and
a later operation may take one.

## Main results

* `Kernel.Call.run_cases`: what a checked call does.
* `Kernel.Unshared.calls`: checked calls keep wires unshared.
* `Kernel.calls_operandsLive`: operands have live producers if each had one when it was taken.
* `Kernel.checked_calls_verify`: when verification accepts what checked calls have made.
-/

namespace QubitMapper.Kernel

variable {k k' : Kernel} {x w : Nat} {c : Call} {cs : List Call} {kind : OpKind} {ws : List Nat}

/-! ## What a checked call does -/

namespace Call

/-- Whether a call asks that the operands it is given are unused. -/
def isChecked : Call → Bool
  | create _ _ => false
  | setOperands _ _ => false
  | _ => true

/-- The operands that a call gives to a new operation. -/
def operands : Call → List Nat
  | apply _ ws => ws
  | create _ ws => ws
  | insert _ _ _ ws => ws
  | _ => []

/-- A checked call that succeeds adds an operation on unused wires, or leaves operands and wires
alone, or erases an operation whose results are unused. -/
theorem run_cases (hc : c.isChecked = true) (h : c.run k = .ok k') :
    (∃ kind, k.Usable true c.operands ∧ k'.ops = (k.addOp kind c.operands).1.ops ∧
      k'.wires = (k.addOp kind c.operands).1.wires) ∨
    (c.operands = [] ∧ k'.wires = k.wires ∧ k'.ops.size = k.ops.size ∧
      ∀ x, (k'.op? x).isSome = (k.op? x).isSome ∧ k'.operandsOf x = k.operandsOf x) ∨
    ∃ x o, c = .erase x ∧ k.op? x = some o ∧
      (∀ w ∈ o.results, (k.wire? w).map (·.users) = some []) ∧ k' = k.without x o.operands := by
  cases c with
  | alloc =>
      cases h
      exact .inl ⟨.alloc, ⟨List.nodup_nil, by simp [operands]⟩, ops_placeLast, wires_placeLast⟩
  | apply kind ws =>
      obtain ⟨out, hout, rfl⟩ := Except.map_eq_ok.mp h
      obtain ⟨created, hcreate, hout⟩ := Except.bind_eq_ok.mp hout
      obtain ⟨-, husable, rfl⟩ := create_eq_ok_iff.mp hcreate
      cases hout
      exact .inl ⟨kind, husable, ops_placeLast, wires_placeLast⟩
  | insert b position kind ws =>
      obtain ⟨out, hout, rfl⟩ := Except.map_eq_ok.mp h
      obtain ⟨ops, -, hout⟩ := Except.bind_eq_ok.mp hout
      split at hout
      · cases hout
      · obtain ⟨created, hcreate, hout⟩ := Except.bind_eq_ok.mp hout
        obtain ⟨-, husable, rfl⟩ := create_eq_ok_iff.mp hcreate
        cases hout
        exact .inl ⟨kind, husable, rfl, rfl⟩
  | addBlock =>
      cases h
      exact .inr (.inl ⟨rfl, rfl, rfl, fun _ => ⟨rfl, rfl⟩⟩)
  | setBlockOrder b order =>
      obtain ⟨current, -, -, -, -, rfl⟩ := setBlockOrder_eq_ok_iff.mp h
      exact .inr (.inl ⟨rfl, rfl, rfl, fun _ => ⟨rfl, rfl⟩⟩)
  | sort b =>
      obtain ⟨order, sorted, -, -, rfl⟩ := sortBlock_perm h
      exact .inr (.inl ⟨rfl, rfl, rfl, fun _ => ⟨rfl, rfl⟩⟩)
  | setPhysical x physical =>
      cases h
      refine .inr (.inl ⟨rfl, rfl, by simp [modifyOp], fun y => ?_⟩)
      simp only [operandsOf, op?_modifyOp]
      split
      · rename_i heq
        subst heq
        cases k.op? x <;> exact ⟨rfl, rfl⟩
      · exact ⟨rfl, rfl⟩
  | erase x =>
      obtain ⟨out, hout, rfl⟩ := Except.map_eq_ok.mp h
      obtain ⟨o, hx, hunused, -, rfl⟩ := erase_eq_ok_iff.mp hout
      exact .inr (.inr ⟨x, o, rfl, hx, hunused, rfl⟩)
  | create kind ws => cases hc
  | setOperands x ws => cases hc

end Call

/-! ## Wires with one user -/

/-- A formed kernel in which no wire has two users. -/
structure Unshared (k : Kernel) : Prop extends k.Formed where
  single : ∀ w wire, k.wire? w = some wire → wire.users.length ≤ 1

namespace Unshared

theorem empty (name : String) : (Kernel.empty name).Unshared where
  toFormed := .empty name
  single w wire hw := by simp [Kernel.empty, wire?] at hw

theorem run (hk : k.Unshared) (hc : c.isChecked = true) (h : c.run k = .ok k') : k'.Unshared := by
  refine ⟨hk.toFormed.run h, fun w wire hw => ?_⟩
  rcases c.run_cases hc h with ⟨kind, husable, -, hwires⟩ | ⟨-, hwires, -⟩ | ⟨x, o, -, -, -, rfl⟩
  · rw [wire?, hwires] at hw
    exact single_addOp husable hk.single w wire hw
  · rw [wire?, hwires] at hw
    exact hk.single w wire hw
  · rw [wire?_without] at hw
    obtain ⟨wire', hw', rfl⟩ := Option.map_eq_some_iff.mp hw
    exact Nat.le_trans (List.diff_sublist _ _).length_le (hk.single w wire' hw')

theorem call (hk : k.Unshared) (hc : c.isChecked = true) : (k.call c).Unshared := by
  unfold Kernel.call
  split
  · rename_i k' h
    exact hk.run hc h
  · exact hk

/-- Checked calls keep wires unshared. -/
theorem calls (hk : k.Unshared) (hcs : ∀ c ∈ cs, c.isChecked = true) :
    (k.calls cs).Unshared := by
  induction cs generalizing k with
  | nil => exact hk
  | cons c rest ih =>
      rw [List.forall_mem_cons] at hcs
      exact ih (hk.call hcs.1) hcs.2

end Unshared

/-! ## Wires with live producers -/

/-- The producer of a wire is there. -/
def LiveWire (k : Kernel) (w : Nat) : Prop :=
  ∀ wire, k.wire? w = some wire → (k.op? wire.producer).isSome

/-- What is consumed has a producer that is there. -/
def OperandsLive (k : Kernel) : Prop := ∀ x, ∀ w ∈ k.operandsOf x, k.LiveWire w

/-- Each of some calls that makes an operation gives it wires whose producers are there. -/
def TakesLive : Kernel → List Call → Prop
  | _, [] => True
  | k, c :: cs => ((c.run k).isOk = true → ∀ w ∈ c.operands, k.LiveWire w) ∧
      TakesLive (k.call c) cs

instance : Decidable (k.LiveWire w) :=
  decidable_of_iff ((k.wire? w).all fun wire => (k.op? wire.producer).isSome) <| by
    unfold LiveWire
    cases k.wire? w <;> simp

instance decidableTakesLive : (k : Kernel) → (cs : List Call) → Decidable (k.TakesLive cs)
  | _, [] => .isTrue trivial
  | k, c :: cs =>
      have := decidableTakesLive (k.call c) cs
      inferInstanceAs (Decidable (_ ∧ _))

/-- A checked call keeps producers there if its operands have theirs. Erasing does, because what it
erases has results without users. -/
theorem Unshared.operandsLive_run (hk : k.Unshared) (hall : k.OperandsLive)
    (hc : c.isChecked = true) (h : c.run k = .ok k') (hnew : ∀ w ∈ c.operands, k.LiveWire w) :
    k'.OperandsLive := by
  intro y w hw wire' hwire'
  rcases c.run_cases hc h with ⟨kind, husable, hops, hwires⟩ | ⟨-, hwires, -, hops⟩ |
      ⟨x, o, -, hx, hunused, rfl⟩
  · have hop (z : Nat) : k'.op? z = (k.addOp kind c.operands).1.op? z := by rw [op?, op?, hops]
    have hold : k.LiveWire w := by
      rw [operandsOf_congr (hop y), operandsOf, op?_addOp] at hw
      split at hw
      · exact hnew w hw
      · exact hall y w hw
    rw [wire?, hwires] at hwire'
    change (k.addOp kind c.operands).1.wire? w = some wire' at hwire'
    rw [wire?_addOp husable.lt] at hwire'
    rw [hop, op?_addOp]
    split at hwire'
    · obtain ⟨wire, hwire, rfl⟩ := Option.map_eq_some_iff.mp hwire'
      rw [if_neg (Nat.ne_of_lt (hk.producer w wire hwire))]
      exact hold wire hwire
    · split at hwire'
      · cases hwire'
        simp
      · cases hwire'
  · rw [wire?, hwires] at hwire'
    rw [(hops y).2] at hw
    rw [(hops _).1]
    exact hall y w hw wire' hwire'
  · rw [operandsOf, op?_without] at hw
    split at hw
    · cases hw
    · rw [wire?_without] at hwire'
      obtain ⟨wire, hwire, rfl⟩ := Option.map_eq_some_iff.mp hwire'
      have hproducer : x ≠ wire.producer := by
        intro heq
        have hfree := hunused w (hk.made w wire o hwire (heq ▸ hx))
        rw [hwire, Option.map_some, Option.some.injEq] at hfree
        have hmem := (hk.mem_users hwire).mpr hw
        rw [hfree] at hmem
        cases hmem
      rw [op?_without, if_neg hproducer]
      exact hall y w hw wire hwire

/-- Operands have producers that are there if each had one when it was taken. -/
theorem calls_operandsLive (hk : k.Unshared) (hall : k.OperandsLive)
    (hcs : ∀ c ∈ cs, c.isChecked = true) (htakes : k.TakesLive cs) :
    (k.calls cs).OperandsLive := by
  induction cs generalizing k with
  | nil => exact hall
  | cons c rest ih =>
      rw [List.forall_mem_cons] at hcs
      refine ih (hk.call hcs.1) ?_ hcs.2 htakes.2
      unfold Kernel.call
      split
      · rename_i k' h
        exact hk.operandsLive_run hall hcs.1 h (htakes.1 (by rw [h]; rfl))
      · exact hall

/-- Where nothing is erased, whatever is taken has its producer. -/
theorem takesLive_of_no_erase (hk : k.Coherent) (hdense : ∀ x < k.ops.size, (k.op? x).isSome)
    (hcs : ∀ c ∈ cs, c.isChecked = true) (herase : ∀ x, Call.erase x ∉ cs) : k.TakesLive cs := by
  induction cs generalizing k with
  | nil => trivial
  | cons c rest ih =>
      rw [List.forall_mem_cons] at hcs
      simp only [List.mem_cons, not_or] at herase
      refine ⟨fun _ w _ wire hw => hdense _ (hk.producer w wire hw), ?_⟩
      refine ih (hk.call c) ?_ hcs.2 fun x => (herase x).2
      unfold Kernel.call
      split
      · rename_i k' h
        rcases c.run_cases hcs.1 h with ⟨kind, -, hops, -⟩ | ⟨-, -, hsize, hops⟩ |
            ⟨x, o, rfl, -, -, -⟩
        · intro x hx
          rw [hops, size_ops_addOp] at hx
          rw [op?, hops]
          change ((k.addOp kind c.operands).1.op? x).isSome
          rw [op?_addOp]
          split
          · rfl
          · exact hdense x (by omega)
        · intro x hx
          rw [(hops x).1]
          exact hdense x (hsize ▸ hx)
        · exact absurd rfl (herase x).1
      · exact hdense

/-! ## Verification -/

namespace Unshared

/-- Of an unshared kernel verification only asks that what is consumed has its producer. -/
theorem verify_eq_ok_iff (hk : k.Unshared) : k.verify = .ok () ↔ k.OperandsLive := by
  rw [Kernel.verify_eq_ok_iff]
  constructor
  · intro hverified x w hw wire hwire
    obtain ⟨o, ho, hmem⟩ := mem_operandsOf.mp hw
    obtain ⟨wire', hwire', hlive⟩ := hverified.operand x o ho w hmem
    cases hwire.symm.trans hwire'
    exact hlive
  · intro hall
    refine hk.toCoherent.valueSemantics (fun x o hx w hw => ?_) hk.single
    rw [← operandsOf_of_op? hx] at hw
    obtain ⟨wire, hwire⟩ := exists_wire (hk.operand x w hw)
    exact ⟨wire, hwire, hall x w hw wire hwire⟩

/-- It holds nothing else against one either. -/
theorem verify_eq_error (hk : k.Unshared) {e : CircuitError} (h : k.verify = .error e) :
    ∃ x w wire, w ∈ k.operandsOf x ∧ k.wire? w = some wire ∧ k.op? wire.producer = none ∧
      e = .erasedProducer w wire.producer := by
  rw [verify_eq_checkOps hk.single hk.live hk.placed] at h
  obtain ⟨⟨x, o⟩, hmem, hcheck⟩ := exists_of_forM_eq_error h
  have hx := mem_liveOps.mp hmem
  rcases checkOp_eq_error hcheck with ⟨w, hw, hfail⟩ | ⟨w, hw, hfail⟩
  · rw [← operandsOf_of_op? hx] at hw
    obtain ⟨wire, hwire⟩ := exists_wire (hk.operand x w hw)
    obtain ⟨hproducer, he⟩ := checkOperand_eq_error hwire hfail
    exact ⟨x, w, wire, hw, hwire, hproducer, he⟩
  · obtain ⟨wire, hwire, hproducer⟩ := hk.producer_of_mem hx hw
    simp [checkResult, hwire, hproducer] at hfail

end Unshared

/-- What checked calls have made of the empty kernel is accepted by verification exactly if every
operand has a producer that is there, and the error names one that has not. So it is accepted if
each operand had a producer when it was taken, and if nothing was erased at all. -/
theorem checked_calls_verify (name : String) (hcs : ∀ c ∈ cs, c.isChecked = true) :
    let k := (empty name).calls cs
    (k.verify = .ok () ↔ k.OperandsLive) ∧
    (∀ e, k.verify = .error e → ∃ x w wire, w ∈ k.operandsOf x ∧ k.wire? w = some wire ∧
      k.op? wire.producer = none ∧ e = .erasedProducer w wire.producer) ∧
    ((empty name).TakesLive cs → k.verify = .ok ()) ∧
    ((∀ x, Call.erase x ∉ cs) → k.verify = .ok ()) := by
  intro k
  have hempty := Unshared.empty name
  have hk : k.Unshared := hempty.calls hcs
  have hnone : (empty name).OperandsLive := by
    intro x w hw
    simp [empty, operandsOf, op?] at hw
  have htakes : (empty name).TakesLive cs → k.verify = .ok () := fun h =>
    hk.verify_eq_ok_iff.mpr (calls_operandsLive hempty hnone hcs h)
  refine ⟨hk.verify_eq_ok_iff, fun e => hk.verify_eq_error, htakes, fun herase => htakes ?_⟩
  exact takesLive_of_no_erase hempty.toCoherent (by simp [empty]) hcs herase

/-- A gate on two qubits that is taken back, and other gates on these. -/
def respun : List Call :=
  [.alloc, .alloc, .apply (.gate "cx" []) [0, 1], .erase 2, .apply (.gate "h" []) [1],
    .insert 0 3 (.gate "x" []) [0], .sort 0]

/-- Taking an operation back gives its operands free for others. -/
theorem checked_calls_verify_respun :
    (∀ c ∈ respun, c.isChecked = true) ∧ (empty "respun").TakesLive respun ∧
      ((empty "respun").calls respun).verify = .ok () := by
  have hchecked : ∀ c ∈ respun, c.isChecked = true := by decide
  have htakes : (empty "respun").TakesLive respun := by decide +kernel
  exact ⟨hchecked, htakes, (checked_calls_verify "respun" hchecked).2.2.1 htakes⟩

/-- A gate on the wire of an allocation that is no longer there. -/
def reused : List Call := [.alloc, .erase 0, .apply (.gate "h" []) [0]]

/-- Checked calls leave value semantics: the gate is placed on a wire that nothing produces. -/
theorem checked_calls_break_verify : (∀ c ∈ reused, c.isChecked = true) ∧
    ((empty "reused").calls reused).opCount = 1 ∧
    ((empty "reused").calls reused).verify = .error (.erasedProducer 0 0) := by
  decide +kernel

end QubitMapper.Kernel
