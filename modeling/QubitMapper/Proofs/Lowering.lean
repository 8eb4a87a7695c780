import QubitMapper.Circuit.Lowering
import QubitMapper.Proofs.Kernel.Consistent
import QubitMapper.Proofs.Kernel.Verify
import QubitMapper.Proofs.Outcome

/-!
# Lowered kernels

What the kernel of a program looks like: `n` allocations, then one operation for each instruction in
order. Each wire carries a qubit, its *tag*. The operands of an operation carry the qubits of its
instruction, and each of them comes from the last operation before it that acts on the qubit.

## Main results

* `Program.lower_spec`: a program that is lowered is `Valid`, and its kernel is `Lowered`.
* `Program.lower_isOk_iff`: programs are lowered if they are `Valid` and do not act on a qubit
  behind a sink of it.
* `Lowered.verify`: lowered kernels are in value semantics.
-/

namespace QubitMapper

/-! ## Tables of wires -/

namespace Current

variable {current : Current} {qubits : List Nat} {wires : List (Option Nat)} {q : Nat}

private theorem moveTo_cons {w : Option Nat} :
    current.moveTo (q :: qubits) (w :: wires) =
      Current.moveTo (current.setIfInBounds q w) qubits wires := rfl

@[simp] theorem size_moveTo : (current.moveTo qubits wires).size = current.size := by
  induction qubits generalizing current wires with
  | nil => rfl
  | cons q rest ih =>
      cases wires with
      | nil => rfl
      | cons w wires => rw [moveTo_cons, ih, Array.size_setIfInBounds]

theorem moveTo_of_not_mem (h : q ∉ qubits) : (current.moveTo qubits wires)[q]? = current[q]? := by
  induction qubits generalizing current wires with
  | nil => rfl
  | cons r rest ih =>
      rw [List.mem_cons, not_or] at h
      cases wires with
      | nil => rfl
      | cons w wires => rw [moveTo_cons, ih h.2, Array.getElem?_setIfInBounds_ne (Ne.symm h.1)]

theorem moveTo_of_getElem? (hnodup : qubits.Nodup) {j : Nat} (hq : qubits[j]? = some q)
    {w : Option Nat} (hw : wires[j]? = some w) (hlt : q < current.size) :
    (current.moveTo qubits wires)[q]? = some w := by
  induction qubits generalizing current wires j with
  | nil => cases hq
  | cons r rest ih =>
      rw [List.nodup_cons] at hnodup
      cases wires with
      | nil => cases hw
      | cons v wires =>
          rw [moveTo_cons]
          cases j with
          | zero =>
              cases hq
              cases hw
              rw [moveTo_of_not_mem hnodup.1, Array.getElem?_setIfInBounds_self_of_lt hlt]
          | succ j => exact ih hnodup.2 hq hw (by simpa using hlt)

/-- An instruction moves its qubits onto new wires, or takes them out of use. -/
theorem moveTo_next (hnodup : qubits.Nodup) {j : Nat} (hq : qubits[j]? = some q)
    (hlt : q < current.size) (sink : Bool) (base : Nat) :
    (current.moveTo qubits (if sink then qubits.map fun _ => none
      else (List.range' base qubits.length).map some))[q]? =
        some (if sink then none else some (base + j)) := by
  have hj : j < qubits.length := (List.getElem?_eq_some_iff.mp hq).1
  cases sink with
  | true => exact moveTo_of_getElem? hnodup hq (by simp [hj]) hlt
  | false => exact moveTo_of_getElem? hnodup hq (by simp [List.getElem?_range' hj]) hlt

theorem wiresOf_eq_ok_iff {name : String} {ws : List Nat} :
    current.wiresOf name qubits = .ok ws ↔
      List.Forall₂ (fun q w => current[q]? = some (some w)) qubits ws := by
  unfold wiresOf
  rw [mapM_eq_ok_iff]
  constructor
  · intro h
    apply h.imp
    intro q w hw
    split at hw
    · cases hw
    · cases hw
    · rename_i v hv
      cases hw
      exact hv
  · intro h
    apply h.imp
    intro q w hw
    simp [hw]

end Current

/-! ## What lowering promises -/

/-- An instruction that lowering accepts on the qubits below `n`. -/
structure Instruction.Valid (n : Nat) (ins : Instruction) : Prop where
  alloc : ins.kind.isAlloc = false
  arity : Kernel.FitsArity ins.kind ins.qubits.length
  nodup : ins.qubits.Nodup
  lt : ∀ q ∈ ins.qubits, q < n

/-- A program that lowering accepts. -/
def Program.Valid (p : Program) : Prop := ∀ ins ∈ p.instructions, ins.Valid p.numQubits

/-- A sink has taken a qubit out of use. -/
def Sunk (done : List Instruction) (q : Nat) : Prop :=
  ∃ ins ∈ done, ins.kind.isSink = true ∧ q ∈ ins.qubits

/-- No instruction of certain kinds acts on a qubit behind a sink of it. -/
def SinksLast (kinds : OpKind → Bool) (instructions : List Instruction) : Prop :=
  instructions.Pairwise fun earlier later =>
    earlier.kind.isSink = true → kinds later.kind = true → ∀ q ∈ earlier.qubits, q ∉ later.qubits

/-- The operation that a qubit comes from after some instructions: the last one that acts on it, or
its allocation. -/
inductive Origin (n : Nat) (done : List Instruction) (q : Nat) : Nat → Prop where
  | alloc (h : ∀ ins ∈ done, q ∉ ins.qubits) : Origin n done q q
  | last (i : Nat) (ins : Instruction) (hi : done[i]? = some ins) (hq : q ∈ ins.qubits)
      (h : ∀ (j : Nat) later, i < j → done[j]? = some later → q ∉ later.qubits) :
      Origin n done q (n + i)

/-- An operation does what an instruction says: its operands carry the qubits of the instruction and
come from where these were last, and its results carry them on. -/
structure Encodes (n : Nat) (done : List Instruction) (tag : Nat → Option Nat) (k : Kernel)
    (ins : Instruction) (o : Operation) : Prop where
  kind : o.kind = ins.kind
  physical : o.physical = []
  operands : List.Forall₂ (fun w q => tag w = some q ∧
    ∃ wire, k.wire? w = some wire ∧ Origin n done q wire.producer) o.operands ins.qubits
  results : List.Forall₂ (fun w q => tag w = some q) o.results
    (if ins.kind.isSink then [] else ins.qubits)

/-- The kernel of `n` qubits and some instructions, with the qubits that its wires carry. -/
structure Lowered (n : Nat) (done : List Instruction) (tags : List Nat) (k : Kernel) : Prop where
  consistent : k.Consistent
  made : k.Made
  single : ∀ w wire, k.wire? w = some wire → wire.users.length ≤ 1
  blocks : k.blocks = [List.range (n + done.length)]
  ops : k.ops.size = n + done.length
  wires : k.wires.size = tags.length
  source : ∀ q < n, k.op? q = some { kind := .alloc, operands := [], results := [q] } ∧
    tags[q]? = some q
  valid : ∀ ins ∈ done, ins.Valid n
  instruction : ∀ i ins, done[i]? = some ins → ∃ o, k.op? (n + i) = some o ∧
    Encodes n (done.take i) (tags[·]?) k ins o

/-- The table of current wires holds the unused wire on which each qubit was left, and nothing for a
qubit that a sink has taken. -/
structure Lowering.Follows (n : Nat) (done : List Instruction) (tags : List Nat) (s : Lowering) :
    Prop where
  size : s.current.size = n
  current : ∀ (q w : Nat), s.current[q]? = some (some w) → tags[w]? = some q ∧
    ∃ wire, s.kernel.wire? w = some wire ∧ wire.users = [] ∧ Origin n done q wire.producer
  sunk : ∀ q : Nat, s.current[q]? = some none ↔ q < n ∧ Sunk done q

/-! ## Sinks -/

theorem sunk_append {done : List Instruction} {ins : Instruction} {q : Nat} :
    Sunk (done ++ [ins]) q ↔ Sunk done q ∨ ins.kind.isSink = true ∧ q ∈ ins.qubits := by
  simp [Sunk, or_and_right, exists_or]

/-- An instruction behind others acts on no qubit that a sink has taken. -/
theorem sinksLast_append {kinds : OpKind → Bool} {done : List Instruction} {ins : Instruction} :
    SinksLast kinds (done ++ [ins]) ↔
      SinksLast kinds done ∧ (kinds ins.kind = true → ∀ q ∈ ins.qubits, ¬ Sunk done q) := by
  unfold SinksLast
  rw [List.pairwise_append]
  simp only [List.pairwise_singleton, List.mem_singleton, forall_eq, true_and, Sunk]
  constructor
  · rintro ⟨hdone, hlast⟩
    exact ⟨hdone, fun hkind q hq ⟨sink, hmem, hsink, hq'⟩ => hlast sink hmem hsink hkind q hq' hq⟩
  · rintro ⟨hdone, hlast⟩
    exact ⟨hdone, fun sink hmem hsink hkind q hq' hq => hlast hkind q hq ⟨sink, hmem, hsink, hq'⟩⟩

/-! ## Origins -/

section Origin

variable {n q x : Nat} {done : List Instruction} {ins : Instruction}

theorem Origin.append_of_not_mem (h : Origin n done q x) (hq : q ∉ ins.qubits) :
    Origin n (done ++ [ins]) q x := by
  cases h with
  | alloc h =>
      refine .alloc fun other hother => ?_
      rcases List.mem_append.mp hother with hother | hother
      · exact h other hother
      · rw [List.mem_singleton.mp hother]
        exact hq
  | last i first hi hmem h =>
      have hlt := (List.getElem?_eq_some_iff.mp hi).1
      refine .last i first (by rw [List.getElem?_append_left hlt, hi]) hmem ?_
      intro j later hij hj
      rw [List.getElem?_append] at hj
      split at hj
      · exact h j later hij hj
      · rw [List.mem_singleton.mp (List.mem_of_getElem? hj)]
        exact hq

theorem Origin.append_of_mem (hq : q ∈ ins.qubits) :
    Origin n (done ++ [ins]) q (n + done.length) := by
  refine .last done.length ins (by simp) hq ?_
  intro j later hj hlater
  have := (List.getElem?_eq_some_iff.mp hlater).1
  rw [List.length_append, List.length_singleton] at this
  omega

/-- Origins lie before the operation that asks for them. -/
theorem Origin.lt (h : Origin n done q x) (hq : q < n) : x < n + done.length := by
  cases h with
  | alloc _ => omega
  | last i first hi _ _ =>
      have := (List.getElem?_eq_some_iff.mp hi).1
      omega

end Origin

/-- A kernel that knows more wires, with the same producers, encodes the same instructions. -/
theorem Encodes.mono {n : Nat} {done : List Instruction} {tag tag' : Nat → Option Nat}
    {k k' : Kernel} {ins : Instruction} {o : Operation} (h : Encodes n done tag k ins o)
    (htag : ∀ w q, tag w = some q → tag' w = some q)
    (hwire : ∀ w wire, k.wire? w = some wire →
      ∃ wire', k'.wire? w = some wire' ∧ wire'.producer = wire.producer) :
    Encodes n done tag' k' ins o where
  kind := h.kind
  physical := h.physical
  operands := h.operands.imp fun w q ⟨hw, wire, hwire₀, horigin⟩ => by
    obtain ⟨wire', hwire', hproducer⟩ := hwire w wire hwire₀
    exact ⟨htag w q hw, wire', hwire', hproducer ▸ horigin⟩
  results := h.results.imp fun w q => htag w q

/-! ## Lowering step by step -/

section Steps

variable {n : Nat} {done : List Instruction} {ins : Instruction} {tags : List Nat}

private theorem op?_start (p : Program) (x : Nat) :
    (Lowering.start p).kernel.op? x = if x < p.numQubits then
      some { kind := .alloc, operands := [], results := [x] } else none := by
  simp only [Lowering.start, Kernel.allocMany, Kernel.empty, Kernel.op?, Kernel.placeLast,
    Kernel.freshWires, Kernel.getElem?_append_list]
  by_cases hx : x < p.numQubits <;> simp [hx]

private theorem wire?_start (p : Program) (w : Nat) :
    (Lowering.start p).kernel.wire? w = if w < p.numQubits then some ⟨w, 0, []⟩ else none := by
  simp only [Lowering.start, Kernel.allocMany, Kernel.empty, Kernel.wire?, Kernel.placeLast,
    Kernel.freshWires, Kernel.getElem?_append_list]
  by_cases hw : w < p.numQubits <;> simp [hw]

private theorem sizes_start (p : Program) :
    (Lowering.start p).kernel.ops.size = p.numQubits ∧
      (Lowering.start p).kernel.wires.size = p.numQubits ∧
      (Lowering.start p).kernel.blocks = [List.range p.numQubits] := by
  refine ⟨?_, ?_, ?_⟩
  · simp [Lowering.start, Kernel.allocMany, Kernel.empty, Kernel.placeLast, Kernel.freshWires,
      ← Array.length_toList]
  · simp [Lowering.start, Kernel.allocMany, Kernel.empty, Kernel.placeLast, Kernel.freshWires,
      ← Array.length_toList]
  · simp [Lowering.start, Kernel.allocMany, Kernel.empty, Kernel.placeLast,
      List.range_eq_range']

/-- The kernel of the allocations alone. -/
theorem Lowering.start_spec (p : Program) :
    Lowered p.numQubits [] (List.range p.numQubits) (Lowering.start p).kernel ∧
      Follows p.numQubits [] (List.range p.numQubits) (Lowering.start p) := by
  obtain ⟨hops, hwires, hblocks⟩ := sizes_start p
  have hop {x o} (h : (Lowering.start p).kernel.op? x = some o) :
      x < p.numQubits ∧ o = { kind := .alloc, operands := [], results := [x] } := by
    rw [op?_start] at h
    split at h
    · cases h
      exact ⟨‹_›, rfl⟩
    · cases h
  have hwire {w wire} (h : (Lowering.start p).kernel.wire? w = some wire) :
      w < p.numQubits ∧ wire = ⟨w, 0, []⟩ := by
    rw [wire?_start] at h
    split at h
    · cases h
      exact ⟨‹_›, rfl⟩
    · cases h
  have hoperands (x : Nat) : (Lowering.start p).kernel.operandsOf x = [] := by
    unfold Kernel.operandsOf
    rw [op?_start]
    split <;> rfl
  refine ⟨?_, ?_⟩
  · refine
      { consistent := ⟨?_, ?_, ?_, ?_⟩
        made := ?_
        single := ?_
        blocks := by simpa using hblocks
        ops := hops
        wires := by simpa using hwires
        source := ?_
        valid := by simp
        instruction := by simp }
    · intro w wire hw x
      obtain ⟨-, rfl⟩ := hwire hw
      rw [hoperands]
      rfl
    · intro x w hw
      rw [hoperands] at hw
      cases hw
    · intro x o hx j w hj
      obtain ⟨hlt, rfl⟩ := hop hx
      have := (List.getElem?_eq_some_iff.mp hj).1
      obtain rfl : j = 0 := by simpa using this
      cases hj
      exact ⟨[], by rw [wire?_start, if_pos hlt]⟩
    · intro w wire hw
      obtain ⟨hlt, rfl⟩ := hwire hw
      rwa [hops]
    · intro w wire hw
      obtain ⟨hlt, rfl⟩ := hwire hw
      exact ⟨_, by rw [op?_start, if_pos hlt], by simp⟩
    · intro w wire hw
      obtain ⟨-, rfl⟩ := hwire hw
      simp
    · intro q hq
      exact ⟨by rw [op?_start, if_pos hq], by simp [hq]⟩
  · have htable : ∀ q : Nat, (Lowering.start p).current[q]? =
        if q < p.numQubits then some (some q) else none := by
      intro q
      by_cases hq : q < p.numQubits <;>
        simp [Lowering.start, Kernel.allocMany, Kernel.freshWires, Kernel.empty, hq]
    refine ⟨by simp [Lowering.start, Kernel.allocMany, Kernel.freshWires], ?_, ?_⟩
    · intro q w hw
      rw [htable] at hw
      split at hw
      · rename_i hq
        cases hw
        exact ⟨by simp [hq], _, by rw [wire?_start, if_pos hq], rfl,
          .alloc fun _ h => absurd h List.not_mem_nil⟩
      · cases hw
    · intro q
      rw [htable]
      simp [Sunk]

private theorem length_results {kind : OpKind} (halloc : kind.isAlloc = false) (qs : List Nat) :
    kind.resultCount qs.length = (if kind.isSink then [] else qs).length := by
  cases kind <;> simp_all [OpKind.resultCount, OpKind.isSink, OpKind.isAlloc]

private theorem tags_results (tags qs : List Nat) :
    List.Forall₂ (fun w q => (tags ++ qs)[w]? = some q) (List.range' tags.length qs.length) qs := by
  refine forall₂_of_getElem? (by simp) fun j w q hw hq => ?_
  have hj : j < qs.length := (List.getElem?_eq_some_iff.mp hq).1
  rw [List.getElem?_range' hj, Option.some.injEq, Nat.one_mul] at hw
  rw [← hw, List.getElem?_append_right (by omega)]
  simpa using hq

/-- The kernel with one more instruction. -/
private theorem Lowered.append {k : Kernel} (hk : Lowered n done tags k) {ws : List Nat}
    (hvalid : ins.Valid n) (husable : k.Usable true ws)
    (hws : List.Forall₂ (fun w q => tags[w]? = some q ∧
      ∃ wire, k.wire? w = some wire ∧ Origin n done q wire.producer) ws ins.qubits) :
    Lowered n (done ++ [ins]) (tags ++ if ins.kind.isSink then [] else ins.qubits)
      ((k.addOp ins.kind ws).1.placeLast [k.ops.size]) := by
  have hlt := husable.lt
  have hcount : ins.kind.resultCount ws.length =
      (if ins.kind.isSink then [] else ins.qubits).length := by
    rw [hws.length_eq, length_results hvalid.alloc]
  have hold : ∀ w wire, k.wire? w = some wire →
      ∃ wire', ((k.addOp ins.kind ws).1.placeLast [k.ops.size]).wire? w = some wire' ∧
        wire'.producer = wire.producer := by
    intro w wire hw
    rw [Kernel.wire?_placeLast]
    exact Kernel.wire?_addOp_of_eq_some hlt hw
  have htags : ∀ (w q : Nat), tags[w]? = some q →
      (tags ++ if ins.kind.isSink then [] else ins.qubits)[w]? = some q := by
    intro w q hw
    rw [List.getElem?_append_left (List.getElem?_eq_some_iff.mp hw).1, hw]
  refine
    { consistent := (hk.consistent.addOp hlt).congr Kernel.ops_placeLast Kernel.wires_placeLast
      made := (hk.made.addOp hlt).congr
        (fun x o hx => ⟨o, by rw [Kernel.op?_placeLast, hx], rfl⟩)
        fun w wire hw => ⟨wire, by rwa [Kernel.wire?_placeLast] at hw, rfl⟩
      single := ?_
      blocks := ?_
      ops := by simp [hk.ops, Nat.add_assoc]
      wires := by
        rw [Kernel.wires_placeLast, Kernel.size_wires_addOp, hk.wires, hcount, List.length_append]
      source := ?_
      valid := ?_
      instruction := ?_ }
  · intro w wire hw
    rw [Kernel.wire?_placeLast] at hw
    exact Kernel.single_addOp husable hk.single w wire hw
  · rw [Kernel.blocks_placeLast (by rw [Kernel.blocks_addOp, hk.blocks]), hk.ops,
      List.length_append, List.length_singleton, ← Nat.add_assoc, List.range_succ]
  · intro q hq
    obtain ⟨hop, htag⟩ := hk.source q hq
    refine ⟨?_, htags q q htag⟩
    rw [Kernel.op?_placeLast]
    exact Kernel.op?_addOp_of_eq_some hop
  · intro other hother
    rcases List.mem_append.mp hother with hother | hother
    · exact hk.valid other hother
    · rw [List.mem_singleton.mp hother]
      exact hvalid
  · intro i other hi
    rw [Kernel.op?_placeLast, Kernel.op?_addOp]
    have hsize := hk.ops
    rw [List.getElem?_append] at hi
    split at hi
    · rename_i hlt'
      obtain ⟨o, ho, hencodes⟩ := hk.instruction i other hi
      rw [if_neg (by omega), List.take_append_of_le_length (Nat.le_of_lt hlt')]
      exact ⟨o, ho, hencodes.mono htags hold⟩
    · have hi' := (List.getElem?_eq_some_iff.mp hi).1
      obtain rfl : i = done.length := by simp at hi'; omega
      obtain rfl : ins = other := by simpa using hi
      rw [if_pos hsize.symm, List.take_left]
      refine ⟨_, rfl, rfl, rfl, ?_, ?_⟩
      · refine hws.imp fun w q ⟨htag, wire, hw, horigin⟩ => ⟨htags w q htag, ?_⟩
        obtain ⟨wire', hw', hproducer⟩ := hold w wire hw
        exact ⟨wire', hw', hproducer ▸ horigin⟩
      · simp only [Kernel.freshWires, hcount, hk.wires]
        exact tags_results _ _

/-- When an instruction can be appended, and what it makes. -/
private theorem Lowering.step_eq_ok {s s' : Lowering} (h : s.step ins = .ok s') :
    ∃ ws, ins.kind.isAlloc = false ∧
      List.Forall₂ (fun (q w : Nat) => s.current[q]? = some (some w)) ins.qubits ws ∧
      Kernel.FitsArity ins.kind ws.length ∧ s.kernel.Usable true ws ∧
      s'.kernel = (s.kernel.addOp ins.kind ws).1.placeLast [s.kernel.ops.size] ∧
      s'.current = s.current.moveTo ins.qubits (if ins.kind.isSink then ins.qubits.map fun _ => none
        else (s.kernel.freshWires (ins.kind.resultCount ws.length)).map some) := by
  unfold step at h
  split at h
  · cases h
  · rename_i halloc
    simp only [Except.bind_eq_ok, Current.wiresOf_eq_ok_iff, Kernel.apply,
      Kernel.create_eq_ok_iff] at h
    obtain ⟨ws, hws, ⟨k', results⟩, ⟨_, ⟨harity, husable, rfl⟩, hk⟩, hs⟩ := h
    cases hk
    cases hs
    exact ⟨ws, by simpa using halloc, hws, harity, husable, rfl, rfl⟩

/-- An instruction that can be appended is valid, and acts on no qubit that a sink has taken. -/
private theorem Lowering.step_valid {s : Lowering} (hf : s.Follows n done tags) {ws : List Nat}
    (halloc : ins.kind.isAlloc = false)
    (hws : List.Forall₂ (fun (q w : Nat) => s.current[q]? = some (some w)) ins.qubits ws)
    (harity : Kernel.FitsArity ins.kind ws.length) (hnodup : ws.Nodup) :
    ins.Valid n ∧ ∀ q ∈ ins.qubits, ¬ Sunk done q := by
  have hlt : ∀ q ∈ ins.qubits, q < n := by
    intro q hq
    obtain ⟨w, -, hw⟩ := forall₂_mem_left hws hq
    exact hf.size ▸ (Array.getElem?_eq_some_iff.mp hw).1
  refine ⟨⟨halloc, by rwa [hws.length_eq], ?_, hlt⟩, fun q hq hsunk => ?_⟩
  · refine nodup_of_forall₂ hws (fun q w w' hq hq' => ?_) hnodup
    exact Option.some.inj (Option.some.inj (hq.symm.trans hq'))
  · obtain ⟨w, -, hw⟩ := forall₂_mem_left hws hq
    cases hw.symm.trans ((hf.sunk q).mpr ⟨hlt q hq, hsunk⟩)

/-- The table of current wires after one more instruction. -/
private theorem Lowering.Follows.append {s s' : Lowering} (hk : Lowered n done tags s.kernel)
    (hf : s.Follows n done tags) (hvalid : ins.Valid n) (hfree : ∀ q ∈ ins.qubits, ¬ Sunk done q)
    {ws : List Nat}
    (hws : List.Forall₂ (fun (q w : Nat) => s.current[q]? = some (some w)) ins.qubits ws)
    (husable : s.kernel.Usable true ws)
    (hkernel : s'.kernel = (s.kernel.addOp ins.kind ws).1.placeLast [s.kernel.ops.size])
    (hcurrent : s'.current = s.current.moveTo ins.qubits
      (if ins.kind.isSink then ins.qubits.map fun _ => none
        else (s.kernel.freshWires (ins.kind.resultCount ws.length)).map some)) :
    s'.Follows n (done ++ [ins]) (tags ++ if ins.kind.isSink then [] else ins.qubits) := by
  have hcount : ins.kind.isSink ≠ true → ins.kind.resultCount ws.length = ins.qubits.length := by
    intro hsink
    rw [← hws.length_eq, length_results hvalid.alloc, if_neg hsink]
  have hmoved : ∀ {j q : Nat}, ins.qubits[j]? = some q → s'.current[q]? =
      some (if ins.kind.isSink then none else some (s.kernel.wires.size + j)) := by
    intro j q hj
    have hqlt : q < s.current.size := hf.size ▸ hvalid.lt q (List.mem_of_getElem? hj)
    rw [← Current.moveTo_next hvalid.nodup hj hqlt, hcurrent]
    split
    · rfl
    · rename_i hsink
      rw [hcount hsink, Kernel.freshWires]
  have hlt : ∀ w ∈ ws, w < s.kernel.wires.size := by
    intro w hw
    obtain ⟨wire, hwire, -⟩ := husable.wire w hw
    exact Kernel.lt_of_wire?_eq_some hwire
  refine ⟨?_, fun q w hw => ?_, fun q => ?_⟩
  · rw [hcurrent, Current.size_moveTo, hf.size]
  · rw [hkernel, Kernel.wire?_placeLast, Kernel.wire?_addOp hlt]
    by_cases hq : q ∈ ins.qubits
    · obtain ⟨j, hj⟩ := List.mem_iff_getElem?.mp hq
      have hjlt : j < ins.qubits.length := (List.getElem?_eq_some_iff.mp hj).1
      rw [hmoved hj] at hw
      split at hw
      · cases hw
      · rename_i hsink
        obtain rfl : s.kernel.wires.size + j = w := by simpa using hw
        have := hcount hsink
        refine ⟨?_, ⟨s.kernel.ops.size, j, []⟩, ?_, rfl, ?_⟩
        · rw [if_neg hsink, hk.wires, List.getElem?_append_right (by omega)]
          simpa using hj
        · rw [if_neg (by omega), if_pos (by omega), Nat.add_sub_cancel_left]
        · rw [hk.ops]
          exact Origin.append_of_mem hq
    · rw [hcurrent, Current.moveTo_of_not_mem hq] at hw
      obtain ⟨htag, wire, hwire, husers, horigin⟩ := hf.current q w hw
      -- the instruction takes wires of other qubits only
      have hnot : w ∉ ws := by
        intro hmem
        obtain ⟨r, hr, hr'⟩ := forall₂_mem_right hws hmem
        obtain rfl : q = r := Option.some.inj (htag.symm.trans (hf.current r w hr').1)
        exact hq hr
      refine ⟨?_, ?_⟩
      · rw [List.getElem?_append_left (List.getElem?_eq_some_iff.mp htag).1, htag]
      · rw [if_pos (Kernel.lt_of_wire?_eq_some hwire), hwire]
        refine ⟨_, rfl, ?_, horigin.append_of_not_mem hq⟩
        simp [husers, List.count_eq_zero_of_not_mem hnot]
  · rw [sunk_append]
    by_cases hq : q ∈ ins.qubits
    · obtain ⟨j, hj⟩ := List.mem_iff_getElem?.mp hq
      rw [hmoved hj]
      simp [hq, hfree q hq, hvalid.lt q hq]
    · rw [hcurrent, Current.moveTo_of_not_mem hq, hf.sunk]
      simp [hq]

/-- One more instruction keeps what lowering promises. -/
theorem Lowering.step_spec {s s' : Lowering} (hk : Lowered n done tags s.kernel)
    (hf : s.Follows n done tags) (h : s.step ins = .ok s') :
    (ins.Valid n ∧ ∀ q ∈ ins.qubits, ¬ Sunk done q) ∧
      ∃ tags', Lowered n (done ++ [ins]) tags' s'.kernel ∧ s'.Follows n (done ++ [ins]) tags' := by
  obtain ⟨ws, halloc, hws, harity, husable, hkernel, hcurrent⟩ := step_eq_ok h
  obtain ⟨hvalid, hfree⟩ := step_valid hf halloc hws harity husable.nodup
  have hcarry : List.Forall₂ (fun w q => tags[w]? = some q ∧
      ∃ wire, s.kernel.wire? w = some wire ∧ Origin n done q wire.producer) ws ins.qubits := by
    refine hws.flip.imp fun w q hq => ?_
    obtain ⟨htag, wire, hwire, -, horigin⟩ := hf.current q w hq
    exact ⟨htag, wire, hwire, horigin⟩
  refine ⟨⟨hvalid, hfree⟩, _, ?_, Follows.append hk hf hvalid hfree hws husable hkernel hcurrent⟩
  rw [hkernel]
  exact hk.append hvalid husable hcarry

/-- When an instruction can be appended. -/
theorem Lowering.step_isOk_iff {s : Lowering} (hk : Lowered n done tags s.kernel)
    (hf : s.Follows n done tags) :
    (∃ s', s.step ins = .ok s') ↔ ins.Valid n ∧ ∀ q ∈ ins.qubits, ¬ Sunk done q := by
  constructor
  · rintro ⟨s', h⟩
    exact (step_spec hk hf h).1
  · rintro ⟨hvalid, hfree⟩
    have hwire : ∀ q ∈ ins.qubits, ∃ w, s.current[q]? = some (some w) := by
      intro q hq
      have hlt : q < s.current.size := hf.size ▸ hvalid.lt q hq
      cases hslot : s.current[q] with
      | some w => exact ⟨w, by rw [Array.getElem?_eq_getElem hlt, hslot]⟩
      | none =>
          have hnone : s.current[q]? = some none := by rw [Array.getElem?_eq_getElem hlt, hslot]
          exact absurd ((hf.sunk q).mp hnone).2 (hfree q hq)
    obtain ⟨ws, hws⟩ := exists_forall₂ hwire
    have husable : s.kernel.Usable true ws := by
      constructor
      · refine nodup_of_forall₂ hws.flip (fun w q q' hq hq' => ?_) hvalid.nodup
        exact Option.some.inj ((hf.current q w hq).1.symm.trans (hf.current q' w hq').1)
      · intro w hw
        obtain ⟨q, hq, hq'⟩ := forall₂_mem_right hws hw
        obtain ⟨-, wire, hwire, husers, -⟩ := hf.current q w hq'
        exact ⟨wire, hwire, fun _ => husers⟩
    unfold step
    rw [if_neg (by simp [hvalid.alloc])]
    simp only [Except.bind_eq_ok, Current.wiresOf_eq_ok_iff, Kernel.apply, Kernel.create_eq_ok_iff]
    exact ⟨_, ws, hws, _, ⟨_, ⟨hws.length_eq ▸ hvalid.arity, husable, rfl⟩, rfl⟩, rfl⟩

/-- A program that is lowered is valid, and its kernel is one allocation for each qubit and one
operation for each instruction. -/
theorem Program.lower_spec {p : Program} {k : Kernel} (h : p.lower = .ok k) :
    ∃ tags, Lowered p.numQubits p.instructions tags k := by
  obtain ⟨s, hs, rfl⟩ := Except.map_eq_ok.mp h
  have hstart : ∃ tags, Lowered p.numQubits [] tags (Lowering.start p).kernel ∧
      (Lowering.start p).Follows p.numQubits [] tags := ⟨_, Lowering.start_spec p⟩
  obtain ⟨tags, hk, -⟩ := foldlM_invariant
    (fun done s => ∃ tags, Lowered p.numQubits done tags s.kernel ∧
      s.Follows p.numQubits done tags)
    (fun done ins s s' ⟨tags, hk, hf⟩ hs => (Lowering.step_spec hk hf hs).2) hstart hs
  exact ⟨tags, hk⟩

/-- When the rest of a program can be appended to its beginning. -/
private theorem Lowering.steps_isOk_iff (rest : List Instruction) :
    ∀ {done tags} {s : Lowering}, Lowered n done tags s.kernel → s.Follows n done tags →
      SinksLast (fun _ => true) done → ((∃ s', rest.foldlM Lowering.step s = .ok s') ↔
        (∀ ins ∈ rest, ins.Valid n) ∧ SinksLast (fun _ => true) (done ++ rest)) := by
  induction rest with
  | nil =>
      intro done tags s _ _ hdone
      simp [hdone, pure, Except.pure]
  | cons ins rest ih =>
      intro done tags s hk hf hdone
      rw [List.foldlM_cons, List.forall_mem_cons, List.append_cons]
      simp only [Except.bind_eq_ok]
      constructor
      · rintro ⟨s', s₁, h₁, h⟩
        obtain ⟨⟨hvalid, hfree⟩, tags', hk', hf'⟩ := step_spec hk hf h₁
        obtain ⟨hrest, hlast⟩ :=
          (ih hk' hf' (sinksLast_append.mpr ⟨hdone, fun _ => hfree⟩)).mp ⟨s', h⟩
        exact ⟨⟨hvalid, hrest⟩, hlast⟩
      · rintro ⟨⟨hvalid, hrest⟩, hlast⟩
        have hins : SinksLast (fun _ => true) (done ++ [ins]) := (List.pairwise_append.mp hlast).1
        obtain ⟨s₁, h₁⟩ := (step_isOk_iff hk hf).mpr ⟨hvalid, (sinksLast_append.mp hins).2 rfl⟩
        obtain ⟨-, tags', hk', hf'⟩ := step_spec hk hf h₁
        obtain ⟨s', h⟩ := (ih hk' hf' hins).mpr ⟨hrest, hlast⟩
        exact ⟨s', s₁, h₁, h⟩

/-- A program is lowered if its instructions are valid and act on no qubit behind a sink of it. -/
theorem Program.lower_isOk_iff {p : Program} :
    (∃ k, p.lower = .ok k) ↔ p.Valid ∧ SinksLast (fun _ => true) p.instructions := by
  obtain ⟨hk, hf⟩ := Lowering.start_spec p
  refine Iff.trans ?_ (Lowering.steps_isOk_iff p.instructions hk hf .nil)
  unfold lower
  simp only [Except.map_eq_ok]
  exact ⟨fun ⟨k, s, hs, _⟩ => ⟨s, hs⟩, fun ⟨s, hs⟩ => ⟨s.kernel, s, hs, rfl⟩⟩

end Steps

/-! ## Value semantics -/

/-- The kernel of a program is in value semantics. -/
theorem Lowered.verify {n : Nat} {done : List Instruction} {tags : List Nat} {k : Kernel}
    (h : Lowered n done tags k) : k.verify = .ok () := by
  rw [Kernel.verify_eq_ok_iff]
  have hlive : ∀ x < n + done.length, (k.op? x).isSome := by
    intro x hx
    by_cases hxn : x < n
    · rw [(h.source x hxn).1]
      rfl
    · have hi := List.getElem?_eq_getElem (show x - n < done.length by omega)
      obtain ⟨o, ho, -⟩ := h.instruction (x - n) _ hi
      rw [Nat.add_sub_cancel' (Nat.not_lt.mp hxn)] at ho
      rw [ho]
      rfl
  have hflat : k.blocks.flatten = List.range (n + done.length) := by simp [h.blocks]
  refine
    { operand := ?_
      result := fun x o hx w hw => h.consistent.producer_of_mem hx hw
      single := h.single
      live := fun x hx => hlive x (by simpa [hflat] using hx)
      placed := hflat ▸ List.nodup_range }
  intro x o hx w hw
  have hlt := h.consistent.operand x w (by rwa [Kernel.operandsOf_of_op? hx])
  obtain ⟨wire, hwire⟩ := Kernel.exists_wire hlt
  obtain ⟨o', ho', -⟩ := h.made w wire hwire
  exact ⟨wire, hwire, by rw [ho']; rfl⟩

/-! ## An example -/

/-- A gate on the outer two of three qubits and a measurement of one of them. -/
def Program.outerPair : Program where
  name := "outer pair"
  numQubits := 3
  instructions := [⟨.gate "cx" [], [0, 2]⟩, ⟨.measure (some "c"), [0]⟩]

end QubitMapper
