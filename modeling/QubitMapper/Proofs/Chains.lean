import Mathlib.Data.List.Enum
import Mathlib.Data.List.NodupEquivFin
import QubitMapper.Proofs.Labelling

/-!
# Chains of wires

A qubit runs through a kernel on a chain of wires: the operation that consumes a wire leaves the
qubit on its result at the same place, and so on until nothing consumes the wire, or until a sink.
In the kernel of a program the chain of each qubit passes through the instructions that list the
qubit, so that following wires tells the same as reading the instructions.

## Main results

* `Kernel.Consistent.chain_unique`: a chain is decided by where it begins.
* `Lowered.chain_iff`: the chain of a qubit of a program.
* `Program.lower_faithful`: when lowering succeeds, and what its kernel says of the program.
-/

namespace QubitMapper

namespace Kernel

/-- The operations that a qubit passes through from a wire on, each with the place of the wire among
its operands. -/
inductive Chain (k : Kernel) : Option Nat → List (Nat × Nat) → Prop where
  /-- The qubit has been sunk. -/
  | sunk : Chain k none []
  /-- Nothing consumes the wire. -/
  | last (w : Nat) (wire : Wire) (hw : k.wire? w = some wire) (hfree : wire.users = []) :
      Chain k (some w) []
  /-- The only user of the wire moves the qubit on. -/
  | next (w : Nat) (wire : Wire) (x j : Nat) (o : Operation) (rest : List (Nat × Nat))
      (hw : k.wire? w = some wire) (huser : wire.users = [x]) (ho : k.op? x = some o)
      (hj : o.operands[j]? = some w) (hrest : Chain k o.results[j]? rest) :
      Chain k (some w) ((x, j) :: rest)

/-- Places of an element that a list has once. -/
private theorem getElem?_inj_of_count {l : List Nat} {a i j : Nat} (hcount : l.count a = 1)
    (hi : l[i]? = some a) (hj : l[j]? = some a) : i = j := by
  have htwice : ∀ {i j : Nat}, i < j → l[i]? = some a → l[j]? = some a → False := by
    intro i j hij hi hj
    obtain ⟨hilt, rfl⟩ := List.getElem?_eq_some_iff.mp hi
    obtain ⟨hjlt, heq⟩ := List.getElem?_eq_some_iff.mp hj
    have hdup : List.Duplicate l[i] l :=
      List.duplicate_iff_exists_distinct_get.mpr ⟨⟨i, hilt⟩, ⟨j, hjlt⟩, hij, rfl, heq.symm⟩
    have := List.duplicate_iff_two_le_count.mp hdup
    omega
  rcases Nat.lt_trichotomy i j with hlt | rfl | hlt
  · exact (htwice hlt hi hj).elim
  · rfl
  · exact (htwice hlt hj hi).elim

/-- A chain is decided by where it begins. -/
theorem Consistent.chain_unique {k : Kernel} (hk : k.Consistent) {w : Option Nat}
    {l l' : List (Nat × Nat)} (h : k.Chain w l) (h' : k.Chain w l') : l = l' := by
  induction h generalizing l' with
  | sunk =>
      cases h'
      rfl
  | last w wire hw hfree =>
      cases h' with
      | last => rfl
      | next _ wire' x j o rest hw' huser =>
          cases hw.symm.trans hw'
          rw [hfree] at huser
          cases huser
  | next w wire x j o rest hw huser ho hj hrest ih =>
      cases h' with
      | last _ wire' hw' hfree =>
          cases hw.symm.trans hw'
          rw [huser] at hfree
          cases hfree
      | next _ wire' x' j' o' rest' hw' huser' ho' hj' hrest' =>
          cases hw.symm.trans hw'
          rw [huser] at huser'
          cases huser'
          cases ho.symm.trans ho'
          have hcount : o.operands.count w = 1 := by
            rw [← operandsOf_of_op? ho, ← hk.uses w wire hw x, huser]
            simp
          obtain rfl := getElem?_inj_of_count hcount hj hj'
          rw [ih hrest']

end Kernel

/-! ## Chains of lowered kernels -/

/-- Where instructions, numbered from `i` on, list a qubit: the operation of each of them that does
and the place of the qubit in it. -/
def visits (n q i : Nat) (instructions : List Instruction) : List (Nat × Nat) :=
  ((instructions.zipIdx i).filter (·.1.qubits.contains q)).map fun (ins, i) =>
    (n + i, ins.qubits.idxOf q)

section Lowered

variable {n q x y : Nat} {done : List Instruction} {ins : Instruction} {tags : List Nat}
  {k : Kernel}

theorem visits_cons_of_mem {i : Nat} {rest : List Instruction} (hq : q ∈ ins.qubits) :
    visits n q i (ins :: rest) = (n + i, ins.qubits.idxOf q) :: visits n q (i + 1) rest := by
  unfold visits
  rw [List.zipIdx_cons, List.filter_cons_of_pos (by simpa using hq), List.map_cons]

theorem visits_cons_of_not_mem {i : Nat} {rest : List Instruction} (hq : q ∉ ins.qubits) :
    visits n q i (ins :: rest) = visits n q (i + 1) rest := by
  unfold visits
  rw [List.zipIdx_cons, List.filter_cons_of_neg (by simpa using hq)]

theorem visits_eq_nil {i : Nat} {rest : List Instruction} (h : ∀ ins ∈ rest, q ∉ ins.qubits) :
    visits n q i rest = [] := by
  induction rest generalizing i with
  | nil => rfl
  | cons ins rest ih =>
      rw [List.forall_mem_cons] at h
      rw [visits_cons_of_not_mem h.1, ih h.2]

/-- The origin of a qubit is not before an operation that acts on it. -/
theorem Origin.le (h : Origin n done q x) {i : Nat} (hi : done[i]? = some ins)
    (hq : q ∈ ins.qubits) : n + i ≤ x := by
  cases h with
  | alloc h => exact absurd hq (h ins (List.mem_of_getElem? hi))
  | last j other hj hmem h =>
      by_contra hlt
      exact h i ins (by omega) hi hq

/-- A qubit has one origin. -/
theorem Origin.unique (h : Origin n done q x) (h' : Origin n done q y) : x = y := by
  cases h with
  | alloc h =>
      cases h' with
      | alloc => rfl
      | last i ins hi hq => exact absurd hq (h ins (List.mem_of_getElem? hi))
  | last i ins hi hq h =>
      cases h' with
      | alloc h' => exact absurd hq (h' ins (List.mem_of_getElem? hi))
      | last j other hj hq' h' =>
          rcases Nat.lt_trichotomy i j with hlt | rfl | hlt
          · exact absurd hq' (h j other hlt hj)
          · rfl
          · exact absurd hq (h' i ins hlt hi)

/-- The operation that consumes a wire does what an instruction that lists its qubit says, and the
wire comes from where the qubit was. -/
private theorem Lowered.user (hk : Lowered n done tags k) {w : Nat} {wire : Wire}
    (hw : k.wire? w = some wire) (htag : tags[w]? = some q) (hx : x ∈ wire.users) :
    ∃ i ins, x = n + i ∧ done[i]? = some ins ∧ q ∈ ins.qubits ∧
      Origin n (done.take i) q wire.producer := by
  have hmem : w ∈ k.operandsOf x := by
    rw [← List.count_pos_iff, ← hk.consistent.uses w wire hw x]
    exact List.count_pos_iff.mpr hx
  cases ho : k.op? x with
  | none => simp [Kernel.operandsOf, ho] at hmem
  | some o =>
      rw [Kernel.operandsOf_of_op? ho] at hmem
      have hxlt : x < n + done.length := hk.ops ▸ Kernel.lt_of_op?_eq_some ho
      have hge : n ≤ x := by
        by_contra hlt
        cases ho.symm.trans (hk.source x (Nat.lt_of_not_le hlt)).1
        cases hmem
      have hi := List.getElem?_eq_getElem (show x - n < done.length by omega)
      obtain ⟨o', ho', hencodes⟩ := hk.instruction (x - n) _ hi
      rw [Nat.add_sub_cancel' hge] at ho'
      cases ho.symm.trans ho'
      obtain ⟨q', hq', htag', wire', hwire', horigin⟩ := forall₂_mem_left hencodes.operands hmem
      cases htag.symm.trans htag'
      cases hw.symm.trans hwire'
      exact ⟨x - n, _, by omega, hi, hq', horigin⟩

/-- Two wires of one operation do not carry the same qubit. -/
private theorem Lowered.wire_unique (hk : Lowered n done tags k) {w w' : Nat} {wire wire' : Wire}
    (hw : k.wire? w = some wire) (hw' : k.wire? w' = some wire') (htag : tags[w]? = some q)
    (htag' : tags[w']? = some q) (hproducer : wire.producer = wire'.producer) : w = w' := by
  obtain ⟨o, ho, hmem⟩ := hk.made w wire hw
  obtain ⟨o', ho', hmem'⟩ := hk.made w' wire' hw'
  rw [hproducer] at ho
  cases ho.symm.trans ho'
  have hlt : wire'.producer < n + done.length := hk.ops ▸ Kernel.lt_of_op?_eq_some ho'
  by_cases hsource : wire'.producer < n
  · cases ho.symm.trans (hk.source _ hsource).1
    rw [List.mem_singleton] at hmem hmem'
    rw [hmem, hmem']
  · have hins := List.getElem?_eq_getElem (show wire'.producer - n < done.length by omega)
    obtain ⟨o', ho', hencodes⟩ := hk.instruction _ _ hins
    rw [Nat.add_sub_cancel' (Nat.not_lt.mp hsource)] at ho'
    cases ho.symm.trans ho'
    have hnodup := (hk.valid _ (List.mem_of_getElem? hins)).nodup
    obtain ⟨i, hi⟩ := List.mem_iff_getElem?.mp hmem
    obtain ⟨j, hj⟩ := List.mem_iff_getElem?.mp hmem'
    obtain ⟨r, hr, htagr⟩ := forall₂_getElem? hencodes.results hi
    obtain ⟨r', hr', htagr'⟩ := forall₂_getElem? hencodes.results hj
    cases htag.symm.trans htagr
    cases htag'.symm.trans htagr'
    split at hr
    · cases hr
    · rename_i hsink
      rw [if_neg hsink] at hr'
      have hlt := (List.getElem?_eq_some_iff.mp hr).1
      obtain rfl : i = j := (List.getElem?_inj hlt hnodup).mp (hr.trans hr'.symm)
      exact Option.some.inj (hi.symm.trans hj)

/-- The chain of a qubit from the wire that it is on after some instructions. -/
private theorem Lowered.chain_of_origin (hk : Lowered n done tags k)
    (hlast : done.Pairwise fun earlier later =>
      earlier.kind.isSink = true → ∀ q ∈ later.qubits, q ∉ earlier.qubits)
    (rest : List Instruction) :
    ∀ {before : List Instruction} {w : Nat} {wire : Wire}, done = before ++ rest →
      k.wire? w = some wire → tags[w]? = some q → Origin n before q wire.producer → q < n →
      k.Chain (some w) (visits n q before.length rest) := by
  induction rest with
  | nil =>
      intro before w wire hdone hw htag horigin hq
      rw [List.append_nil] at hdone
      subst hdone
      refine .last w wire hw (List.eq_nil_iff_forall_not_mem.mpr fun x hx => ?_)
      obtain ⟨i, ins, rfl, hi, hmem, horigin'⟩ := hk.user hw htag hx
      -- a user would act on the qubit behind the operation that left it on the wire
      have hle := horigin.le hi hmem
      have hlt := horigin'.lt hq
      rw [List.length_take] at hlt
      omega
  | cons ins rest ih =>
      intro before w wire hdone hw htag horigin hq
      have hdone' : done = (before ++ [ins]) ++ rest := by rw [hdone, List.append_assoc]; rfl
      have hlen : (before ++ [ins]).length = before.length + 1 := by simp
      by_cases hmem : q ∈ ins.qubits
      · have hi : done[before.length]? = some ins := by simp [hdone]
        obtain ⟨o, ho, hencodes⟩ := hk.instruction _ ins hi
        rw [show done.take before.length = before by simp [hdone]] at hencodes
        -- the wire that the instruction takes for the qubit is this one
        have hplace : ins.qubits[ins.qubits.idxOf q]? = some q := by
          rw [List.getElem?_eq_getElem (List.idxOf_lt_length_iff.mpr hmem),
            List.getElem_idxOf]
        obtain ⟨w', hj, htag', wire', hw', horigin'⟩ :=
          forall₂_getElem? hencodes.operands.flip hplace
        obtain rfl : w = w' := hk.wire_unique hw hw' htag htag' (horigin.unique horigin')
        have huser : wire.users = [n + before.length] := by
          have hcount : 0 < wire.users.count (n + before.length) := by
            rw [hk.consistent.uses w wire hw, Kernel.operandsOf_of_op? ho]
            exact List.count_pos_iff.mpr (List.mem_of_getElem? hj)
          have hmem := List.count_pos_iff.mp hcount
          have hone : wire.users.length = 1 :=
            Nat.le_antisymm (hk.single w wire hw) (List.length_pos_of_mem hmem)
          obtain ⟨y, hy⟩ := List.length_eq_one_iff.mp hone
          rw [hy, List.mem_singleton] at hmem
          rw [hy, hmem]
        rw [visits_cons_of_mem hmem]
        refine .next w wire _ _ o _ hw huser ho hj ?_
        by_cases hsink : ins.kind.isSink = true
        · have hresults : o.results = [] := by
            have := hencodes.results
            rw [if_pos hsink] at this
            exact List.forall₂_nil_right_iff.mp this
          have hnone : ∀ later ∈ rest, q ∉ later.qubits := by
            intro later hlater hmem'
            rw [hdone] at hlast
            exact (List.pairwise_cons.mp (List.pairwise_append.mp hlast).2.1).1 later hlater hsink q
              hmem' hmem
          rw [hresults, List.getElem?_nil, visits_eq_nil hnone]
          exact .sunk
        · have hresults := hencodes.results
          rw [if_neg hsink] at hresults
          obtain ⟨r, hr, htagr⟩ := forall₂_getElem? hresults.flip hplace
          obtain ⟨users, hwr⟩ := hk.consistent.result _ o ho _ r hr
          rw [hr, ← hlen]
          exact ih hdone' hwr htagr (Origin.append_of_mem hmem) hq
      · rw [visits_cons_of_not_mem hmem, ← hlen]
        exact ih hdone' hw htag (horigin.append_of_not_mem hmem) hq

/-- The chain of a qubit passes through the instructions that list it, in order, at the places where
they list it. -/
theorem Lowered.chain_iff (hk : Lowered n done tags k)
    (hlast : done.Pairwise fun earlier later =>
      earlier.kind.isSink = true → ∀ q ∈ later.qubits, q ∉ earlier.qubits) (hq : q < n)
    {l : List (Nat × Nat)} : k.Chain (some q) l ↔ l = visits n q 0 done := by
  obtain ⟨hop, htag⟩ := hk.source q hq
  obtain ⟨users, hw⟩ := hk.consistent.result q _ hop 0 q rfl
  have hchain : k.Chain (some q) (visits n q 0 done) :=
    hk.chain_of_origin hlast done (List.nil_append done).symm hw htag (.alloc (by simp)) hq
  constructor
  · exact fun h => hk.consistent.chain_unique h hchain
  · rintro rfl
    exact hchain

/-- Labelling gives the operands of an operation the qubits of its instruction. -/
theorem Lowered.labels_operands (hk : Lowered n done tags k) {l : Labelling}
    (hl : Labelling.ofKernel k = .ok l) {i : Nat} (hi : done[i]? = some ins) {o : Operation}
    (ho : k.op? (n + i) = some o) : o.operands.map (l.labels[·]?) = ins.qubits.map some := by
  obtain ⟨o', ho', hencodes⟩ := hk.instruction i ins hi
  cases ho.symm.trans ho'
  rw [← List.forall₂_eq_eq_eq, List.forall₂_map_left_iff, List.forall₂_map_right_iff]
  exact hencodes.operands.imp fun w q ⟨htag, _⟩ => ((Labelling.ofKernel_spec hk hl).2 w).trans htag

end Lowered

/-! ## Lowering -/

/-- What an instruction must be to be lowered, kind by kind. -/
theorem Instruction.valid_iff {n : Nat} {ins : Instruction} :
    ins.Valid n ↔ ins.kind ≠ .alloc ∧ ins.qubits.Nodup ∧ (∀ q ∈ ins.qubits, q < n) ∧
      (ins.kind = .reset ∨ ins.kind = .sink → ins.qubits.length = 1) ∧
      (ins.kind = .swap → ins.qubits.length = 2) := by
  constructor
  · rintro ⟨halloc, harity, hnodup, hlt⟩
    refine ⟨?_, hnodup, hlt, ?_, ?_⟩
    · rintro hkind
      simp [hkind, OpKind.isAlloc] at halloc
    · rintro (hkind | hkind)
      · exact (harity 1 (by rw [hkind]; rfl)).symm
      · exact (harity 1 (by rw [hkind]; rfl)).symm
    · rintro hkind
      exact (harity 2 (by rw [hkind]; rfl)).symm
  · rintro ⟨halloc, hnodup, hlt, hone, htwo⟩
    refine ⟨?_, fun m hm => ?_, hnodup, hlt⟩
    · cases hkind : ins.kind <;> first | rfl | exact absurd hkind halloc
    · cases hkind : ins.kind with
      | alloc => exact absurd hkind halloc
      | reset =>
          rw [hkind] at hm
          cases hm
          exact (hone (.inl hkind)).symm
      | sink =>
          rw [hkind] at hm
          cases hm
          exact (hone (.inr hkind)).symm
      | swap =>
          rw [hkind] at hm
          cases hm
          exact (htwo hkind).symm
      | gate name params =>
          rw [hkind] at hm
          cases hm
      | measure register =>
          rw [hkind] at hm
          cases hm
      | unknown name =>
          rw [hkind] at hm
          cases hm

/-- Lowering succeeds exactly on programs without allocations whose instructions list distinct
qubits of the program, as many as their kind asks for, none of them sunk before. Their kernels are
in value semantics, and the entry block is the allocations in the order of the qubits and one
operation of the same kind for each instruction in order. The chain of each qubit from its
allocation on passes through exactly the instructions that list the qubit, in order, at the places
where they list it, and labelling gives the operands of each operation the qubits of its
instruction. -/
theorem Program.lower_faithful (p : Program) :
    ((∃ k, p.lower = .ok k) ↔
      (∀ ins ∈ p.instructions, ins.kind ≠ .alloc ∧ ins.qubits.Nodup ∧
        (∀ q ∈ ins.qubits, q < p.numQubits) ∧
        (ins.kind = .reset ∨ ins.kind = .sink → ins.qubits.length = 1) ∧
        (ins.kind = .swap → ins.qubits.length = 2)) ∧
      p.instructions.Pairwise fun earlier later =>
        earlier.kind.isSink = true → ∀ q ∈ later.qubits, q ∉ earlier.qubits) ∧
    ∀ k, p.lower = .ok k → k.verify = .ok () ∧
      k.entry = List.range (p.numQubits + p.instructions.length) ∧
      (∀ q < p.numQubits,
        k.op? q = some { kind := .alloc, operands := [], results := [q] }) ∧
      (∀ i ins, p.instructions[i]? = some ins →
        ∃ o, k.op? (p.numQubits + i) = some o ∧ o.kind = ins.kind) ∧
      (∀ q < p.numQubits, ∀ l,
        k.Chain (some q) l ↔ l = visits p.numQubits q 0 p.instructions) ∧
      ∀ l, Labelling.ofKernel k = .ok l → ∀ i ins o, p.instructions[i]? = some ins →
        k.op? (p.numQubits + i) = some o → o.operands.map (l.labels[·]?) = ins.qubits.map some := by
  have hlast : SinksLast (fun _ => true) p.instructions ↔
      p.instructions.Pairwise fun earlier later =>
        earlier.kind.isSink = true → ∀ q ∈ later.qubits, q ∉ earlier.qubits := by
    refine List.Pairwise.iff fun earlier later => ?_
    exact ⟨fun h hsink q hq hq' => h hsink rfl q hq' hq, fun h hsink _ q hq hq' => h hsink q hq' hq⟩
  have hiff := p.lower_isOk_iff.trans (and_congr
    (forall₂_congr fun ins _ => Instruction.valid_iff) hlast)
  refine ⟨hiff, fun k hk => ?_⟩
  obtain ⟨tags, hlowered⟩ := Program.lower_spec hk
  refine ⟨hlowered.verify, by rw [Kernel.entry, hlowered.blocks]; rfl,
    fun q hq => (hlowered.source q hq).1, fun i ins hi => ?_, fun q hq l => ?_,
    fun l hl i ins o hi ho => hlowered.labels_operands hl hi ho⟩
  · obtain ⟨o, ho, hencodes⟩ := hlowered.instruction i ins hi
    exact ⟨o, ho, hencodes.kind⟩
  · exact hlowered.chain_iff (hiff.mp ⟨k, hk⟩).2 hq

end QubitMapper
