import Mathlib.Data.List.InsertIdx
import Mathlib.Data.List.Perm.Lattice
import QubitMapper.Proofs.Kernel.Consistent
import QubitMapper.Proofs.Kernel.InPlace
import QubitMapper.Proofs.Kernel.Order

/-!
# Kernels reached by calls

A kernel begins empty and is built and edited by calls, in any order and with any arguments; a call
that fails leaves it as it was. Whatever the calls, the kernel stays *coherent*: the use lists agree
with the operands, the results with the producers, and the blocks list live operations, none twice.
A coherent kernel names no wire that it does not have, so that no call goes wrong on it, also if it
is performed in place.

## Main results

* `Kernel.Coherent.call`, `Kernel.Coherent.calls`: a call keeps a kernel coherent, and so do calls.
* `Kernel.Consistent.faultless_run`: on a kernel like this no call goes wrong.
* `Kernel.Consistent.perform_eq`: performed in place, a call does the same.
* `Kernel.calls_empty_spec`: what is true of every kernel that calls have reached.
-/

namespace QubitMapper

/-! ## Steps that cannot go wrong -/

section Faultless

variable {α β : Type}

/-- A step that succeeds or fails, but does not break a rule promised for its kernel. -/
def Faultless (x : Except CircuitError α) : Prop := ∀ f : Fault, x ≠ .error (.fault f)

theorem faultless_ok {a : α} : Faultless (.ok a) := fun _ h => by cases h

theorem faultless_error {e : CircuitError} (he : ∀ f, e ≠ .fault f) :
    Faultless (.error e : Except CircuitError α) := by
  intro f h
  cases h
  exact he f rfl

theorem Faultless.map {x : Except CircuitError α} (hx : Faultless x) (f : α → β) :
    Faultless (f <$> x) := by
  cases x with
  | ok a => exact faultless_ok
  | error e =>
      intro fault h
      cases h
      exact hx fault rfl

theorem Faultless.bind {x : Except CircuitError α} {f : α → Except CircuitError β}
    (hx : Faultless x) (hf : ∀ a, Faultless (f a)) : Faultless (x >>= f) := by
  cases x with
  | ok a => exact hf a
  | error e =>
      intro fault h
      cases h
      exact hx fault rfl

theorem Faultless.mapM {f : α → Except CircuitError β} {l : List α}
    (hf : ∀ a ∈ l, Faultless (f a)) : Faultless (l.mapM f) := by
  induction l with
  | nil => exact faultless_ok
  | cons a rest ih =>
      rw [List.forall_mem_cons] at hf
      rw [List.mapM_cons]
      exact hf.1.bind fun b => (ih hf.2).bind fun bs => faultless_ok

end Faultless

namespace Kernel

variable {k k' : Kernel} {x b : Nat} {kind : OpKind} {ws : List Nat}

/-! ## Operations of all blocks -/

/-- The operations of a block and those of the other blocks. -/
theorem flatten_perm {ops : List Nat} (hb : k.blocks[b]? = some ops) :
    k.blocks.flatten.Perm (ops ++ k.opsElsewhere b) := by
  obtain ⟨hlt, hget⟩ := List.getElem?_eq_some_iff.mp hb
  have hblocks : k.blocks = k.blocks.take b ++ ops :: k.blocks.drop (b + 1) := by
    rw [← hget, List.cons_getElem_drop_succ, List.take_append_drop]
  rw [opsElsewhere, List.eraseIdx_eq_take_drop_succ]
  nth_rewrite 1 [hblocks]
  simp only [List.flatten_append, List.flatten_cons]
  rw [← List.append_assoc, ← List.append_assoc]
  exact List.perm_append_comm.append_right _

/-- The operations of the entry block are among those of all blocks. -/
theorem entry_sublist (k : Kernel) : k.entry.Sublist k.blocks.flatten := by
  unfold entry
  cases k.blocks with
  | nil => exact List.Sublist.refl _
  | cons ops rest => exact List.sublist_append_left ops _

@[simp] theorem opsElsewhere_setBlock (ops : List Nat) :
    (k.setBlock b ops).opsElsewhere b = k.opsElsewhere b := by
  simp [opsElsewhere, setBlock, List.eraseIdx_set_eq]

/-- Use lists agree with operands and results with producers, and the blocks list live operations,
none twice. -/
structure Coherent (k : Kernel) : Prop extends k.Consistent where
  live : ∀ x ∈ k.blocks.flatten, (k.op? x).isSome
  placed : k.blocks.flatten.Nodup

namespace Coherent

theorem empty (name : String) : (Kernel.empty name).Coherent where
  uses w wire hw := by simp [Kernel.empty, wire?] at hw
  operand x w hw := by simp [Kernel.empty, operandsOf, op?] at hw
  result x o hx := by simp [Kernel.empty, op?] at hx
  producer w wire hw := by simp [Kernel.empty, wire?] at hw
  live := by simp [Kernel.empty]
  placed := by simp [Kernel.empty]

/-- No operation is placed that the kernel does not have. -/
theorem not_placed (hk : k.Coherent) (hx : k.op? x = none) : x ∉ k.blocks.flatten := by
  intro hmem
  simpa [hx] using hk.live x hmem

/-- A block may list other operations, if they are live and in no other block. -/
theorem setBlock (hk : k.Coherent) {ops : List Nat} (hops : ∀ x ∈ ops, (k.op? x).isSome ∧
    x ∉ k.opsElsewhere b) (hnodup : ops.Nodup) : (k.setBlock b ops).Coherent := by
  have hconsistent : (k.setBlock b ops).Consistent := hk.toConsistent.setBlock b ops
  by_cases hb : b < k.blocks.length
  · have hold := flatten_perm (List.getElem?_eq_getElem hb)
    have hnew : (k.setBlock b ops).blocks.flatten.Perm (ops ++ k.opsElsewhere b) := by
      rw [← opsElsewhere_setBlock ops]
      exact flatten_perm (by simp [Kernel.setBlock, hb])
    refine ⟨hconsistent, fun x hx => ?_, hnew.nodup_iff.mpr ?_⟩
    · rcases List.mem_append.mp (hnew.mem_iff.mp hx) with hx | hx
      · exact (hops x hx).1
      · exact hk.live x (hold.mem_iff.mpr (List.mem_append_right _ hx))
    · have helsewhere := (List.nodup_append.mp (hold.nodup_iff.mp hk.placed)).2.1
      refine List.nodup_append.mpr ⟨hnodup, helsewhere, ?_⟩
      rintro x hx _ hx' rfl
      exact (hops x hx).2 hx'
  · have hsame : k.blocks.set b ops = k.blocks := List.set_eq_of_length_le (Nat.le_of_not_lt hb)
    exact ⟨hconsistent, by simpa [Kernel.setBlock, hsame] using hk.live,
      by simpa [Kernel.setBlock, hsame] using hk.placed⟩

/-! ## Changes -/

/-- A new operation on existing wires is in no block. -/
theorem addOp (hk : k.Coherent) (hws : ∀ w ∈ ws, w < k.wires.size) :
    (k.addOp kind ws).1.Coherent := by
  refine ⟨hk.toConsistent.addOp hws, fun x hx => ?_, ?_⟩
  · rw [blocks_addOp] at hx
    obtain ⟨o, ho⟩ := Option.isSome_iff_exists.mp (hk.live x hx)
    rw [op?_addOp_of_eq_some ho]
    rfl
  · rw [blocks_addOp]
    exact hk.placed

/-- A live operation that is in no block may be placed at the end. -/
theorem placeLast (hk : k.Coherent) (hlive : (k.op? x).isSome) (hx : x ∉ k.blocks.flatten) :
    (k.placeLast [x]).Coherent := by
  refine ⟨hk.toConsistent.congr ops_placeLast wires_placeLast, fun y hy => ?_, ?_⟩
  · rw [flatten_placeLast] at hy
    rw [op?_placeLast]
    rcases List.mem_append.mp hy with hy | hy
    · exact hk.live y hy
    · rw [List.mem_singleton.mp hy]
      exact hlive
  · rw [flatten_placeLast, List.nodup_append]
    refine ⟨hk.placed, List.nodup_singleton x, ?_⟩
    rintro y hy _ hz rfl
    exact hx (List.mem_singleton.mp hz ▸ hy)

theorem create (hk : k.Coherent) {unused : Bool} {out : Kernel × Nat × List Nat}
    (h : k.create kind ws unused = .ok out) : out.1.Coherent ∧ (out.1.op? out.2.1).isSome ∧
      out.1.blocks = k.blocks ∧ out.2.1 ∉ k.blocks.flatten := by
  obtain ⟨-, husable, rfl⟩ := create_eq_ok_iff.mp h
  refine ⟨hk.addOp husable.lt, ?_, blocks_addOp kind ws,
    hk.not_placed (op?_eq_none_of_le (Nat.le_refl _))⟩
  show ((k.addOp kind ws).1.op? k.ops.size).isSome
  rw [op?_addOp, if_pos rfl]
  rfl

theorem apply (hk : k.Coherent) {out : Kernel × List Nat} (h : k.apply kind ws = .ok out) :
    out.1.Coherent := by
  obtain ⟨⟨k₁, op, results⟩, hcreate, h⟩ := Except.bind_eq_ok.mp h
  cases h
  obtain ⟨hk₁, hlive, hblocks, hnot⟩ := hk.create hcreate
  exact hk₁.placeLast hlive (by rwa [hblocks])

theorem alloc (hk : k.Coherent) : k.alloc.1.Coherent := by
  have hnone : k.op? k.ops.size = none := op?_eq_none_of_le (Nat.le_refl _)
  refine (hk.addOp (by simp)).placeLast ?_ (by rw [blocks_addOp]; exact hk.not_placed hnone)
  show ((k.addOp .alloc []).1.op? k.ops.size).isSome
  rw [op?_addOp, if_pos rfl]
  rfl

theorem addBlock (hk : k.Coherent) : k.addBlock.1.Coherent := by
  have hflatten : k.addBlock.1.blocks.flatten = k.blocks.flatten := by simp [Kernel.addBlock]
  refine ⟨hk.toConsistent.congr rfl rfl, fun x hx => ?_, by rw [hflatten]; exact hk.placed⟩
  exact hk.live x (hflatten ▸ hx)

theorem insert (hk : k.Coherent) {position : Nat} {out : Kernel × Nat × List Nat}
    (h : k.insert b position kind ws = .ok out) : out.1.Coherent := by
  obtain ⟨ops, hops, h⟩ := Except.bind_eq_ok.mp h
  rw [block_eq_ok_iff] at hops
  split at h
  · cases h
  · rename_i hposition
    obtain ⟨⟨k₁, op, results⟩, hcreate, h⟩ := Except.bind_eq_ok.mp h
    cases h
    obtain ⟨hk₁, hlive, hblocks, hnot⟩ := hk.create hcreate
    have hperm : (ops.insertIdx position op).Perm (op :: ops) :=
      List.perm_insertIdx op ops (Nat.le_of_not_lt hposition)
    have hops₁ : k₁.blocks[b]? = some ops := by rw [hblocks, hops]
    have hall := flatten_perm hops₁
    have hnodup := List.nodup_append.mp (hall.nodup_iff.mp hk₁.placed)
    have hnot₁ : op ∉ ops ++ k₁.opsElsewhere b := by
      rw [← hall.mem_iff, hblocks]
      exact hnot
    rw [List.mem_append, not_or] at hnot₁
    refine hk₁.setBlock (fun x hx => ?_) (hperm.nodup_iff.mpr (hnodup.1.cons hnot₁.1))
    rcases List.mem_cons.mp (hperm.mem_iff.mp hx) with rfl | hx
    · exact ⟨hlive, hnot₁.2⟩
    · exact ⟨hk₁.live x (hall.mem_iff.mpr (List.mem_append_left _ hx)),
        fun hx' => hnodup.2.2 x hx x hx' rfl⟩

theorem setOperands (hk : k.Coherent) (h : k.setOperands x ws = .ok k') : k'.Coherent := by
  obtain ⟨hws, o, hx, -, -, rfl⟩ := setOperands_eq_ok_iff.mp h
  refine ⟨hk.toConsistent.rewired hx hws, fun y hy => ?_, ?_⟩
  · rw [blocks_rewired] at hy
    rw [op?_rewired]
    split
    · simp [hx]
    · exact hk.live y hy
  · rw [blocks_rewired]
    exact hk.placed

theorem erase (hk : k.Coherent) {out : Kernel × Operation} (h : k.erase x = .ok out) :
    out.1.Coherent := by
  obtain ⟨o, hx, -, -, rfl⟩ := erase_eq_ok_iff.mp h
  have hflatten : (k.without x o.operands).blocks.flatten =
      k.blocks.flatten.filter (· != x) := by
    rw [blocks_without, List.filter_flatten]
  refine ⟨hk.toConsistent.without hx, fun y hy => ?_, ?_⟩
  · rw [hflatten, List.mem_filter, bne_iff_ne] at hy
    rw [op?_without, if_neg (Ne.symm hy.2)]
    exact hk.live y hy.1
  · rw [hflatten]
    exact hk.placed.filter _

theorem setBlockOrder (hk : k.Coherent) {order : List Nat}
    (h : k.setBlockOrder b order = .ok k') : k'.Coherent := by
  obtain ⟨current, -, horder, hnodup, -, rfl⟩ := setBlockOrder_eq_ok_iff.mp h
  exact hk.setBlock horder hnodup

theorem sortBlock (hk : k.Coherent) (h : k.sortBlock b = .ok k') : k'.Coherent := by
  obtain ⟨order, sorted, horder, hperm, rfl⟩ := sortBlock_perm h
  have hall := flatten_perm horder
  have hnodup := List.nodup_append.mp (hall.nodup_iff.mp hk.placed)
  refine hk.setBlock (fun x hx => ?_) (hperm.nodup_iff.mpr hnodup.1)
  have hx' := hperm.mem_iff.mp hx
  exact ⟨hk.live x (hall.mem_iff.mpr (List.mem_append_left _ hx')),
    fun helsewhere => hnodup.2.2 x hx' x helsewhere rfl⟩

/-- A change that keeps operands and results keeps a kernel coherent. -/
theorem modifyOp (hk : k.Coherent) {f : Operation → Operation}
    (hf : ∀ o, (f o).operands = o.operands ∧ (f o).results = o.results) :
    (k.modifyOp x f).Coherent := by
  refine ⟨hk.toConsistent.modifyOp hf, fun y hy => ?_, hk.placed⟩
  rw [op?_modifyOp]
  have hlive := hk.live y hy
  split
  · rename_i heq
    subst heq
    rwa [Option.isSome_map]
  · exact hlive

theorem setPhysical (hk : k.Coherent) (physical : List Nat) :
    (k.modifyOp x ({ · with physical })).Coherent :=
  hk.modifyOp fun _ => ⟨rfl, rfl⟩

end Coherent

/-! ## Calls -/

/-- A call that builds or edits a kernel. The named builders are `apply` with their kinds. -/
inductive Call where
  | alloc
  | apply (kind : OpKind) (operands : List Nat)
  | addBlock
  | create (kind : OpKind) (operands : List Nat)
  | insert (block position : Nat) (kind : OpKind) (operands : List Nat)
  | setOperands (op : Nat) (operands : List Nat)
  | erase (op : Nat)
  | setBlockOrder (block : Nat) (order : List Nat)
  | sort (block : Nat)
  /-- The physical qubits of an operation, set on the operation itself if it is there. -/
  | setPhysical (op : Nat) (physical : List Nat)

/-- The kernel that a call makes of another, or the error that it returns. -/
def Call.run (k : Kernel) : Call → Except CircuitError Kernel
  | alloc => .ok k.alloc.1
  | apply kind operands => (·.1) <$> k.apply kind operands
  | addBlock => .ok k.addBlock.1
  | create kind operands => (·.1) <$> k.create kind operands
  | insert block position kind operands => (·.1) <$> k.insert block position kind operands
  | setOperands op operands => k.setOperands op operands
  | erase op => (·.1) <$> k.erase op
  | setBlockOrder block order => k.setBlockOrder block order
  | sort block => k.sortBlock block
  | setPhysical op physical => .ok (k.modifyOp op ({ · with physical }))

/-- A call performed in place. -/
def perform : Call → Edit Unit
  | .alloc => discard Edit.alloc
  | .apply kind operands => discard (Edit.apply kind operands)
  | .addBlock => modify (·.addBlock.1)
  | .create kind operands => discard (Edit.create kind operands)
  | .insert block position kind operands => discard (Edit.insert block position kind operands)
  | .setOperands op operands => Edit.setOperands op operands
  | .erase op => discard (Edit.erase op)
  | .setBlockOrder block order => Edit.setBlockOrder block order
  | .sort block => Edit.sortBlock block
  | .setPhysical op physical => modify (·.modifyOp op ({ · with physical }))

/-- The kernel after a call. -/
def call (k : Kernel) (c : Call) : Kernel :=
  match c.run k with
  | .ok k' => k'
  | .error _ => k

/-- The kernel after some calls. -/
def calls (k : Kernel) (cs : List Call) : Kernel := cs.foldl call k

namespace Coherent

/-- A call that succeeds keeps a kernel coherent. -/
theorem run (hk : k.Coherent) {c : Call} (h : c.run k = .ok k') : k'.Coherent := by
  cases c with
  | alloc => cases h; exact hk.alloc
  | apply kind operands =>
      obtain ⟨out, hout, rfl⟩ := Except.map_eq_ok.mp h
      exact hk.apply hout
  | addBlock => cases h; exact hk.addBlock
  | create kind operands =>
      obtain ⟨out, hout, rfl⟩ := Except.map_eq_ok.mp h
      exact (hk.create hout).1
  | insert block position kind operands =>
      obtain ⟨out, hout, rfl⟩ := Except.map_eq_ok.mp h
      exact hk.insert hout
  | setOperands op operands => exact hk.setOperands h
  | erase op =>
      obtain ⟨out, hout, rfl⟩ := Except.map_eq_ok.mp h
      exact hk.erase hout
  | setBlockOrder block order => exact hk.setBlockOrder h
  | sort block => exact hk.sortBlock h
  | setPhysical op physical => cases h; exact hk.setPhysical physical

/-- A call keeps a kernel coherent, be it that it succeeds or that it fails. -/
theorem call (hk : k.Coherent) (c : Call) : (k.call c).Coherent := by
  unfold Kernel.call
  split
  · rename_i k' h
    exact hk.run h
  · exact hk

/-- Calls keep a kernel coherent. -/
theorem calls (hk : k.Coherent) (cs : List Call) : (k.calls cs).Coherent := by
  induction cs generalizing k with
  | nil => exact hk
  | cons c rest ih => exact ih (hk.call c)

end Coherent

/-- A kernel made by calls, and by changes of what only labels it: the kinds of its operations, its
level and its mapping. -/
inductive Built : Kernel → Prop
  | empty (name : String) : Built (empty name)
  | call {k : Kernel} (hk : Built k) (c : Call) : Built (k.call c)
  | setKind {k : Kernel} (hk : Built k) (op : Nat) (kind : OpKind) :
      Built (k.modifyOp op ({ · with kind }))
  | setLevel {k : Kernel} (hk : Built k) (level : Level) : Built { k with level }
  | setMapping {k : Kernel} (hk : Built k) (mapping : List Nat) :
      Built { k with mapping := some mapping }

/-- Calls take a kernel on. -/
theorem Built.calls (hk : k.Built) (cs : List Call) : (k.calls cs).Built := by
  induction cs generalizing k with
  | nil => exact hk
  | cons c rest ih => exact ih (hk.call c)

theorem Built.coherent (hk : k.Built) : k.Coherent := by
  induction hk with
  | empty name => exact Coherent.empty name
  | call _ c ih => exact ih.call c
  | setKind _ op kind ih => exact ih.modifyOp fun _ => ⟨rfl, rfl⟩
  | setLevel _ level ih => exact ⟨ih.toConsistent.congr rfl rfl, ih.live, ih.placed⟩
  | setMapping _ mapping ih => exact ⟨ih.toConsistent.congr rfl rfl, ih.live, ih.placed⟩

/-! ## Calls do not go wrong -/

theorem faultless_block : Faultless (k.block b) := by
  unfold block
  split
  · exact faultless_ok
  · exact faultless_error (by simp)

private theorem faultless_checkOperands {name : String} {unused : Bool} (ws : List Nat) :
    ∀ {seen : List Nat}, Faultless (k.checkOperands name unused seen ws) := by
  induction ws with
  | nil => exact faultless_ok
  | cons w rest ih =>
      intro seen
      unfold checkOperands
      split
      · exact faultless_error (by simp)
      · split
        · exact faultless_error (by simp)
        · split
          · exact faultless_error (by simp)
          · exact ih

theorem faultless_create {unused : Bool} : Faultless (k.create kind ws unused) := by
  have harity : Faultless (checkArity kind ws.length) := by
    unfold checkArity
    split
    · exact faultless_ok
    · split
      · exact faultless_ok
      · exact faultless_error (by simp)
  exact harity.bind fun _ => (faultless_checkOperands ws).bind fun _ => faultless_ok

private theorem faultless_checkOrder {elsewhere : List Nat} (order : List Nat) :
    ∀ {seen : List Nat}, Faultless (k.checkOrder b elsewhere seen order) := by
  induction order with
  | nil => exact faultless_ok
  | cons x rest ih =>
      intro seen
      unfold checkOrder
      split
      · exact faultless_error (by simp)
      · split
        · exact faultless_error (by simp)
        · split
          · exact faultless_error (by simp)
          · exact ih

theorem faultless_setBlockOrder {order : List Nat} : Faultless (k.setBlockOrder b order) := by
  refine faultless_block.bind fun current => (faultless_checkOrder order).bind fun _ => ?_
  split
  · exact faultless_error (by simp)
  · exact faultless_ok

namespace Consistent

/-- The operands of an operation are there to be rewired. -/
theorem missingWire?_operands (hk : k.Consistent) {o : Operation} (hx : k.op? x = some o) :
    k.missingWire? o.operands = none :=
  missingWire?_eq_none_iff.mpr (operandsOf_of_op? hx ▸ hk.operand x)

theorem faultless_setOperands (hk : k.Consistent) : Faultless (k.setOperands x ws) := by
  unfold setOperands
  split
  · exact faultless_error (by simp)
  · split
    · exact faultless_error (by simp)
    · rename_i o ho
      split
      · exact faultless_error (by simp)
      · rw [hk.missingWire?_operands ho]
        exact faultless_ok

theorem faultless_erase (hk : k.Consistent) : Faultless (k.erase x) := by
  unfold erase
  split
  · exact faultless_error (by simp)
  · rename_i o ho
    split
    · rename_i w hw
      obtain ⟨wire, hwire, -⟩ := hk.producer_of_mem ho (List.mem_of_find?_eq_some hw)
      simp only [hwire, Option.isSome_some, ↓reduceIte]
      exact faultless_error (by simp)
    · rw [hk.missingWire?_operands ho]
      exact faultless_ok

theorem faultless_sortBlock (hk : k.Consistent) : Faultless (k.sortBlock b) := by
  have hpending {order} : Faultless (k.pending order) := by
    refine Faultless.mapM fun entry _ => Faultless.bind ?_ fun needs => faultless_ok
    unfold producerPositions
    split
    · exact faultless_ok
    · rename_i o ho
      refine Faultless.bind (Faultless.mapM fun w hw => Faultless.map ?_ _) fun _ => faultless_ok
      obtain ⟨wire, hwire⟩ := exists_wire (hk.operand _ w (operandsOf_of_op? ho ▸ hw))
      rw [Kernel.wire, hwire]
      exact faultless_ok
  refine faultless_block.bind fun order => hpending.bind fun ps => ?_
  split
  · exact faultless_error (by simp)
  · exact faultless_ok

/-- On a kernel that is consistent no call goes wrong. -/
theorem faultless_run (hk : k.Consistent) (c : Call) : Faultless (c.run k) := by
  cases c with
  | alloc => exact faultless_ok
  | apply kind operands => exact (faultless_create.bind fun _ => faultless_ok).map _
  | addBlock => exact faultless_ok
  | create kind operands => exact faultless_create.map _
  | insert block position kind operands =>
      refine Faultless.map (faultless_block.bind fun ops => ?_) _
      split
      · exact faultless_error (by simp)
      · exact faultless_create.bind fun _ => faultless_ok
  | setOperands op operands => exact hk.faultless_setOperands
  | erase op => exact hk.faultless_erase.map _
  | setBlockOrder block order => exact faultless_setBlockOrder
  | sort block => exact hk.faultless_sortBlock
  | setPhysical op physical => exact faultless_ok

/-- Performed in place, a call ends with the kernel that it makes, or with an error and the kernel
as it was. -/
theorem perform_eq (hk : k.Consistent) (c : Call) :
    perform c k = Edit.outcome k ((·, ()) <$> c.run k) := by
  cases c with
  | alloc => exact Edit.discard_eq (Edit.alloc_eq k)
  | apply kind operands => exact Edit.discard_eq (Edit.apply_eq kind operands k)
  | addBlock => rfl
  | create kind operands => exact Edit.discard_eq (Edit.create_eq kind operands false k)
  | insert block position kind operands =>
      exact Edit.discard_eq (Edit.insert_eq block position kind operands k)
  | setOperands op operands => exact Edit.setOperands_eq hk op operands
  | erase op => exact Edit.discard_eq (Edit.erase_eq hk op)
  | setBlockOrder block order => exact Edit.setBlockOrder_eq block order k
  | sort block => exact Edit.sortBlock_eq block k
  | setPhysical op physical => rfl

end Consistent

/-- An operation hands back as many wires as its kind makes of its operands. -/
theorem length_results_apply {out : Kernel × List Nat} (h : k.apply kind ws = .ok out) :
    out.2.length = kind.resultCount ws.length := by
  obtain ⟨created, hcreate, h⟩ := Except.bind_eq_ok.mp h
  obtain ⟨-, -, rfl⟩ := create_eq_ok_iff.mp hcreate
  cases h
  simp [freshWires]

theorem call_of_ok {c : Call} (h : c.run k = .ok k') : k.call c = k' := by
  simp only [call, h]

theorem call_of_error {c : Call} {e : CircuitError} (h : c.run k = .error e) : k.call c = k := by
  simp only [call, h]

/-- What is true of every kernel that calls have made of the empty one. An operation is a user of a
wire as often as the wire is among its operands, and never once it is erased. A result points back
at its operation and its place there, and no other place has it as a result. The blocks list live
operations, none twice. No call goes wrong on the kernel, one that returns an error leaves it as it
was, also if its writes are made in place one after the other, and an operation hands back all the
wires that a builder picks from. -/
theorem calls_empty_spec (name : String) (cs : List Call) :
    let k := (empty name).calls cs
    (∀ w wire, k.wire? w = some wire →
      ∀ x, wire.users.count x = ((k.op? x).map (·.operands.count w)).getD 0) ∧
    (∀ x o, k.op? x = some o → ∀ (j w : Nat), o.results[j]? = some w →
      (∃ users, k.wire? w = some ⟨x, j, users⟩) ∧
      ∀ y o', k.op? y = some o' → ∀ i : Nat, o'.results[i]? = some w → y = x ∧ i = j) ∧
    (∀ x ∈ k.blocks.flatten, (k.op? x).isSome) ∧ k.blocks.flatten.Nodup ∧
    (∀ c : Call, Faultless (c.run k) ∧ ∀ e, c.run k = .error e → k.call c = k) ∧
    (∀ c : Call, (∀ k', c.run k = .ok k' → perform c k = .ok ⟨⟩ k') ∧
      ∀ e, c.run k = .error e → perform c k = .error e k) ∧
    ∀ kind ws out, k.apply kind ws = .ok out → out.2.length = kind.resultCount ws.length := by
  intro k
  have hk : k.Coherent := (Coherent.empty name).calls cs
  refine ⟨fun w wire hw x => ?_, fun x o hx j w hj => ?_, hk.live, hk.placed, fun c => ?_,
    fun c => ⟨fun k' h => ?_, fun e h => ?_⟩, fun kind ws out => length_results_apply⟩
  · rw [hk.uses w wire hw x, operandsOf]
    cases k.op? x <;> rfl
  · obtain ⟨users, hw⟩ := hk.result x o hx j w hj
    refine ⟨⟨users, hw⟩, fun y o' hy i hi => ?_⟩
    obtain ⟨users', hw'⟩ := hk.result y o' hy i w hi
    cases hw.symm.trans hw'
    exact ⟨rfl, rfl⟩
  · exact ⟨hk.faultless_run c, fun e => call_of_error⟩
  · rw [hk.perform_eq c, h]
    rfl
  · rw [hk.perform_eq c, h]
    rfl

end Kernel

end QubitMapper
