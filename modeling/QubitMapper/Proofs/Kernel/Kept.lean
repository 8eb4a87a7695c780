import Mathlib.Data.List.InsertIdx
import QubitMapper.Circuit.Kernel.Order
import QubitMapper.Proofs.Kernel.Lookup
import QubitMapper.Proofs.Outcome

/-!
# What stays of a kernel

Kernels are rewired in place. Whatever is done to one on the way, its name, its level and its
mapping stay, and every operation stays what it is: it keeps its kind and its results, while its
operands and its physical qubits may change.

## Main results

* `Kernel.Kept.create`, `Kernel.Kept.insert`, `Kernel.Kept.setOperands`: the checked changes.
* `Kernel.Kept.erase`: an operation may be erased if the kernel did not have it to begin with.
-/

namespace QubitMapper.Kernel

/-- What a kernel says of itself as a whole. -/
def heading (k : Kernel) : String × Level × Option (List Nat) := (k.name, k.level, k.mapping)

/-- What stays of a kernel while it is worked on. -/
structure Kept (k k' : Kernel) : Prop where
  heading : k'.heading = k.heading
  op : ∀ x o, k.op? x = some o →
    ∃ o', k'.op? x = some o' ∧ o'.kind = o.kind ∧ o'.results = o.results

variable {k k' k'' : Kernel} {x : Nat}

/-! ## Headings -/

@[simp] theorem heading_addUses (op : Nat) (ws : List Nat) :
    (k.addUses op ws).heading = k.heading := by
  induction ws generalizing k with
  | nil => rfl
  | cons w rest ih => rw [addUses_cons, ih]; rfl

@[simp] theorem heading_removeUses (op : Nat) (ws : List Nat) :
    (k.removeUses op ws).heading = k.heading := by
  induction ws generalizing k with
  | nil => rfl
  | cons w rest ih => rw [removeUses_cons, ih]; rfl

@[simp] theorem heading_addOp (kind : OpKind) (ws : List Nat) :
    (k.addOp kind ws).1.heading = k.heading := by
  simp only [addOp, heading_addUses]
  rfl

@[simp] theorem heading_rewired (old new : List Nat) :
    (k.rewired x old new).heading = k.heading := by
  simp only [rewired, heading_addUses, heading_removeUses]
  rfl

@[simp] theorem heading_without (operands : List Nat) :
    (k.without x operands).heading = k.heading := by
  simp only [without, heading_removeUses]
  rfl

/-! ## Changes -/

namespace Kept

theorem refl (k : Kernel) : k.Kept k := ⟨rfl, fun _ o ho => ⟨o, ho, rfl, rfl⟩⟩

theorem trans (h : k.Kept k') (h' : k'.Kept k'') : k.Kept k'' := by
  refine ⟨h'.heading.trans h.heading, fun x o ho => ?_⟩
  obtain ⟨o', ho', hkind, hresults⟩ := h.op x o ho
  obtain ⟨o'', ho'', hkind', hresults'⟩ := h'.op x o' ho'
  exact ⟨o'', ho'', hkind'.trans hkind, hresults'.trans hresults⟩

/-- What a later kernel does not have, an earlier one did not have either. -/
theorem op?_eq_none (h : k.Kept k') (hx : k'.op? x = none) : k.op? x = none := by
  cases ho : k.op? x with
  | none => rfl
  | some o =>
      obtain ⟨o', ho', -⟩ := h.op x o ho
      cases hx.symm.trans ho'

theorem setBlock (k : Kernel) (b : Nat) (ops : List Nat) : k.Kept (k.setBlock b ops) :=
  ⟨rfl, (refl k).op⟩

/-- An operation may be changed in all but its kind and its results. -/
theorem modifyOp (k : Kernel) {f : Operation → Operation}
    (hf : ∀ o, (f o).kind = o.kind ∧ (f o).results = o.results) (x : Nat) :
    k.Kept (k.modifyOp x f) := by
  refine ⟨rfl, fun y o ho => ?_⟩
  rw [op?_modifyOp]
  split
  · rename_i heq
    subst heq
    exact ⟨f o, by rw [ho]; rfl, hf o⟩
  · exact ⟨o, ho, rfl, rfl⟩

theorem create {kind : OpKind} {ws : List Nat} {unused : Bool} {out : Kernel × Nat × List Nat}
    (h : k.create kind ws unused = .ok out) : k.Kept out.1 := by
  obtain ⟨-, -, rfl⟩ := create_eq_ok_iff.mp h
  exact ⟨heading_addOp kind ws, fun x o ho => ⟨o, op?_addOp_of_eq_some ho, rfl, rfl⟩⟩

/-- The inserted operation is new. -/
theorem insert {b position : Nat} {kind : OpKind} {ws : List Nat} {out : Kernel × Nat × List Nat}
    (h : k.insert b position kind ws = .ok out) : k.Kept out.1 ∧ k.op? out.2.1 = none := by
  unfold Kernel.insert at h
  obtain ⟨ops, hops, h⟩ := Except.bind_eq_ok.mp h
  split at h
  · cases h
  · obtain ⟨⟨k₁, op, results⟩, hcreate, h⟩ := Except.bind_eq_ok.mp h
    cases h
    refine ⟨(create hcreate).trans (setBlock k₁ b _), ?_⟩
    obtain ⟨-, -, hout⟩ := create_eq_ok_iff.mp hcreate
    cases hout
    exact op?_eq_none_of_le (Nat.le_refl _)

theorem setOperands {ws : List Nat} (h : k.setOperands x ws = .ok k') : k.Kept k' := by
  obtain ⟨-, o, hx, -, -, rfl⟩ := setOperands_eq_ok_iff.mp h
  refine ⟨heading_rewired o.operands ws, fun y o' ho' => ?_⟩
  rw [op?_rewired]
  split
  · rename_i heq
    subst heq
    exact ⟨{ o' with operands := ws }, by rw [ho']; rfl, rfl, rfl⟩
  · exact ⟨o', ho', rfl, rfl⟩

theorem setBlockOrder {b : Nat} {order : List Nat} (h : k.setBlockOrder b order = .ok k') :
    k.Kept k' := by
  unfold Kernel.setBlockOrder at h
  obtain ⟨current, -, h⟩ := Except.bind_eq_ok.mp h
  obtain ⟨-, -, h⟩ := Except.bind_eq_ok.mp h
  split at h
  · cases h
  · cases h
    exact setBlock k b order

theorem sortBlock {b : Nat} (h : k.sortBlock b = .ok k') : k.Kept k' := by
  unfold Kernel.sortBlock at h
  obtain ⟨order, -, h⟩ := Except.bind_eq_ok.mp h
  obtain ⟨pending, -, h⟩ := Except.bind_eq_ok.mp h
  split at h
  · cases h
  · cases h
    exact setBlock k b _

theorem erase (h : k.Kept k') {out : Kernel × Operation} (hout : k'.erase x = .ok out)
    (hx : k.op? x = none) : k.Kept out.1 := by
  obtain ⟨o, -, -, -, rfl⟩ := erase_eq_ok_iff.mp hout
  refine ⟨(heading_without o.operands).trans h.heading, fun y o' ho' => ?_⟩
  have hne : x ≠ y := by
    rintro rfl
    cases hx.symm.trans ho'
  obtain ⟨o'', ho'', hsame⟩ := h.op y o' ho'
  exact ⟨o'', by rw [op?_without, if_neg hne, ho''], hsame⟩

end Kept

/-- An operation is inserted between those of the entry block. -/
theorem sublist_entry_insert {position : Nat} {kind : OpKind} {ws : List Nat}
    {out : Kernel × Nat × List Nat} (h : k.insert 0 position kind ws = .ok out) :
    k.entry.Sublist out.1.entry := by
  unfold Kernel.insert at h
  obtain ⟨ops, hops, h⟩ := Except.bind_eq_ok.mp h
  split at h
  · cases h
  · obtain ⟨⟨k₁, op, results⟩, hcreate, h⟩ := Except.bind_eq_ok.mp h
    cases h
    obtain ⟨-, -, hout⟩ := create_eq_ok_iff.mp hcreate
    have hblocks : k₁.blocks = k.blocks := by
      cases hout
      exact blocks_addOp kind ws
    unfold block block? at hops
    cases hk : k.blocks with
    | nil => simp [hk] at hops
    | cons entry rest =>
        obtain rfl : entry = ops := by simpa [hk] using hops
        simp only [Kernel.entry, Kernel.setBlock, hblocks, hk, List.set_cons_zero, List.headD_cons]
        exact List.sublist_insertIdx entry position op

end QubitMapper.Kernel
