import Mathlib.Data.List.Nodup
import QubitMapper.Circuit.Kernel.Build
import QubitMapper.Circuit.Kernel.Edit

/-!
# Looking things up in a changed kernel

Each change of a kernel is described by what `op?` and `wire?` answer afterwards, and each checked
change by the exact condition under which it succeeds. Later modules use these equations only.

## Main results

* `Kernel.create_eq_ok_iff`, `Kernel.setOperands_eq_ok_iff`, `Kernel.erase_eq_ok_iff`: when a
  checked change succeeds, and with what kernel.
* `Kernel.op?_addOp`, `Kernel.wire?_addOp`, `Kernel.op?_rewired`, `Kernel.wire?_rewired`: the kernel
  after the change.
-/

namespace QubitMapper.Kernel

variable {k : Kernel} {x y w v : Nat}

/-! ## Small changes -/

theorem op?_eq_some {o : Operation} : k.op? x = some o ↔ k.ops[x]? = some (some o) := by
  simp [op?, Option.join_eq_some_iff]

theorem lt_of_op?_eq_some {o : Operation} (h : k.op? x = some o) : x < k.ops.size :=
  (Array.getElem?_eq_some_iff.mp (op?_eq_some.mp h)).1

theorem op?_eq_none_of_le (h : k.ops.size ≤ x) : k.op? x = none := by
  simp [op?, Array.getElem?_eq_none h]

theorem wire?_isSome_iff : (k.wire? w).isSome ↔ w < k.wires.size := by
  simp [wire?, isSome_getElem?]

theorem wire?_eq_none_iff : k.wire? w = none ↔ k.wires.size ≤ w := by
  simp [wire?]

theorem lt_of_wire?_eq_some {wire : Wire} (h : k.wire? w = some wire) : w < k.wires.size :=
  wire?_isSome_iff.mp (by simp [h])

theorem exists_wire (h : w < k.wires.size) : ∃ wire, k.wire? w = some wire :=
  Option.isSome_iff_exists.mp (wire?_isSome_iff.mpr h)

/-- The operands of an operation; none of one that is not there. -/
def operandsOf (k : Kernel) (x : Nat) : List Nat := ((k.op? x).map (·.operands)).getD []

theorem operandsOf_of_op? {o : Operation} (h : k.op? x = some o) : k.operandsOf x = o.operands := by
  simp [operandsOf, h]

theorem operandsOf_congr {k' : Kernel} (h : k'.op? x = k.op? x) :
    k'.operandsOf x = k.operandsOf x := by
  simp [operandsOf, h]

theorem mem_operandsOf : w ∈ k.operandsOf x ↔ ∃ o, k.op? x = some o ∧ w ∈ o.operands := by
  unfold operandsOf
  cases k.op? x <;> simp

/-- The results of an operation; none of one that is not there. -/
def resultsOf (k : Kernel) (x : Nat) : List Nat := ((k.op? x).map (·.results)).getD []

theorem resultsOf_of_op? {o : Operation} (h : k.op? x = some o) : k.resultsOf x = o.results := by
  simp [resultsOf, h]

theorem mem_resultsOf : w ∈ k.resultsOf x ↔ ∃ o, k.op? x = some o ∧ w ∈ o.results := by
  unfold resultsOf
  cases k.op? x <;> simp

@[simp] theorem op?_modifyOp (f : Operation → Operation) :
    (k.modifyOp x f).op? y = if x = y then (k.op? x).map f else k.op? y := by
  simp only [op?, modifyOp, Array.getElem?_modify]
  split
  · rename_i h
    subst h
    cases k.ops[x]? with
    | none => rfl
    | some slot => cases slot <;> rfl
  · rfl

@[simp] theorem wire?_modifyOp (f : Operation → Operation) :
    (k.modifyOp x f).wire? w = k.wire? w := rfl

@[simp] theorem wire?_modifyWire (f : Wire → Wire) :
    (k.modifyWire w f).wire? v = if w = v then (k.wire? w).map f else k.wire? v := by
  simp only [wire?, modifyWire, Array.getElem?_modify]
  split
  · rename_i h; subst h; rfl
  · rfl

@[simp] theorem op?_setBlock (b : Nat) (ops : List Nat) : (k.setBlock b ops).op? x = k.op? x := rfl

@[simp] theorem wire?_setBlock (b : Nat) (ops : List Nat) :
    (k.setBlock b ops).wire? w = k.wire? w := rfl

/-! ## Uses -/

theorem addUses_cons (op : Nat) (ws : List Nat) :
    k.addUses op (w :: ws) = (k.modifyWire w (·.addUser op)).addUses op ws := rfl

theorem removeUses_cons (op : Nat) (ws : List Nat) :
    k.removeUses op (w :: ws) = (k.modifyWire w (·.removeUser op)).removeUses op ws := rfl

@[simp] theorem ops_addUses (op : Nat) (ws : List Nat) : (k.addUses op ws).ops = k.ops := by
  induction ws generalizing k with
  | nil => rfl
  | cons w rest ih => rw [addUses_cons, ih]; rfl

@[simp] theorem blocks_addUses (op : Nat) (ws : List Nat) :
    (k.addUses op ws).blocks = k.blocks := by
  induction ws generalizing k with
  | nil => rfl
  | cons w rest ih => rw [addUses_cons, ih]; rfl

@[simp] theorem size_wires_addUses (op : Nat) (ws : List Nat) :
    (k.addUses op ws).wires.size = k.wires.size := by
  induction ws generalizing k with
  | nil => rfl
  | cons w rest ih => rw [addUses_cons, ih]; simp [modifyWire]

@[simp] theorem ops_removeUses (op : Nat) (ws : List Nat) : (k.removeUses op ws).ops = k.ops := by
  induction ws generalizing k with
  | nil => rfl
  | cons w rest ih => rw [removeUses_cons, ih]; rfl

@[simp] theorem blocks_removeUses (op : Nat) (ws : List Nat) :
    (k.removeUses op ws).blocks = k.blocks := by
  induction ws generalizing k with
  | nil => rfl
  | cons w rest ih => rw [removeUses_cons, ih]; rfl

@[simp] theorem size_wires_removeUses (op : Nat) (ws : List Nat) :
    (k.removeUses op ws).wires.size = k.wires.size := by
  induction ws generalizing k with
  | nil => rfl
  | cons w rest ih => rw [removeUses_cons, ih]; simp [modifyWire]

@[simp] theorem op?_addUses (op : Nat) (ws : List Nat) : (k.addUses op ws).op? x = k.op? x := by
  simp [op?]

@[simp] theorem op?_removeUses (op : Nat) (ws : List Nat) :
    (k.removeUses op ws).op? x = k.op? x := by
  simp [op?]

/-- Each wire gets as many uses as it is listed. -/
theorem wire?_addUses (op : Nat) (ws : List Nat) :
    (k.addUses op ws).wire? v = (k.wire? v).map fun wire =>
      { wire with users := wire.users ++ List.replicate (ws.count v) op } := by
  induction ws generalizing k with
  | nil => simp [addUses]
  | cons w rest ih =>
      rw [addUses_cons, ih, wire?_modifyWire]
      by_cases h : w = v
      · subst h
        simp [Wire.addUser, List.replicate_succ, Function.comp_def]
      · simp [h]

/-- Each wire loses as many uses as it is listed. -/
theorem wire?_removeUses (op : Nat) (ws : List Nat) :
    (k.removeUses op ws).wire? v = (k.wire? v).map fun wire =>
      { wire with users := wire.users.diff (List.replicate (ws.count v) op) } := by
  induction ws generalizing k with
  | nil => simp [removeUses]
  | cons w rest ih =>
      rw [removeUses_cons, ih, wire?_modifyWire]
      by_cases h : w = v
      · subst h
        simp [Wire.removeUser, List.replicate_succ, List.diff_cons, Function.comp_def]
      · simp [h]

/-! ## New operations -/

/-- The number of operands is one that the kind allows. -/
def FitsArity (kind : OpKind) (n : Nat) : Prop := ∀ m, kind.arity? = some m → m = n

theorem checkArity_eq_ok_iff {kind : OpKind} {n : Nat} :
    checkArity kind n = .ok () ↔ FitsArity kind n := by
  unfold checkArity FitsArity
  cases kind.arity? with
  | none => simp
  | some m =>
      by_cases h : m = n <;> simp [h]

/-- Wires that a new operation may take: they are there, none twice and, where that is asked for,
without users. -/
structure Usable (k : Kernel) (unused : Bool) (ws : List Nat) : Prop where
  nodup : ws.Nodup
  wire : ∀ w ∈ ws, ∃ wire, k.wire? w = some wire ∧ (unused = true → wire.users = [])

theorem Usable.lt {unused : Bool} {ws : List Nat} (h : k.Usable unused ws) :
    ∀ w ∈ ws, w < k.wires.size := by
  intro w hw
  obtain ⟨wire, hwire, -⟩ := h.wire w hw
  exact lt_of_wire?_eq_some hwire

private theorem checkOperands_eq_ok_iff {name : String} {unused : Bool} {ws : List Nat} :
    ∀ {seen : List Nat}, k.checkOperands name unused seen ws = .ok () ↔
      k.Usable unused ws ∧ ∀ w ∈ ws, w ∉ seen := by
  induction ws with
  | nil => simp [checkOperands, Usable.mk, List.nodup_nil]
  | cons w rest ih =>
      intro seen
      have hcons : k.Usable unused (w :: rest) ↔
          (∃ wire, k.wire? w = some wire ∧ (unused = true → wire.users = [])) ∧ w ∉ rest ∧
            k.Usable unused rest := by
        constructor
        · rintro ⟨hnodup, hwire⟩
          rw [List.nodup_cons] at hnodup
          exact ⟨hwire w (by simp), hnodup.1, hnodup.2, fun v hv => hwire v (by simp [hv])⟩
        · rintro ⟨hw, hnot, hnodup, hwire⟩
          refine ⟨List.nodup_cons.mpr ⟨hnot, hnodup⟩, ?_⟩
          intro v hv
          rcases List.mem_cons.mp hv with rfl | hv
          · exact hw
          · exact hwire v hv
      rw [hcons]
      unfold checkOperands
      cases hw : k.wire? w with
      | none => simp
      | some wire =>
          have hhead : (if unused = true then wire.users.head? else none) = none ↔
              (unused = true → wire.users = []) := by
            cases unused <;> simp
          simp only
          split
          · rename_i user huser
            have : ¬ (unused = true → wire.users = []) := by
              rw [← hhead, huser]; simp
            simp [this]
          · rename_i huser
            rw [hhead] at huser
            split
            · rename_i hseen
              simp at hseen
              simp [hseen]
            · rename_i hseen
              simp only [List.contains_iff_mem] at hseen
              rw [ih]
              simp only [List.mem_cons, forall_eq_or_imp, Option.some.injEq, exists_eq_left']
              constructor
              · rintro ⟨hrest, hnot⟩
                refine ⟨⟨huser, ?_, hrest⟩, hseen, fun v hv => ?_⟩
                · intro hmem
                  exact hnot w hmem (Or.inl rfl)
                · exact fun hs => hnot v hv (Or.inr hs)
              · rintro ⟨⟨-, hnot, hrest⟩, -, hall⟩
                refine ⟨hrest, fun v hv => ?_⟩
                rintro (rfl | hs)
                · exact hnot hv
                · exact hall v hv hs

/-- When a new operation can be made, and what it is. -/
theorem create_eq_ok_iff {kind : OpKind} {ws : List Nat} {unused : Bool}
    {out : Kernel × Nat × List Nat} :
    k.create kind ws unused = .ok out ↔
      FitsArity kind ws.length ∧ k.Usable unused ws ∧ out = k.addOp kind ws := by
  have ha : checkArity kind ws.length = .ok () ↔ FitsArity kind ws.length := checkArity_eq_ok_iff
  have ho : k.checkOperands kind.name unused [] ws = .ok () ↔
      k.Usable unused ws ∧ ∀ w ∈ ws, w ∉ [] := checkOperands_eq_ok_iff
  unfold create
  cases harity : checkArity kind ws.length with
  | error e =>
      rw [harity] at ha
      simp [bind, Except.bind, ← ha]
  | ok _ =>
      cases hops : k.checkOperands kind.name unused [] ws with
      | error e =>
          rw [hops] at ho
          have : ¬ k.Usable unused ws := by
            intro h
            simpa using ho.mpr ⟨h, by simp⟩
          simp [bind, Except.bind, this]
      | ok _ =>
          have h1 := ha.mp harity
          have h2 := (ho.mp hops).1
          simp [bind, Except.bind, pure, Except.pure, h1, h2, eq_comm]

@[simp] theorem blocks_addOp (kind : OpKind) (ws : List Nat) :
    (k.addOp kind ws).1.blocks = k.blocks := by
  simp [addOp]

@[simp] theorem size_ops_addOp (kind : OpKind) (ws : List Nat) :
    (k.addOp kind ws).1.ops.size = k.ops.size + 1 := by
  simp [addOp]

theorem getElem?_append_list {α : Type} (xs : Array α) (l : List α) (i : Nat) :
    (xs ++ l)[i]? = if i < xs.size then xs[i]? else l[i - xs.size]? := by
  rw [← Array.getElem?_toList, Array.toList_appendList, List.getElem?_append]
  simp

@[simp] theorem size_wires_addOp (kind : OpKind) (ws : List Nat) :
    (k.addOp kind ws).1.wires.size = k.wires.size + kind.resultCount ws.length := by
  simp only [addOp, size_wires_addUses]
  rw [← Array.length_toList, Array.toList_appendList]
  simp

/-- The operations after a new one. -/
theorem op?_addOp (kind : OpKind) (ws : List Nat) :
    (k.addOp kind ws).1.op? x =
      if x = k.ops.size then
        some { kind, operands := ws, results := k.freshWires (kind.resultCount ws.length) }
      else k.op? x := by
  simp only [addOp, op?_addUses]
  simp only [op?, Array.getElem?_push]
  split <;> rfl

/-- The wires after a new operation on existing wires. -/
theorem wire?_addOp {kind : OpKind} {ws : List Nat} (hws : ∀ w ∈ ws, w < k.wires.size) :
    (k.addOp kind ws).1.wire? v =
      if v < k.wires.size then
        (k.wire? v).map fun wire =>
          { wire with users := wire.users ++ List.replicate (ws.count v) k.ops.size }
      else if v < k.wires.size + kind.resultCount ws.length then
        some ⟨k.ops.size, v - k.wires.size, []⟩
      else none := by
  simp only [addOp, wire?_addUses]
  simp only [wire?, getElem?_append_list]
  by_cases hv : v < k.wires.size
  · simp [hv]
  · have hcount : ws.count v = 0 := List.count_eq_zero.mpr fun h => hv (hws v h)
    by_cases hv' : v < k.wires.size + kind.resultCount ws.length
    · have hlt : v - k.wires.size < kind.resultCount ws.length := by omega
      simp [hv, hv', hcount, List.getElem?_range hlt]
    · have hle : kind.resultCount ws.length ≤ v - k.wires.size := by omega
      simp [hv, hv', hle]

/-- Operations are not changed by a new one. -/
theorem op?_addOp_of_eq_some {kind : OpKind} {ws : List Nat} {o : Operation}
    (hx : k.op? x = some o) : (k.addOp kind ws).1.op? x = some o := by
  rw [op?_addOp, if_neg (Nat.ne_of_lt (lt_of_op?_eq_some hx)), hx]

/-- Wires keep their producers when there is a new operation. -/
theorem wire?_addOp_of_eq_some {kind : OpKind} {ws : List Nat} {wire : Wire}
    (hws : ∀ w ∈ ws, w < k.wires.size) (hv : k.wire? v = some wire) :
    ∃ wire', (k.addOp kind ws).1.wire? v = some wire' ∧ wire'.producer = wire.producer := by
  rw [wire?_addOp hws, if_pos (lt_of_wire?_eq_some hv), hv]
  exact ⟨_, rfl, rfl⟩

/-- Wires keep at most one user when a new operation takes unused ones. -/
theorem single_addOp {kind : OpKind} {ws : List Nat} (husable : k.Usable true ws)
    (hsingle : ∀ w wire, k.wire? w = some wire → wire.users.length ≤ 1) :
    ∀ w wire, (k.addOp kind ws).1.wire? w = some wire → wire.users.length ≤ 1 := by
  have hlt := husable.lt
  intro w wire hw
  rw [wire?_addOp hlt] at hw
  split at hw
  · obtain ⟨wire', hw', rfl⟩ := Option.map_eq_some_iff.mp hw
    rw [List.length_append, List.length_replicate]
    by_cases hmem : w ∈ ws
    · obtain ⟨wire₂, hw₂, hfree⟩ := husable.wire w hmem
      cases hw'.symm.trans hw₂
      rw [hfree rfl, List.count_eq_one_of_mem husable.nodup hmem]
      simp
    · rw [List.count_eq_zero.mpr hmem]
      exact hsingle w wire' hw'
  · split at hw
    · cases hw
      simp
    · cases hw

/-! ## Placing -/

section Placing

variable {ops : List Nat}

@[simp] theorem ops_placeLast : (k.placeLast ops).ops = k.ops := by
  unfold placeLast
  split <;> rfl

@[simp] theorem wires_placeLast : (k.placeLast ops).wires = k.wires := by
  unfold placeLast
  split <;> rfl

@[simp] theorem op?_placeLast : (k.placeLast ops).op? x = k.op? x := by
  simp [op?]

@[simp] theorem wire?_placeLast : (k.placeLast ops).wire? w = k.wire? w := by
  simp [wire?]

theorem blocks_placeLast {block : List Nat} (h : k.blocks = [block]) :
    (k.placeLast ops).blocks = [block ++ ops] := by
  simp [placeLast, h]

/-- Placing adds to the operations of all blocks at their end. -/
theorem flatten_placeLast : (k.placeLast ops).blocks.flatten = k.blocks.flatten ++ ops := by
  unfold placeLast
  split
  · rename_i hnil
    simp [hnil]
  · rename_i hne
    have hlt : k.blocks.length - 1 < k.blocks.length :=
      Nat.sub_one_lt (mt List.length_eq_zero_iff.mp hne)
    obtain ⟨before, last, after, hblocks, hlen, hmodify⟩ := List.exists_of_modify (· ++ ops) hlt
    obtain rfl : after = [] := by
      have := congrArg List.length hblocks
      rw [List.length_append, List.length_cons] at this
      exact List.length_eq_zero_iff.mp (by omega)
    simp only [hmodify]
    simp [hblocks]

end Placing

/-! ## Rewiring -/

/-- The kernel with the operands of an operation replaced, unchecked. -/
def rewired (k : Kernel) (x : Nat) (old new : List Nat) : Kernel :=
  ((k.modifyOp x ({ · with operands := new })).removeUses x old).addUses x new

theorem missingWire?_eq_none_iff {ws : List Nat} :
    k.missingWire? ws = none ↔ ∀ w ∈ ws, w < k.wires.size := by
  simp [missingWire?, wire?_eq_none_iff]

/-- When operands can be replaced, and with what kernel. -/
theorem setOperands_eq_ok_iff {ws : List Nat} {k' : Kernel} :
    k.setOperands x ws = .ok k' ↔
      (∀ w ∈ ws, w < k.wires.size) ∧ ∃ o, k.op? x = some o ∧ o.operands.length = ws.length ∧
        (∀ w ∈ o.operands, w < k.wires.size) ∧ k' = k.rewired x o.operands ws := by
  unfold setOperands
  cases hws : k.missingWire? ws with
  | some w =>
      have : ¬ ∀ w ∈ ws, w < k.wires.size := by rw [← missingWire?_eq_none_iff, hws]; simp
      simp [this]
  | none =>
      have hlt := missingWire?_eq_none_iff.mp hws
      rw [and_iff_right hlt]
      cases hx : k.op? x with
      | none => simp
      | some o =>
          simp only [Option.some.injEq, exists_eq_left']
          by_cases hlen : o.operands.length = ws.length
          · simp only [hlen, ne_eq, not_true_eq_false, ↓reduceIte, true_and]
            cases hold : k.missingWire? o.operands with
            | some w =>
                have : ¬ ∀ w ∈ o.operands, w < k.wires.size := by
                  rw [← missingWire?_eq_none_iff, hold]; simp
                simp [this]
            | none =>
                rw [and_iff_right (missingWire?_eq_none_iff.mp hold)]
                simp [rewired, eq_comm]
          · simp [hlen]

@[simp] theorem size_ops_rewired (old new : List Nat) :
    (k.rewired x old new).ops.size = k.ops.size := by
  simp [rewired, modifyOp]

@[simp] theorem size_wires_rewired (old new : List Nat) :
    (k.rewired x old new).wires.size = k.wires.size := by
  simp [rewired, modifyOp]

@[simp] theorem blocks_rewired (old new : List Nat) :
    (k.rewired x old new).blocks = k.blocks := by
  simp [rewired, modifyOp]

theorem op?_rewired (old new : List Nat) :
    (k.rewired x old new).op? y =
      if x = y then (k.op? x).map ({ · with operands := new }) else k.op? y := by
  simp [rewired]

theorem wire?_rewired (old new : List Nat) :
    (k.rewired x old new).wire? v = (k.wire? v).map fun wire =>
      { wire with users :=
          wire.users.diff (List.replicate (old.count v) x) ++ List.replicate (new.count v) x } := by
  simp [rewired, wire?_addUses, wire?_removeUses, Function.comp_def]

/-! ## Erasing -/

/-- The kernel with an operation taken out, unchecked. -/
def without (k : Kernel) (x : Nat) (operands : List Nat) : Kernel :=
  { k with
    ops := k.ops.setIfInBounds x none
    blocks := k.blocks.map (List.filter (· != x)) }.removeUses x operands

/-- When an operation can be erased, and with what kernel. -/
theorem erase_eq_ok_iff {out : Kernel × Operation} :
    k.erase x = .ok out ↔
      ∃ o, k.op? x = some o ∧ (∀ w ∈ o.results, (k.wire? w).map (·.users) = some []) ∧
        (∀ w ∈ o.operands, w < k.wires.size) ∧ out = (k.without x o.operands, o) := by
  unfold erase
  cases hx : k.op? x with
  | none => simp
  | some o =>
      simp only [Option.some.injEq, exists_eq_left']
      cases hres : o.results.find? fun w => ((k.wire? w).map (·.users)) ≠ some [] with
      | some w =>
          have hw := List.find?_some hres
          have hmem := List.mem_of_find?_eq_some hres
          have : ¬ ∀ w ∈ o.results, (k.wire? w).map (·.users) = some [] := by
            intro h
            simp [h w hmem] at hw
          simp only [this, false_and, iff_false]
          split <;> simp
      | none =>
          have hfree : ∀ w ∈ o.results, (k.wire? w).map (·.users) = some [] := by
            simpa using hres
          rw [and_iff_right hfree]
          cases hold : k.missingWire? o.operands with
          | some w =>
              have : ¬ ∀ w ∈ o.operands, w < k.wires.size := by
                rw [← missingWire?_eq_none_iff, hold]; simp
              simp [this]
          | none =>
              rw [and_iff_right (missingWire?_eq_none_iff.mp hold)]
              simp [without, eq_comm]

theorem op?_without (operands : List Nat) :
    (k.without x operands).op? y = if x = y then none else k.op? y := by
  simp only [without, op?_removeUses]
  simp only [op?, Array.getElem?_setIfInBounds]
  split
  · split <;> rfl
  · rfl

theorem wire?_without (operands : List Nat) :
    (k.without x operands).wire? v = (k.wire? v).map fun wire =>
      { wire with users := wire.users.diff (List.replicate (operands.count v) x) } := by
  simp only [without, wire?_removeUses]
  rfl

@[simp] theorem size_wires_without (operands : List Nat) :
    (k.without x operands).wires.size = k.wires.size := by
  simp [without]

@[simp] theorem size_ops_without (operands : List Nat) :
    (k.without x operands).ops.size = k.ops.size := by
  simp [without]

theorem blocks_without (operands : List Nat) :
    (k.without x operands).blocks = k.blocks.map (List.filter (· != x)) := by
  simp [without]

end QubitMapper.Kernel
