import QubitMapper.Proofs.Kernel.Calls

/-!
# Formed kernels

Besides being coherent, a kernel that calls have made is *formed*: every operation has as many
operands and results as its kind demands, and every wire is a result of its producer for as long as
that is live. Verification asks for neither, but operations are built that way and never change it.
The second holds of every kernel that is built, even if kinds are changed.

## Main results

* `Kernel.Built.delivered`: live producers have their wires as results, on every kernel that is
  built.
* `Kernel.Formed.create`, `Kernel.Formed.insert`, `Kernel.Formed.setOperands`,
  `Kernel.Formed.erase`: the checked changes keep a kernel formed.
* `Kernel.Formed.calls`: so do calls.
-/

namespace QubitMapper.Kernel

variable {k k' : Kernel} {x b : Nat} {kind : OpKind} {ws : List Nat} {o : Operation}

/-! ## Results of live producers -/

/-- A wire is a result of its producer, as long as that is live. -/
def Delivered (k : Kernel) : Prop :=
  ∀ w wire o, k.wire? w = some wire → k.op? wire.producer = some o → w ∈ o.results

namespace Delivered

/-- A change that makes no operation and keeps results and producers keeps wires delivered. -/
theorem congr (hk : k.Delivered)
    (hop : ∀ x o', k'.op? x = some o' → ∃ o, k.op? x = some o ∧ o'.results = o.results)
    (hwire : ∀ w wire', k'.wire? w = some wire' →
      ∃ wire, k.wire? w = some wire ∧ wire'.producer = wire.producer) : k'.Delivered := by
  intro w wire' o' hw hx
  obtain ⟨wire, hw', hproducer⟩ := hwire w wire' hw
  obtain ⟨o, ho, hresults⟩ := hop _ o' hx
  rw [hresults]
  exact hk w wire o hw' (hproducer ▸ ho)

/-- What is in the blocks does not matter. -/
theorem blocks_congr (hk : k.Delivered) (hops : k'.ops = k.ops) (hwires : k'.wires = k.wires) :
    k'.Delivered := by
  refine hk.congr (fun x o' hx => ⟨o', ?_, rfl⟩) fun w wire' hw => ⟨wire', ?_, rfl⟩
  · rwa [op?, hops] at hx
  · rwa [wire?, hwires] at hw

/-- A new operation makes the fresh wires. -/
theorem addOp (hk : k.Delivered) (hconsistent : k.Consistent) (hws : ∀ w ∈ ws, w < k.wires.size) :
    (k.addOp kind ws).1.Delivered := by
  intro w wire o hw hx
  rw [wire?_addOp hws] at hw
  rw [op?_addOp] at hx
  split at hw
  · obtain ⟨wire', hw', rfl⟩ := Option.map_eq_some_iff.mp hw
    rw [if_neg (Nat.ne_of_lt (hconsistent.producer w wire' hw'))] at hx
    exact hk w wire' o hw' hx
  · split at hw
    · cases hw
      rw [if_pos rfl] at hx
      cases hx
      simp only [freshWires, List.mem_range'_1]
      omega
    · cases hw

theorem modifyOp (hk : k.Delivered) {f : Operation → Operation}
    (hf : ∀ o, (f o).results = o.results) : (k.modifyOp x f).Delivered := by
  refine hk.congr (fun y o' hy => ?_) fun w wire' hw => ⟨wire', hw, rfl⟩
  rw [op?_modifyOp] at hy
  split at hy
  · rename_i heq
    subst heq
    obtain ⟨o, ho, rfl⟩ := Option.map_eq_some_iff.mp hy
    exact ⟨o, ho, hf o⟩
  · exact ⟨o', hy, rfl⟩

theorem rewired (hk : k.Delivered) (old new : List Nat) : (k.rewired x old new).Delivered := by
  refine hk.congr (fun y o' hy => ?_) fun w wire' hw => ?_
  · rw [op?_rewired] at hy
    split at hy
    · rename_i heq
      subst heq
      obtain ⟨o, ho, rfl⟩ := Option.map_eq_some_iff.mp hy
      exact ⟨o, ho, rfl⟩
    · exact ⟨o', hy, rfl⟩
  · rw [wire?_rewired] at hw
    obtain ⟨wire, hw', rfl⟩ := Option.map_eq_some_iff.mp hw
    exact ⟨wire, hw', rfl⟩

theorem without (hk : k.Delivered) (operands : List Nat) : (k.without x operands).Delivered := by
  refine hk.congr (fun y o' hy => ?_) fun w wire' hw => ?_
  · rw [op?_without] at hy
    split at hy
    · cases hy
    · exact ⟨o', hy, rfl⟩
  · rw [wire?_without] at hw
    obtain ⟨wire, hw', rfl⟩ := Option.map_eq_some_iff.mp hw
    exact ⟨wire, hw', rfl⟩

/-- A call that succeeds keeps wires delivered. -/
theorem run (hk : k.Delivered) (hconsistent : k.Consistent) {c : Call} (h : c.run k = .ok k') :
    k'.Delivered := by
  cases c with
  | alloc =>
      cases h
      exact (hk.addOp hconsistent (by simp)).blocks_congr ops_placeLast wires_placeLast
  | apply kind operands =>
      obtain ⟨out, hout, rfl⟩ := Except.map_eq_ok.mp h
      obtain ⟨created, hcreate, hout⟩ := Except.bind_eq_ok.mp hout
      obtain ⟨-, husable, rfl⟩ := create_eq_ok_iff.mp hcreate
      cases hout
      exact (hk.addOp hconsistent husable.lt).blocks_congr ops_placeLast wires_placeLast
  | addBlock => cases h; exact hk.blocks_congr rfl rfl
  | create kind operands =>
      obtain ⟨out, hout, rfl⟩ := Except.map_eq_ok.mp h
      obtain ⟨-, husable, rfl⟩ := create_eq_ok_iff.mp hout
      exact hk.addOp hconsistent husable.lt
  | insert block position kind operands =>
      obtain ⟨out, hout, rfl⟩ := Except.map_eq_ok.mp h
      obtain ⟨ops, -, hout⟩ := Except.bind_eq_ok.mp hout
      split at hout
      · cases hout
      · obtain ⟨created, hcreate, hout⟩ := Except.bind_eq_ok.mp hout
        obtain ⟨-, husable, rfl⟩ := create_eq_ok_iff.mp hcreate
        cases hout
        exact (hk.addOp hconsistent husable.lt).blocks_congr rfl rfl
  | setOperands op operands =>
      obtain ⟨-, o, -, -, -, rfl⟩ := setOperands_eq_ok_iff.mp h
      exact hk.rewired _ _
  | erase op =>
      obtain ⟨out, hout, rfl⟩ := Except.map_eq_ok.mp h
      obtain ⟨o, -, -, -, rfl⟩ := erase_eq_ok_iff.mp hout
      exact hk.without _
  | setBlockOrder block order =>
      obtain ⟨current, -, -, -, -, rfl⟩ := setBlockOrder_eq_ok_iff.mp h
      exact hk.blocks_congr rfl rfl
  | sort block =>
      obtain ⟨order, sorted, -, -, rfl⟩ := sortBlock_perm h
      exact hk.blocks_congr rfl rfl
  | setPhysical op physical => cases h; exact hk.modifyOp fun _ => rfl

end Delivered

/-- Whatever is called, live producers have their wires as results. -/
theorem Built.delivered (hk : k.Built) : k.Delivered := by
  induction hk with
  | empty name =>
      intro w wire o hw
      simp [Kernel.empty, wire?] at hw
  | call hk c ih =>
      unfold Kernel.call
      split
      · rename_i k' h
        exact ih.run hk.coherent.toConsistent h
      · exact ih
  | setKind _ op kind ih => exact ih.modifyOp fun _ => rfl
  | setLevel _ level ih => exact ih.blocks_congr rfl rfl
  | setMapping _ mapping ih => exact ih.blocks_congr rfl rfl

/-! ## Formed kernels -/

/-- The numbers of operands and results fit the kind, and live producers have their wires as
results. -/
structure Formed (k : Kernel) : Prop extends k.Coherent where
  arity : ∀ x o, k.op? x = some o →
    FitsArity o.kind o.operands.length ∧ o.results.length = o.kind.resultCount o.operands.length
  made : ∀ w wire o, k.wire? w = some wire → k.op? wire.producer = some o → w ∈ o.results

namespace Formed

theorem empty (name : String) : (Kernel.empty name).Formed where
  toCoherent := .empty name
  arity x o hx := by simp [Kernel.empty, op?] at hx
  made w wire o hw := by simp [Kernel.empty, wire?] at hw

/-- An allocation has no operands. -/
theorem operands_of_isAlloc (hk : k.Formed) (hx : k.op? x = some o)
    (halloc : o.kind.isAlloc = true) : o.operands = [] := by
  have harity := (hk.arity x o hx).1
  cases hkind : o.kind with
  | alloc => exact List.length_eq_zero_iff.mp (harity 0 (by rw [hkind]; rfl)).symm
  | _ => simp [hkind, OpKind.isAlloc] at halloc

/-- An allocation has one result. -/
theorem results_of_isAlloc (hk : k.Formed) (hx : k.op? x = some o)
    (halloc : o.kind.isAlloc = true) : ∃ w, o.results = [w] := by
  rw [← List.length_eq_one_iff, (hk.arity x o hx).2]
  cases hkind : o.kind with
  | alloc => rfl
  | _ => simp [hkind, OpKind.isAlloc] at halloc

/-- What is neither an allocation nor a sink has a result for each operand. -/
theorem length_results (hk : k.Formed) (hx : k.op? x = some o) (halloc : o.kind.isAlloc = false)
    (hsink : o.kind.isSink = false) : o.results.length = o.operands.length := by
  rw [(hk.arity x o hx).2]
  cases hkind : o.kind <;> simp [hkind, OpKind.isAlloc, OpKind.isSink] at halloc hsink <;> rfl

/-- What is not an allocation has at most as many results as operands. -/
theorem length_results_le (hk : k.Formed) (hx : k.op? x = some o)
    (halloc : o.kind.isAlloc = false) : o.results.length ≤ o.operands.length := by
  cases hsink : o.kind.isSink with
  | false => exact Nat.le_of_eq (hk.length_results hx halloc hsink)
  | true =>
      rw [(hk.arity x o hx).2]
      cases hkind : o.kind <;> simp [hkind, OpKind.isSink] at hsink
      exact Nat.zero_le _

/-! ## Changes -/

/-- A change that makes no operation and keeps results and producers keeps a kernel formed. -/
theorem congr (hk : k.Formed) (hk' : k'.Coherent)
    (hop : ∀ x o', k'.op? x = some o' → ∃ o, k.op? x = some o ∧ o'.kind = o.kind ∧
      o'.operands.length = o.operands.length ∧ o'.results = o.results)
    (hwire : ∀ w wire', k'.wire? w = some wire' →
      ∃ wire, k.wire? w = some wire ∧ wire'.producer = wire.producer) : k'.Formed where
  toCoherent := hk'
  arity x o' hx := by
    obtain ⟨o, ho, hkind, hoperands, hresults⟩ := hop x o' hx
    rw [hkind, hoperands, hresults]
    exact hk.arity x o ho
  made := by
    refine Delivered.congr hk.made (fun x o' hx => ?_) hwire
    obtain ⟨o, ho, -, -, hresults⟩ := hop x o' hx
    exact ⟨o, ho, hresults⟩

/-- What is in the blocks does not matter. -/
theorem blocks_congr (hk : k.Formed) (hk' : k'.Coherent) (hops : k'.ops = k.ops)
    (hwires : k'.wires = k.wires) : k'.Formed := by
  refine hk.congr hk' (fun x o' hx => ⟨o', ?_, rfl, rfl, rfl⟩) fun w wire' hw => ⟨wire', ?_, rfl⟩
  · rwa [op?, hops] at hx
  · rwa [wire?, hwires] at hw

/-- A new operation of the right number of operands makes the fresh wires. -/
theorem addOp (hk : k.Formed) (harity : FitsArity kind ws.length)
    (hws : ∀ w ∈ ws, w < k.wires.size) : (k.addOp kind ws).1.Formed where
  toCoherent := hk.toCoherent.addOp hws
  arity x o hx := by
    rw [op?_addOp] at hx
    split at hx
    · cases hx
      exact ⟨harity, by simp [freshWires]⟩
    · exact hk.arity x o hx
  made := Delivered.addOp hk.made hk.toConsistent hws

theorem create (hk : k.Formed) {unused : Bool} {out : Kernel × Nat × List Nat}
    (h : k.create kind ws unused = .ok out) : out.1.Formed := by
  obtain ⟨harity, husable, rfl⟩ := create_eq_ok_iff.mp h
  exact hk.addOp harity husable.lt

theorem apply (hk : k.Formed) {out : Kernel × List Nat} (h : k.apply kind ws = .ok out) :
    out.1.Formed := by
  have hcoherent := hk.toCoherent.apply h
  obtain ⟨⟨k₁, op, results⟩, hcreate, h⟩ := Except.bind_eq_ok.mp h
  cases h
  exact (hk.create hcreate).blocks_congr hcoherent ops_placeLast wires_placeLast

theorem alloc (hk : k.Formed) : k.alloc.1.Formed :=
  (hk.addOp (by rintro n ⟨⟩; rfl) (by simp)).blocks_congr hk.toCoherent.alloc ops_placeLast
    wires_placeLast

theorem insert (hk : k.Formed) {position : Nat} {out : Kernel × Nat × List Nat}
    (h : k.insert b position kind ws = .ok out) : out.1.Formed := by
  have hcoherent := hk.toCoherent.insert h
  obtain ⟨ops, -, h⟩ := Except.bind_eq_ok.mp h
  split at h
  · cases h
  · obtain ⟨⟨k₁, op, results⟩, hcreate, h⟩ := Except.bind_eq_ok.mp h
    cases h
    exact (hk.create hcreate).blocks_congr hcoherent rfl rfl

theorem setOperands (hk : k.Formed) (h : k.setOperands x ws = .ok k') : k'.Formed := by
  have hcoherent := hk.toCoherent.setOperands h
  obtain ⟨-, o, hx, hlength, -, rfl⟩ := setOperands_eq_ok_iff.mp h
  refine hk.congr hcoherent (fun y o' hy => ?_) fun w wire' hw => ?_
  · rw [op?_rewired] at hy
    split at hy
    · rename_i heq
      subst heq
      rw [hx] at hy
      cases hy
      exact ⟨o, hx, rfl, hlength.symm, rfl⟩
    · exact ⟨o', hy, rfl, rfl, rfl⟩
  · rw [wire?_rewired] at hw
    obtain ⟨wire, hw', rfl⟩ := Option.map_eq_some_iff.mp hw
    exact ⟨wire, hw', rfl⟩

theorem erase (hk : k.Formed) {out : Kernel × Operation} (h : k.erase x = .ok out) :
    out.1.Formed := by
  have hcoherent := hk.toCoherent.erase h
  obtain ⟨o, hx, -, -, rfl⟩ := erase_eq_ok_iff.mp h
  refine hk.congr hcoherent (fun y o' hy => ?_) fun w wire' hw => ?_
  · rw [op?_without] at hy
    split at hy
    · cases hy
    · exact ⟨o', hy, rfl, rfl, rfl⟩
  · rw [wire?_without] at hw
    obtain ⟨wire, hw', rfl⟩ := Option.map_eq_some_iff.mp hw
    exact ⟨wire, hw', rfl⟩

theorem setBlockOrder (hk : k.Formed) {order : List Nat} (h : k.setBlockOrder b order = .ok k') :
    k'.Formed := by
  have hcoherent := hk.toCoherent.setBlockOrder h
  obtain ⟨current, -, -, -, -, rfl⟩ := setBlockOrder_eq_ok_iff.mp h
  exact hk.blocks_congr hcoherent rfl rfl

theorem sortBlock (hk : k.Formed) (h : k.sortBlock b = .ok k') : k'.Formed := by
  have hcoherent := hk.toCoherent.sortBlock h
  obtain ⟨order, sorted, -, -, rfl⟩ := sortBlock_perm h
  exact hk.blocks_congr hcoherent rfl rfl

theorem setPhysical (hk : k.Formed) (physical : List Nat) :
    (k.modifyOp x ({ · with physical })).Formed := by
  refine hk.congr (hk.toCoherent.setPhysical physical) (fun y o' hy => ?_)
    fun w wire' hw => ⟨wire', hw, rfl⟩
  rw [op?_modifyOp] at hy
  split at hy
  · rename_i heq
    subst heq
    obtain ⟨o, ho, rfl⟩ := Option.map_eq_some_iff.mp hy
    exact ⟨o, ho, rfl, rfl, rfl⟩
  · exact ⟨o', hy, rfl, rfl, rfl⟩

/-! ## Calls -/

/-- A call that succeeds keeps a kernel formed. -/
theorem run (hk : k.Formed) {c : Call} (h : c.run k = .ok k') : k'.Formed := by
  cases c with
  | alloc => cases h; exact hk.alloc
  | apply kind operands =>
      obtain ⟨out, hout, rfl⟩ := Except.map_eq_ok.mp h
      exact hk.apply hout
  | addBlock => cases h; exact hk.blocks_congr hk.toCoherent.addBlock rfl rfl
  | create kind operands =>
      obtain ⟨out, hout, rfl⟩ := Except.map_eq_ok.mp h
      exact hk.create hout
  | insert block position kind operands =>
      obtain ⟨out, hout, rfl⟩ := Except.map_eq_ok.mp h
      exact hk.insert hout
  | setOperands op operands => exact hk.setOperands h
  | erase op =>
      obtain ⟨out, hout, rfl⟩ := Except.map_eq_ok.mp h
      exact hk.erase hout
  | setBlockOrder block order => exact hk.setBlockOrder h
  | sort block => exact hk.sortBlock h
  | setPhysical op physical => cases h; exact hk.setPhysical physical

/-- Calls keep a kernel formed. -/
theorem calls (hk : k.Formed) (cs : List Call) : (k.calls cs).Formed := by
  induction cs generalizing k with
  | nil => exact hk
  | cons c rest ih =>
      refine ih ?_
      unfold Kernel.call
      split
      · rename_i k' h
        exact hk.run h
      · exact hk

end Formed

end QubitMapper.Kernel
