import Mathlib.Logic.Relation
import Mathlib.Order.Lattice.Nat
import QubitMapper.Proofs.Routing.History

/-!
# Classical registers

A measurement puts the contents of its qubits into the register it names, in place of what was
there. Instructions that share a qubit keep their order in a run of the router, so each measurement
reads what it reads in the program. Measurements that no chain of shared qubits connects may change
places; then a register that several of them name may end with what another one of them read.

## Main results

* `History.readings_eq`: what the measurements of a run read, each where it stands in the program.
* `History.pairwise`: nothing is done before what it depends on.
* `History.store_eq`: a register ends as in the program if its last measurement depends on the
  others.
-/

namespace QubitMapper

variable {α : Type*}

/-! ## Reading and storing -/

/-- What an instruction puts into which register, if it is a measurement into one. -/
def Instruction.reading (ins : Instruction) (cells : Nat → α) : Option (String × List α) :=
  match ins.kind with
  | .measure (some register) => some (register, ins.qubits.map cells)
  | _ => none

/-- What the measurements among some instructions read, in order. -/
def readings (I : Interpretation α) : List Instruction → (Nat → α) → List (String × List α)
  | [], _ => []
  | ins :: rest, cells => (ins.reading cells).toList ++ readings I rest (ins.run I cells)

/-- The registers after some readings, each in place of what its register held before. -/
def store (registers : String → List α) (rs : List (String × List α)) : String → List α :=
  rs.foldl (fun registers r => Function.update registers r.1 r.2) registers

namespace Program

/-- An instruction measures into a register. -/
def MeasuresInto (p : Program) (register : String) (i : Nat) : Prop :=
  ∃ ins, p.instructions[i]? = some ins ∧ ins.kind = .measure (some register)

/-- An instruction shares a qubit with a later one. -/
def Linked (p : Program) (i j : Nat) : Prop :=
  i < j ∧ ∃ earlier later, p.instructions[i]? = some earlier ∧ p.instructions[j]? = some later ∧
    ∃ q ∈ earlier.qubits, q ∈ later.qubits

/-- A chain of shared qubits leads from an instruction to a later one. -/
def Precedes (p : Program) : Nat → Nat → Prop := Relation.TransGen p.Linked

/-- The last measurement into a register depends on all others. -/
def Settles (p : Program) (register : String) : Prop :=
  ∀ i j, p.MeasuresInto register i → p.MeasuresInto register j →
    (∀ l > j, ¬ p.MeasuresInto register l) → i < j → p.Precedes i j

/-- What an instruction reads where it stands in the program. -/
def readingAt (p : Program) (I : Interpretation α) (cells : Nat → α) (i : Nat) :
    Option (String × List α) :=
  p.instructions[i]?.bind fun ins => ins.reading (runAll I (p.instructions.take i) cells)

end Program

section Readings

variable {I : Interpretation α} {cells cells' : Nat → α} {registers : String → List α}
  {register : String} {rs rs' : List (String × List α)} {p : Program}

/-- What is read depends on the cells that are read only. -/
theorem Instruction.reading_map {ins : Instruction} {π : Nat → Nat}
    (h : ∀ v ∈ ins.qubits, cells' (π v) = cells v) :
    Instruction.reading ⟨ins.kind, ins.qubits.map π⟩ cells' = ins.reading cells := by
  have hmap : (ins.qubits.map π).map cells' = ins.qubits.map cells := by
    rw [List.map_map]
    exact List.map_congr_left h
  unfold reading
  simp only [hmap]

theorem readings_append {instructions instructions' : List Instruction} :
    readings I (instructions ++ instructions') cells =
      readings I instructions cells ++
        readings I instructions' (runAll I instructions cells) := by
  induction instructions generalizing cells with
  | nil => rfl
  | cons ins rest ih =>
      simp only [List.cons_append, readings, ih, List.append_assoc]
      rfl

/-- What instructions on the qubits below `n` read depends on the cells there only. -/
theorem readings_congr {n : Nat} {instructions : List Instruction}
    (hqubits : ∀ ins ∈ instructions, ∀ q ∈ ins.qubits, q < n) :
    ∀ {cells cells' : Nat → α}, (∀ v < n, cells v = cells' v) →
      readings I instructions cells = readings I instructions cells' := by
  induction instructions with
  | nil => exact fun _ => rfl
  | cons ins rest ih =>
      intro cells cells' h
      rw [List.forall_mem_cons] at hqubits
      have hreading : ins.reading cells = ins.reading cells' := by
        unfold Instruction.reading
        rw [List.map_congr_left fun q hq => h q (hqubits.1 q hq)]
      have hrun := runAll_congr (I := I) (List.forall_mem_singleton.mpr hqubits.1) h
      simp only [readings, hreading]
      exact congrArg _ (ih hqubits.2 hrun)

@[simp] theorem readings_singleton {ins : Instruction} :
    readings I [ins] cells = (ins.reading cells).toList := by
  simp [readings]

/-- A run in program order reads what each instruction reads where it stands. -/
theorem Program.readings_eq : readings I p.instructions cells =
    (List.range p.instructions.length).filterMap (p.readingAt I cells) := by
  have htake : ∀ m ≤ p.instructions.length, readings I (p.instructions.take m) cells =
      (List.range m).filterMap (p.readingAt I cells) := by
    intro m hm
    induction m with
    | zero => rfl
    | succ m ih =>
        have hins := List.getElem?_eq_getElem (Nat.lt_of_succ_le hm)
        rw [List.take_add_one, hins, Option.toList_some, readings_append, readings_singleton,
          ih (Nat.le_of_succ_le hm), List.range_succ, List.filterMap_append]
        congr 1
        rw [List.filterMap_cons, Program.readingAt, hins, Option.bind_some]
        cases (p.instructions[m]).reading (runAll I (p.instructions.take m) cells) <;> rfl
  simpa using htake _ (Nat.le_refl _)

theorem Program.measuresInto_of_readingAt {i : Nat} {contents : List α}
    (h : p.readingAt I cells i = some (register, contents)) : p.MeasuresInto register i := by
  obtain ⟨ins, hi, hreading⟩ := Option.bind_eq_some_iff.mp h
  unfold Instruction.reading at hreading
  split at hreading
  · rename_i register' hkind
    cases hreading
    exact ⟨ins, hi, hkind⟩
  · cases hreading

theorem Program.MeasuresInto.readingAt {i : Nat} (h : p.MeasuresInto register i)
    (I : Interpretation α) (cells : Nat → α) :
    ∃ contents, p.readingAt I cells i = some (register, contents) := by
  obtain ⟨ins, hi, hkind⟩ := h
  exact ⟨_, by rw [Program.readingAt, hi, Option.bind_some, Instruction.reading, hkind]⟩

/-! ## Registers -/

theorem store_of_not_mem (h : ∀ r ∈ rs, r.1 ≠ register) :
    store registers rs register = registers register := by
  induction rs generalizing registers with
  | nil => rfl
  | cons r rest ih =>
      rw [List.forall_mem_cons] at h
      show store (Function.update registers r.1 r.2) rest register = registers register
      rw [ih h.2, Function.update_of_ne (Ne.symm h.1)]

/-- A register holds what was read into it last. -/
theorem store_of_last {contents : List α} (h : ∀ r ∈ rs', r.1 ≠ register) :
    store registers (rs ++ (register, contents) :: rs') register = contents := by
  rw [store, List.foldl_append, List.foldl_cons]
  exact (store_of_not_mem h).trans (Function.update_self ..)

/-- A register into which nothing of an order is measured stays as it is. -/
theorem Program.store_of_not_measured {order : List Nat}
    (h : ∀ i ∈ order, ¬ p.MeasuresInto register i) :
    store registers (order.filterMap (p.readingAt I cells)) register = registers register := by
  apply store_of_not_mem
  rintro ⟨register', contents⟩ hmem rfl
  obtain ⟨i, hi, hreading⟩ := List.mem_filterMap.mp hmem
  exact h i hi (measuresInto_of_readingAt hreading)

/-- A register holds what the measurement read behind which the order has no other into it. -/
theorem Program.store_of_pairwise {order : List Nat} {R : Nat → Nat → Prop}
    (hpairwise : order.Pairwise R) {j : Nat} (hj : j ∈ order)
    (hafter : ∀ i ∈ order, R j i → ¬ p.MeasuresInto register i) {contents : List α}
    (hreading : p.readingAt I cells j = some (register, contents)) :
    store registers (order.filterMap (p.readingAt I cells)) register = contents := by
  obtain ⟨before, after, rfl⟩ := List.mem_iff_append.mp hj
  rw [List.filterMap_append, List.filterMap_cons, hreading]
  apply store_of_last
  rintro ⟨register', contents'⟩ hmem rfl
  obtain ⟨i, hi, hreading'⟩ := List.mem_filterMap.mp hmem
  have hlater := (List.pairwise_cons.mp (List.pairwise_append.mp hpairwise).2.1).1 i hi
  exact hafter i (by simp [hi]) hlater (measuresInto_of_readingAt hreading')

end Readings

/-! ## Runs -/

namespace History

variable {d : Device} {p : Program} {π₀ π : Nat → Nat} {done : List Nat}
  {trace : List Instruction} {swaps : Nat}

/-- What is ready finds on its qubits what it finds there in program order. -/
theorem runDone_eq (h : History d p π₀ done π trace swaps) {i : Nat} {ins : Instruction}
    (hi : p.instructions[i]? = some ins) (hnew : i ∉ done) (hearlier : p.Awaits done i ins)
    (I : Interpretation α) (cells : Nat → α) :
    ∀ q ∈ ins.qubits, runDone I done 0 p.instructions cells q =
      runAll I (p.instructions.take i) cells q := by
  intro q hq
  have hlt := (List.getElem?_eq_some_iff.mp hi).1
  have hlen : (p.instructions.take i).length = i := List.length_take_of_le (Nat.le_of_lt hlt)
  have htake : ∀ {j : Nat} {other}, (p.instructions.take i)[j]? = some other →
      j < i ∧ p.instructions[j]? = some other := by
    intro j other hj
    have hji : j < i := hlen ▸ (List.getElem?_eq_some_iff.mp hj).1
    exact ⟨hji, by rwa [List.getElem?_take_of_lt hji] at hj⟩
  calc runDone I done 0 p.instructions cells q
    _ = runDone I done i (p.instructions.drop i)
          (runDone I done 0 (p.instructions.take i) cells) q := by
        conv_lhs => rw [← List.take_append_drop i p.instructions]
        rw [runDone_concat, hlen, Nat.zero_add]
    _ = runDone I done 0 (p.instructions.take i) cells q := by
        -- what is done and stands behind shares no qubit
        apply runDone_of_not_mem
        intro j later hj hmem
        rw [List.getElem?_drop] at hj
        have hne : j ≠ 0 := by
          rintro rfl
          exact hnew hmem
        exact h.closed _ hmem later hj i (by omega) ins hi hnew q hq
    _ = runAll I (p.instructions.take i) cells q := by
        refine runDone_eq_runAll ?_ fun j other hj hnot => ?_
        · intro j hj later hlater l hlj other hl hnot
          exact h.closed j hj later (htake hlater).2 l hlj other (htake hl).2 hnot
        · exact hearlier j (htake hj).1 other (htake hj).2 hnot q hq

/-- Each measurement reads what it reads in program order. -/
theorem readings_eq (h : History d p π₀ done π trace swaps) (hvalid : p.Valid)
    (hle : p.numQubits ≤ d.numQubits)
    (hinj : ∀ u < d.numQubits, ∀ v < d.numQubits, π₀ u = π₀ v → u = v) (I : Interpretation α)
    {cells cells' : Nat → α} (h₀ : ∀ v < d.numQubits, cells' (π₀ v) = cells v) :
    readings I trace cells' = done.filterMap (p.readingAt I cells) := by
  induction h with
  | start => rfl
  | @retire done π trace swaps h i ins hi hnew hearlier _ ih =>
      have hcells : ∀ v ∈ ins.qubits, runAll I trace cells' (π v) =
          runAll I (p.instructions.take i) cells v := by
        intro v hv
        have hlt := (hvalid ins (List.mem_of_getElem? hi)).lt v hv
        rw [h.simulates hvalid hle hinj I h₀ v (Nat.lt_of_lt_of_le hlt hle)]
        exact h.runDone_eq hi hnew hearlier I cells v hv
      rw [readings_append, ih, readings_singleton, Instruction.reading_map hcells,
        List.filterMap_append, List.filterMap_cons, Program.readingAt, hi, Option.bind_some]
      cases ins.reading (runAll I (p.instructions.take i) cells) <;> rfl
  | swap _ _ ih =>
      rw [readings_append, ih, readings_singleton]
      exact List.append_nil _

/-- What something done depends on is done. -/
theorem mem_of_precedes (h : History d p π₀ done π trace swaps) {i j : Nat} (hij : p.Precedes i j)
    (hj : j ∈ done) : i ∈ done := by
  have hlinked : ∀ {i j : Nat}, p.Linked i j → j ∈ done → i ∈ done := by
    rintro i j ⟨hlt, earlier, later, hearlier, hlater, q, hq, hq'⟩ hj
    by_contra hi
    exact h.closed j hj later hlater i hlt earlier hearlier hi q hq hq'
  induction hij with
  | single hlink => exact hlinked hlink hj
  | tail _ hlink ih => exact ih (hlinked hlink hj)

/-- Nothing is done before what it depends on. -/
theorem pairwise (h : History d p π₀ done π trace swaps) :
    done.Pairwise fun j i => j ≠ i ∧ ¬ p.Precedes i j := by
  induction h with
  | start => exact .nil
  | @retire done _ _ _ h i _ _ hnew _ _ ih =>
      refine List.pairwise_append.mpr ⟨ih, List.pairwise_singleton _ i, fun j hj l hl => ?_⟩
      obtain rfl : l = i := by simpa using hl
      refine ⟨?_, fun hprecedes => hnew (h.mem_of_precedes hprecedes hj)⟩
      rintro rfl
      exact hnew hj
  | swap _ _ ih => exact ih

/-- A register ends as in the program if its last measurement depends on the others. -/
theorem store_eq (h : History d p π₀ done π trace swaps)
    (hall : ∀ i < p.instructions.length, i ∈ done) {register : String}
    (hsettles : p.Settles register) (I : Interpretation α) (cells : Nat → α)
    (registers : String → List α) :
    store registers (done.filterMap (p.readingAt I cells)) register =
      store registers (readings I p.instructions cells) register := by
  rw [p.readings_eq]
  by_cases hnone : ∃ i, p.MeasuresInto register i
  · -- the last measurement into the register
    have hbound : ∀ i, p.MeasuresInto register i → i < p.instructions.length := by
      rintro i ⟨ins, hi, -⟩
      exact (List.getElem?_eq_some_iff.mp hi).1
    have hbounded : BddAbove {i | p.MeasuresInto register i} :=
      ⟨p.instructions.length, fun i hi => Nat.le_of_lt (hbound i hi)⟩
    have hlast : p.MeasuresInto register (sSup {i | p.MeasuresInto register i}) :=
      Nat.sSup_mem hnone hbounded
    have hafter : ∀ l > sSup {i | p.MeasuresInto register i}, ¬ p.MeasuresInto register l :=
      fun l hl hmeasures => Nat.not_le.mpr hl (le_csSup hbounded hmeasures)
    generalize sSup {i | p.MeasuresInto register i} = j at hlast hafter
    obtain ⟨contents, hreading⟩ := hlast.readingAt I cells
    rw [Program.store_of_pairwise h.pairwise (hall j (hbound j hlast)) ?_ hreading,
      Program.store_of_pairwise List.pairwise_lt_range (List.mem_range.mpr (hbound j hlast))
        (fun i _ => hafter i) hreading]
    rintro i - ⟨hne, hprecedes⟩ hmeasures
    refine hprecedes (hsettles i j hmeasures hlast hafter ?_)
    exact Nat.lt_of_le_of_ne (Nat.not_lt.mp fun hlt => hafter i hlt hmeasures) (Ne.symm hne)
  · have hnot : ∀ i, ¬ p.MeasuresInto register i := fun i hi => hnone ⟨i, hi⟩
    rw [Program.store_of_not_measured fun i _ => hnot i,
      Program.store_of_not_measured fun i _ => hnot i]

end History

end QubitMapper
