import Mathlib.Data.List.Induction
import Mathlib.Logic.Function.Basic
import QubitMapper.Circuit.Program.Basic

/-!
# What instructions do

Every qubit is a cell with some contents. An instruction reads the cells of its qubits and writes
them anew. What each kind does is left open, except that a swap exchanges its two cells; so what is
proved holds of bits, of basis states and of anything else that gates may act on.

## Main results

* `Instruction.run_comm`: instructions that share no qubit may change places.
* `write_map`: writing through an injective renaming of qubits.
* `runDone_append`: an instruction that waited for all earlier ones on its qubits may be run in
  program order.
* `runDone_eq_runAll`: where nothing is left to do, cells are as after a run of all instructions.
-/

namespace QubitMapper

/-- What an operation of each kind makes of the contents of its operands' cells. -/
abbrev Interpretation (α : Type*) := OpKind → List α → List α

variable {α : Type*}

/-- What an operation makes of the contents of its operands' cells, a swap being an exchange. -/
def Interpretation.act (I : Interpretation α) : OpKind → List α → List α
  | .swap, [x, y] => [y, x]
  | .swap, cells => cells
  | kind, cells => I kind cells

/-- Contents put into the cells of some qubits, one after the other. -/
def write (cells : Nat → α) : List Nat → List α → Nat → α
  | q :: qubits, x :: contents => write (Function.update cells q x) qubits contents
  | _, _ => cells

/-- The cells after an instruction. -/
def Instruction.run (I : Interpretation α) (ins : Instruction) (cells : Nat → α) : Nat → α :=
  write cells ins.qubits (I.act ins.kind (ins.qubits.map cells))

/-- The cells after some instructions in order. -/
def runAll (I : Interpretation α) (instructions : List Instruction) (cells : Nat → α) : Nat → α :=
  instructions.foldl (fun cells ins => ins.run I cells) cells

/-! ## Writing -/

section Write

variable {cells cells' : Nat → α} {qubits : List Nat} {contents : List α} {q : Nat}

theorem write_of_not_mem (h : q ∉ qubits) : write cells qubits contents q = cells q := by
  induction qubits generalizing cells contents with
  | nil => rfl
  | cons r rest ih =>
      rw [List.mem_cons, not_or] at h
      cases contents with
      | nil => rfl
      | cons x contents =>
          show write (Function.update cells r x) rest contents q = cells q
          rw [ih h.2, Function.update_of_ne h.1]

/-- What is written depends on the cells that are written only. -/
theorem write_congr (h : ∀ q ∈ qubits, cells q = cells' q) (hq : q ∈ qubits) :
    write cells qubits contents q = write cells' qubits contents q := by
  induction qubits generalizing cells cells' contents with
  | nil => cases hq
  | cons r rest ih =>
      cases contents with
      | nil => exact h q hq
      | cons x contents =>
          show write (Function.update cells r x) rest contents q =
            write (Function.update cells' r x) rest contents q
          have hrest : ∀ s ∈ rest, Function.update cells r x s = Function.update cells' r x s := by
            intro s hs
            by_cases hsr : s = r
            · rw [hsr, Function.update_self, Function.update_self]
            · rw [Function.update_of_ne hsr, Function.update_of_ne hsr, h s (by simp [hs])]
          by_cases hmem : q ∈ rest
          · exact ih hrest hmem
          · obtain rfl : q = r := (List.mem_cons.mp hq).resolve_right hmem
            rw [write_of_not_mem hmem, write_of_not_mem hmem, Function.update_self,
              Function.update_self]

/-- Writing through a renaming `π` of the qubits below `n` that keeps them apart. -/
theorem write_map {n : Nat} {π : Nat → Nat} (hinj : ∀ u < n, ∀ v < n, π u = π v → u = v)
    (hqubits : ∀ q ∈ qubits, q < n) (h : ∀ v < n, cells' (π v) = cells v) {v : Nat} (hv : v < n) :
    write cells' (qubits.map π) contents (π v) = write cells qubits contents v := by
  induction qubits generalizing cells cells' contents with
  | nil => exact h v hv
  | cons r rest ih =>
      cases contents with
      | nil => exact h v hv
      | cons x contents =>
          apply ih (fun q hq => hqubits q (by simp [hq]))
          intro u hu
          by_cases hur : u = r
          · rw [hur, Function.update_self, Function.update_self]
          · have hne : π u ≠ π r := fun heq => hur (hinj u hu r (hqubits r (by simp)) heq)
            rw [Function.update_of_ne hur, Function.update_of_ne hne, h u hu]

end Write

/-! ## Changing the order -/

section Order

variable {I : Interpretation α} {ins other : Instruction} {cells cells' : Nat → α} {q : Nat}

theorem Instruction.run_of_not_mem (h : q ∉ ins.qubits) : ins.run I cells q = cells q :=
  write_of_not_mem h

/-- What an instruction does depends on the cells of its qubits only. -/
theorem Instruction.run_congr (h : ∀ q ∈ ins.qubits, cells q = cells' q) (hq : q ∈ ins.qubits) :
    ins.run I cells q = ins.run I cells' q := by
  unfold run
  rw [List.map_congr_left h]
  exact write_congr h hq

/-- Instructions that share no qubit may change places. -/
theorem Instruction.run_comm (h : ∀ q ∈ ins.qubits, q ∉ other.qubits) :
    ins.run I (other.run I cells) = other.run I (ins.run I cells) := by
  funext q
  by_cases hq : q ∈ ins.qubits
  · rw [run_of_not_mem (h q hq)]
    exact run_congr (fun r hr => run_of_not_mem (h r hr)) hq
  · rw [run_of_not_mem hq]
    by_cases ho : q ∈ other.qubits
    · exact (run_congr (fun r hr => run_of_not_mem fun hmem => h r hmem hr) ho).symm
    · rw [run_of_not_mem ho, run_of_not_mem ho, run_of_not_mem hq]

/-- What instructions on the qubits below `n` do there depends on the cells there only. -/
theorem runAll_congr {n : Nat} {instructions : List Instruction}
    (hqubits : ∀ ins ∈ instructions, ∀ q ∈ ins.qubits, q < n) :
    ∀ {cells cells' : Nat → α}, (∀ v < n, cells v = cells' v) →
      ∀ v < n, runAll I instructions cells v = runAll I instructions cells' v := by
  induction instructions with
  | nil => exact fun h => h
  | cons ins rest ih =>
      intro cells cells' h v hv
      refine ih (fun other hother => hqubits other (by simp [hother])) (fun u hu => ?_) v hv
      show ins.run I cells u = ins.run I cells' u
      by_cases hmem : u ∈ ins.qubits
      · exact Instruction.run_congr (fun q hq => h q (hqubits ins (by simp) q hq)) hmem
      · rw [Instruction.run_of_not_mem hmem, Instruction.run_of_not_mem hmem, h u hu]

/-- The cells after those instructions of a list whose positions, counted from `base`, are among
`done`, in the order of the list. -/
def runDone (I : Interpretation α) (done : List Nat) :
    Nat → List Instruction → (Nat → α) → Nat → α
  | _, [], cells => cells
  | base, ins :: rest, cells =>
      runDone I done (base + 1) rest (if base ∈ done then ins.run I cells else cells)

/-- Nothing done leaves the cells as they are. -/
theorem runDone_nil {base : Nat} {instructions : List Instruction} :
    runDone I [] base instructions cells = cells := by
  induction instructions generalizing base with
  | nil => rfl
  | cons ins rest ih => exact ih

/-- Everything done is a run of all instructions. -/
theorem runDone_of_all {done : List Nat} {instructions : List Instruction} :
    ∀ {base : Nat} {cells : Nat → α},
      (∀ i, base ≤ i → i < base + instructions.length → i ∈ done) →
      runDone I done base instructions cells = runAll I instructions cells := by
  induction instructions with
  | nil => intros; rfl
  | cons ins rest ih =>
      intro base cells h
      have hbase : base ∈ done := h base (Nat.le_refl _) (by simp)
      show runDone I done (base + 1) rest (if base ∈ done then _ else _) = _
      rw [if_pos hbase]
      refine ih fun i hi hlt => h i (by omega) ?_
      rw [List.length_cons]
      omega

/-- Positions before the first one do not matter. -/
private theorem runDone_append_of_lt {done : List Nat} {instructions : List Instruction} {i : Nat} :
    ∀ {base : Nat} {cells : Nat → α}, i < base →
      runDone I (done ++ [i]) base instructions cells =
        runDone I done base instructions cells := by
  induction instructions with
  | nil => intros; rfl
  | cons ins rest ih =>
      intro base cells h
      have hmem : base ∈ done ++ [i] ↔ base ∈ done := by
        rw [List.mem_append, List.mem_singleton]
        exact ⟨fun hm => hm.resolve_right (by omega), .inl⟩
      show runDone I (done ++ [i]) (base + 1) rest _ = runDone I done (base + 1) rest _
      simp only [hmem]
      exact ih (by omega)

/-- An instruction run before others that share no qubit with it may be run after them. -/
private theorem runDone_run {done : List Nat} {instructions : List Instruction} :
    ∀ {base : Nat} {cells : Nat → α},
      (∀ (j : Nat) other, instructions[j]? = some other → base + j ∈ done →
        ∀ q ∈ ins.qubits, q ∉ other.qubits) →
      runDone I done base instructions (ins.run I cells) =
        ins.run I (runDone I done base instructions cells) := by
  induction instructions with
  | nil => intros; rfl
  | cons first rest ih =>
      intro base cells h
      have hrest : ∀ (j : Nat) other, rest[j]? = some other → base + 1 + j ∈ done →
          ∀ q ∈ ins.qubits, q ∉ other.qubits := by
        intro j other hj hmem
        exact h (j + 1) other hj (by rwa [Nat.add_right_comm] at hmem)
      show runDone I done (base + 1) rest _ = ins.run I (runDone I done (base + 1) rest _)
      rw [← ih hrest]
      by_cases hbase : base ∈ done
      · rw [if_pos hbase, if_pos hbase,
          Instruction.run_comm (h 0 first rfl (by simpa using hbase))]
      · rw [if_neg hbase, if_neg hbase]

/-- An instruction that comes to be done adds its run, if those behind it that are done share no
qubit with it. -/
theorem runDone_append {done : List Nat} {instructions : List Instruction} {i : Nat} :
    ∀ {base : Nat} {cells : Nat → α}, instructions[i]? = some ins → base + i ∉ done →
      (∀ (j : Nat) other, i < j → instructions[j]? = some other → base + j ∈ done →
        ∀ q ∈ ins.qubits, q ∉ other.qubits) →
      runDone I (done ++ [base + i]) base instructions cells =
        ins.run I (runDone I done base instructions cells) := by
  induction instructions generalizing i with
  | nil => intro base cells hi; cases hi
  | cons first rest ih =>
      intro base cells hi hnew h
      have hrest : ∀ (j : Nat) other, i < j + 1 → rest[j]? = some other → base + 1 + j ∈ done →
          ∀ q ∈ ins.qubits, q ∉ other.qubits := by
        intro j other hlt hj hmem
        exact h (j + 1) other hlt hj (by rwa [Nat.add_right_comm] at hmem)
      show runDone I (done ++ [base + i]) (base + 1) rest _ =
        ins.run I (runDone I done (base + 1) rest _)
      cases i with
      | zero =>
          cases hi
          rw [Nat.add_zero] at hnew ⊢
          rw [runDone_append_of_lt (Nat.lt_succ_self base), if_neg hnew, if_pos (by simp)]
          exact runDone_run fun j other hj hmem => hrest j other (Nat.succ_pos j) hj hmem
      | succ i =>
          have hmem : base ∈ done ++ [base + (i + 1)] ↔ base ∈ done := by
            rw [List.mem_append, List.mem_singleton]
            exact ⟨fun hm => hm.resolve_right (by omega), .inl⟩
          simp only [hmem]
          have heq : base + (i + 1) = base + 1 + i := by omega
          rw [heq] at hnew ⊢
          exact ih hi hnew fun j other hlt hj hm => hrest j other (by omega) hj hm

/-- One part of a list after the other. -/
theorem runDone_concat {done : List Nat} {instructions instructions' : List Instruction} :
    ∀ {base : Nat} {cells : Nat → α},
      runDone I done base (instructions ++ instructions') cells =
        runDone I done (base + instructions.length) instructions'
          (runDone I done base instructions cells) := by
  induction instructions with
  | nil => intros; rfl
  | cons ins rest ih =>
      intro base cells
      rw [List.length_cons, ← Nat.add_assoc, Nat.add_right_comm]
      exact ih

/-- A cell that nothing done acts on stays as it is. -/
theorem runDone_of_not_mem {done : List Nat} {instructions : List Instruction} :
    ∀ {base : Nat} {cells : Nat → α},
      (∀ (j : Nat) ins, instructions[j]? = some ins → base + j ∈ done → q ∉ ins.qubits) →
      runDone I done base instructions cells q = cells q := by
  induction instructions with
  | nil => intros; rfl
  | cons ins rest ih =>
      intro base cells h
      show runDone I done (base + 1) rest (if base ∈ done then _ else _) q = cells q
      rw [ih fun j other hj hmem => h (j + 1) other hj (by rwa [Nat.add_right_comm] at hmem)]
      split
      · rename_i hbase
        exact Instruction.run_of_not_mem (h 0 ins rfl hbase)
      · rfl

/-- If what is done waited for everything before it on its qubits, then a cell that nothing else
acts on is as after a run of all instructions. -/
theorem runDone_eq_runAll {done : List Nat} {instructions : List Instruction}
    (hclosed : ∀ j ∈ done, ∀ later, instructions[j]? = some later → ∀ i < j, ∀ ins,
      instructions[i]? = some ins → i ∉ done → ∀ q ∈ ins.qubits, q ∉ later.qubits) :
    ∀ {q : Nat}, (∀ (i : Nat) ins, instructions[i]? = some ins → i ∉ done → q ∉ ins.qubits) →
      runDone I done 0 instructions cells q = runAll I instructions cells q := by
  induction instructions using List.reverseRecOn with
  | nil => intros; rfl
  | append_singleton rest last ih =>
      intro q hq
      have hleft : ∀ {i : Nat} {ins}, rest[i]? = some ins → (rest ++ [last])[i]? = some ins :=
        fun hi => by rw [List.getElem?_append_left (List.getElem?_eq_some_iff.mp hi).1, hi]
      have hlast : (rest ++ [last])[rest.length]? = some last := by simp
      have hrest := @ih fun j hj later hlater i hij ins hi =>
        hclosed j hj later (hleft hlater) i hij ins (hleft hi)
      rw [runDone_concat, runAll, List.foldl_append, Nat.zero_add]
      show (if rest.length ∈ done then last.run I _ else _) q = last.run I (runAll I rest cells) q
      by_cases hdone : rest.length ∈ done
      · rw [if_pos hdone]
        by_cases hmem : q ∈ last.qubits
        · -- nothing that is not done stands before the last one on any of its qubits
          refine Instruction.run_congr (fun r hr => hrest fun i ins hi hnot hmem => ?_) hmem
          have hlt := (List.getElem?_eq_some_iff.mp hi).1
          exact hclosed _ hdone last hlast i hlt ins (hleft hi) hnot r hmem hr
        · rw [Instruction.run_of_not_mem hmem, Instruction.run_of_not_mem hmem]
          exact hrest fun i ins hi hnot => hq i ins (hleft hi) hnot
      · rw [if_neg hdone, Instruction.run_of_not_mem (hq _ last hlast hdone)]
        exact hrest fun i ins hi hnot => hq i ins (hleft hi) hnot

end Order

end QubitMapper
