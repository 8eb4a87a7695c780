import Mathlib.Data.List.Basic
import QubitMapper.Pass.Labelling
import QubitMapper.Proofs.Lowering

/-!
# Labels of a lowered kernel

Labelling follows the qubits of a program through its kernel. On the kernel of a program it succeeds
exactly if every instruction is `Mappable`, and then labels each wire with the qubit that the wire
carries.

## Main results

* `Labelling.ofKernel_spec`: the labels and sources of a lowered kernel.
* `Labelling.ofKernel_isOk_iff`: when labelling succeeds.
-/

namespace QubitMapper

/-- An instruction that can be mapped: it acts on a qubit, a measurement names its register, and
what needs adjacent qubits acts on at most two. -/
structure Instruction.Mappable (ins : Instruction) : Prop where
  nonempty : ins.qubits ≠ []
  register : ∀ r, ins.kind = .measure r → r.getD "" ≠ ""
  pair : ins.kind.isSupported = true → ins.kind.isMeasure = false → ins.qubits.length ≤ 2

/-- What stands in the labels after a run of insertions. -/
theorem Labels.getElem?_insert (labels : Labels) (w q v : Nat) :
    (labels.insert w q)[v]? = if w = v then some q else labels[v]? := by
  rw [Std.TreeMap.getElem?_insert]
  simp only [Nat.compare_eq_eq]

/-- A label for a wire that has none leaves the labels that there are. -/
theorem Labels.insert_of_fresh {labels : Labels} {w u v : Nat} (hw : labels[w]? = none) (q : Nat)
    (hu : labels[u]? = some v) : (labels.insert w q)[u]? = some v := by
  rw [Labels.getElem?_insert, if_neg, hu]
  rintro rfl
  rw [hw] at hu
  cases hu

/-- A label was there before, or it is the one inserted. -/
theorem Labels.insert_eq_some {labels : Labels} {w q u v : Nat}
    (hu : (labels.insert w q)[u]? = some v) : labels[u]? = some v ∨ u = w ∧ v = q := by
  rw [Labels.getElem?_insert] at hu
  split at hu
  · rename_i heq
    cases hu
    exact .inr ⟨heq.symm, rfl⟩
  · exact .inl hu

namespace Labelling

/-! ## One operation -/

private theorem checkOp_eq_ok_iff {n x : Nat} {ins : Instruction} {o : Operation}
    (hvalid : ins.Valid n) (hkind : o.kind = ins.kind)
    (hlen : o.operands.length = ins.qubits.length) :
    checkOp x o = .ok () ↔ ins.Mappable := by
  have hempty : o.operands.isEmpty = true ↔ ins.qubits = [] := by
    rw [List.isEmpty_iff, ← List.length_eq_zero_iff, hlen, List.length_eq_zero_iff]
  obtain ⟨halloc, harity, -, -⟩ := hvalid
  have hiff : ins.Mappable ↔ ins.qubits ≠ [] ∧ (∀ r, ins.kind = .measure r → r.getD "" ≠ "") ∧
      (ins.kind.isSupported = true → ins.kind.isMeasure = false → ins.qubits.length ≤ 2) :=
    ⟨fun h => ⟨h.nonempty, h.register, h.pair⟩, fun h => ⟨h.1, h.2.1, h.2.2⟩⟩
  rw [hiff]
  unfold checkOp
  rw [hkind, hlen]
  cases hk : ins.kind with
  | alloc => simp [hk, OpKind.isAlloc] at halloc
  | measure r =>
      by_cases hr : r.getD "" = "" <;> by_cases he : ins.qubits = [] <;>
        simp [hr, hempty, he, OpKind.isMeasure]
  | sink =>
      have hone : 1 = ins.qubits.length := by simpa [hk] using harity 1 (by rw [hk]; rfl)
      by_cases he : ins.qubits = [] <;> simp [hempty, he, OpKind.isSink, ← hone]
  | gate name params =>
      by_cases he : ins.qubits = [] <;> by_cases hp : 2 < ins.qubits.length <;>
        simp [hempty, he, hp, OpKind.isSupported, OpKind.isMeasure, OpKind.isSink]
      all_goals omega
  | reset =>
      by_cases he : ins.qubits = [] <;> by_cases hp : 2 < ins.qubits.length <;>
        simp [hempty, he, hp, OpKind.isSupported, OpKind.isMeasure, OpKind.isSink]
      all_goals omega
  | swap =>
      by_cases he : ins.qubits = [] <;> by_cases hp : 2 < ins.qubits.length <;>
        simp [hempty, he, hp, OpKind.isSupported, OpKind.isMeasure, OpKind.isSink]
      all_goals omega
  | unknown name =>
      by_cases he : ins.qubits = [] <;> simp [hempty, he, OpKind.isSupported]

/-- Results get the labels of the operands, and no other wire changes its label. -/
private theorem passOn_spec {o : Operation} {qubits : List Nat} (hnodup : o.results.Nodup)
    (hfresh : ∀ w ∈ o.results, w ∉ o.operands) {labels : Labels}
    (hlabels : List.Forall₂ (fun w q => labels[w]? = some q) o.operands qubits) :
    (∀ (j w q : Nat), o.results[j]? = some w → qubits[j]? = some q →
      (passOn labels o)[w]? = some q) ∧
    ∀ w, w ∉ o.results → (passOn labels o)[w]? = labels[w]? := by
  obtain ⟨kind, operands, results, physical⟩ := o
  simp only at hnodup hfresh hlabels
  show (∀ (j w q : Nat), results[j]? = some w → qubits[j]? = some q → _) ∧
    ∀ w, w ∉ results → _
  unfold passOn
  simp only
  clear kind physical
  induction operands generalizing labels results qubits with
  | nil =>
      obtain rfl := List.forall₂_nil_left_iff.mp hlabels
      simp
  | cons a rest ih =>
      obtain ⟨b, qubits, ha, hrest, rfl⟩ := List.forall₂_cons_left_iff.mp hlabels
      cases results with
      | nil => simp
      | cons r results =>
          rw [List.nodup_cons] at hnodup
          rw [List.zip_cons_cons, List.foldl_cons]
          simp only [ha]
          have hkeep : ∀ w, w ≠ r → (labels.insert r b)[w]? = labels[w]? := by
            intro w hw
            rw [Labels.getElem?_insert, if_neg (Ne.symm hw)]
          have hrest' : List.Forall₂ (fun w q => (labels.insert r b)[w]? = some q) rest qubits := by
            refine forall₂_of_getElem? hrest.length_eq fun j w q hw hq => ?_
            obtain ⟨q', hq', hlabel⟩ := forall₂_getElem? hrest hw
            cases hq.symm.trans hq'
            have hne : w ≠ r := by
              rintro rfl
              exact hfresh w List.mem_cons_self (List.mem_cons_of_mem _ (List.mem_of_getElem? hw))
            rw [hkeep w hne, hlabel]
          obtain ⟨hset, hother⟩ := ih results hnodup.2
            (fun w hw hmem => hfresh w (by simp [hw]) (by simp [hmem])) hrest'
          constructor
          · intro j w q hw hq
            cases j with
            | zero =>
                cases hw
                cases hq
                rw [hother r hnodup.1, Labels.getElem?_insert, if_pos rfl]
            | succ j => exact hset j w q hw hq
          · intro w hw
            rw [List.mem_cons, not_or] at hw
            rw [hother w hw.2, hkeep w hw.1]

/-! ## The entry block -/

section Entry

variable {n m : Nat} {done : List Instruction} {tags : List Nat} {k : Kernel} {l l' : Labelling}

/-- The labelling after the first `m` operations of a lowered kernel. -/
private structure Upto (n : Nat) (tags : List Nat) (k : Kernel) (m : Nat) (l : Labelling) :
    Prop where
  sources : l.sources = Array.range (min m n)
  labels : ∀ x < m, ∀ o, k.op? x = some o → ∀ w ∈ o.results, l.labels[w]? = tags[w]?
  known : ∀ (w q : Nat), l.labels[w]? = some q → w < k.wires.size

private theorem Upto.alloc (h : Upto n tags k m l) (hk : Lowered n done tags k) (hm : m < n) :
    step k l m = .ok ⟨l.labels.insert m m, l.sources.push m⟩ ∧
      Upto n tags k (m + 1) ⟨l.labels.insert m m, l.sources.push m⟩ := by
  obtain ⟨hop, htag⟩ := hk.source m hm
  have hsize : l.sources.size = m := by
    rw [h.sources, Array.size_range]
    omega
  obtain ⟨wire, hwire, -⟩ := hk.consistent.producer_of_mem hop (List.mem_singleton_self _)
  refine ⟨?_, ?_, ?_, ?_⟩
  · unfold step
    rw [hop]
    simp [checkOp, bind, Except.bind, pure, Except.pure, OpKind.isAlloc, hsize]
  · have hmin : min (m + 1) n = min m n + 1 := by omega
    have hmin' : min m n = m := by omega
    simp only [h.sources, hmin, Array.range_succ, hmin', Array.push_eq_append]
  · intro x hx o ho w hw
    show (l.labels.insert m m)[w]? = tags[w]?
    rw [Labels.getElem?_insert]
    by_cases hxm : x = m
    · subst hxm
      rw [hop] at ho
      cases ho
      obtain rfl := List.mem_singleton.mp hw
      rw [if_pos rfl, htag]
    · rw [if_neg, h.labels x (by omega) o ho w hw]
      rintro rfl
      obtain ⟨wire, hwire, hproducer⟩ := hk.consistent.producer_of_mem ho hw
      obtain ⟨wire', hwire', hproducer'⟩ := hk.consistent.producer_of_mem hop
        (List.mem_singleton_self _)
      cases hwire.symm.trans hwire'
      exact hxm (hproducer.symm.trans hproducer')
  · intro w q hw
    rcases Labels.insert_eq_some hw with hw | ⟨rfl, -⟩
    · exact h.known w q hw
    · exact Kernel.lt_of_wire?_eq_some hwire

private theorem step_eq_ok_iff {x : Nat} {o : Operation} (hop : k.op? x = some o)
    (halloc : o.kind.isAlloc = false) :
    step k l x = .ok l' ↔ checkOp x o = .ok () ∧ l' = { l with labels := passOn l.labels o } := by
  unfold step
  simp only [hop, Except.bind_eq_ok, halloc, Bool.false_eq_true, ↓reduceIte, pure, Except.pure,
    Except.ok.injEq]
  exact ⟨fun ⟨_, hcheck, hl⟩ => ⟨hcheck, hl.symm⟩, fun ⟨hcheck, hl⟩ => ⟨⟨⟩, hcheck, hl.symm⟩⟩

private theorem step_isOk_iff (hk : Lowered n done tags k) (l : Labelling)
    {ins : Instruction} (hm : done[m]? = some ins) :
    (∃ l', step k l (n + m) = .ok l') ↔ ins.Mappable := by
  obtain ⟨o, hop, hencodes⟩ := hk.instruction m ins hm
  have hvalid := hk.valid ins (List.mem_of_getElem? hm)
  rw [← checkOp_eq_ok_iff (x := n + m) hvalid hencodes.kind hencodes.operands.length_eq]
  have halloc : o.kind.isAlloc = false := by rw [hencodes.kind, hvalid.alloc]
  simp only [step_eq_ok_iff hop halloc]
  exact ⟨fun ⟨_, hcheck, _⟩ => hcheck, fun hcheck => ⟨_, hcheck, rfl⟩⟩

private theorem Upto.next (h : Upto n tags k (n + m) l) (hk : Lowered n done tags k)
    {ins : Instruction} (hm : done[m]? = some ins) (hstep : step k l (n + m) = .ok l') :
    Upto n tags k (n + m + 1) l' := by
  obtain ⟨o, hop, hencodes⟩ := hk.instruction m ins hm
  have hvalid := hk.valid ins (List.mem_of_getElem? hm)
  have halloc : o.kind.isAlloc = false := by rw [hencodes.kind, hvalid.alloc]
  obtain ⟨-, rfl⟩ := (step_eq_ok_iff hop halloc).mp hstep
  -- operands come from operations before this one, which have been labelled
  have hoperand : ∀ w q wire, k.wire? w = some wire → Origin n (done.take m) q wire.producer →
      q < n → wire.producer < n + m := by
    intro w q wire _ horigin hq
    have := horigin.lt hq
    rw [List.length_take] at this
    omega
  have hlabels : List.Forall₂ (fun w q => l.labels[w]? = some q) o.operands ins.qubits := by
    refine forall₂_of_getElem? hencodes.operands.length_eq fun j w q hw hq => ?_
    obtain ⟨q', hq', htag, wire, hwire, horigin⟩ := forall₂_getElem? hencodes.operands hw
    cases hq.symm.trans hq'
    obtain ⟨o', ho', hmem⟩ := hk.made w wire hwire
    have hlt := hoperand w q wire hwire horigin (hvalid.lt q (List.mem_of_getElem? hq))
    rw [h.labels _ hlt o' ho' w hmem, htag]
  have hfresh : ∀ w ∈ o.results, w ∉ o.operands := by
    intro w hw hmem
    obtain ⟨wire, hwire, hproducer⟩ := hk.consistent.producer_of_mem hop hw
    obtain ⟨q, hq, -, wire', hwire', horigin⟩ := forall₂_mem_left hencodes.operands hmem
    cases hwire.symm.trans hwire'
    have := hoperand w q wire hwire horigin (hvalid.lt q hq)
    omega
  obtain ⟨hset, hother⟩ := passOn_spec (hk.consistent.results_nodup hop) hfresh hlabels
  refine ⟨?_, ?_, ?_⟩
  · have hmin : min (n + m + 1) n = min (n + m) n := by omega
    rw [hmin]
    exact h.sources
  · intro x hx o' ho' w hw
    show (passOn l.labels o)[w]? = tags[w]?
    by_cases hxm : x = n + m
    · subst hxm
      cases hop.symm.trans ho'
      obtain ⟨j, hj⟩ := List.mem_iff_getElem?.mp hw
      obtain ⟨q, hq, htag⟩ := forall₂_getElem? hencodes.results hj
      rw [htag]
      apply hset j w q hj
      split at hq
      · cases hq
      · exact hq
    · rw [hother, h.labels x (by omega) o' ho' w hw]
      intro hmem
      obtain ⟨wire, hwire, hproducer⟩ := hk.consistent.producer_of_mem ho' hw
      obtain ⟨wire', hwire', hproducer'⟩ := hk.consistent.producer_of_mem hop hmem
      cases hwire.symm.trans hwire'
      exact hxm (hproducer.symm.trans hproducer')
  · intro w q hw
    by_cases hmem : w ∈ o.results
    · obtain ⟨wire, hwire, -⟩ := hk.consistent.producer_of_mem hop hmem
      exact Kernel.lt_of_wire?_eq_some hwire
    · exact h.known w q ((hother w hmem).symm.trans hw)

private theorem prefix_spec (hk : Lowered n done tags k) :
    ∀ m ≤ n + done.length,
      ((∃ l, (List.range m).foldlM (step k) ⟨{}, #[]⟩ = .ok l) ↔
        ∀ (i : Nat) ins, n + i < m → done[i]? = some ins → ins.Mappable) ∧
      ∀ l, (List.range m).foldlM (step k) ⟨{}, #[]⟩ = .ok l → Upto n tags k m l := by
  intro m
  induction m with
  | zero =>
      intro _
      refine ⟨by simp [pure, Except.pure], ?_⟩
      rintro l hl
      cases hl
      exact ⟨by simp, by simp, by simp⟩
  | succ m ih =>
      intro hm
      obtain ⟨hok, hupto⟩ := ih (by omega)
      simp only [List.range_succ, List.foldlM_append, Except.bind_eq_ok, List.foldlM_cons,
        List.foldlM_nil, pure, Except.pure, Except.ok.injEq]
      by_cases hsource : m < n
      · constructor
        · constructor
          · rintro - i ins hlt
            omega
          · intro _
            obtain ⟨l, hl⟩ := hok.mpr fun i ins hlt => by omega
            exact ⟨_, l, hl, _, ((hupto l hl).alloc hk hsource).1, rfl⟩
        · rintro _ ⟨l, hl, _, hstep, rfl⟩
          obtain ⟨heq, hnext⟩ := (hupto l hl).alloc hk hsource
          cases heq.symm.trans hstep
          exact hnext
      · obtain ⟨i, rfl⟩ : ∃ i, m = n + i := ⟨m - n, by omega⟩
        obtain ⟨ins, hins⟩ : ∃ ins, done[i]? = some ins :=
          ⟨_, List.getElem?_eq_getElem (show i < done.length by omega)⟩
        constructor
        · constructor
          · rintro ⟨_, l, hl, l', hstep, -⟩ j other hlt hj
            by_cases hji : j = i
            · subst hji
              cases hins.symm.trans hj
              exact (step_isOk_iff hk l hins).mp ⟨l', hstep⟩
            · exact hok.mp ⟨l, hl⟩ j other (by omega) hj
          · intro hall
            obtain ⟨l, hl⟩ := hok.mpr fun j other hlt => hall j other (by omega)
            obtain ⟨l', hl'⟩ := (step_isOk_iff hk l hins).mpr (hall i ins (by omega) hins)
            exact ⟨l', l, hl, l', hl', rfl⟩
        · rintro _ ⟨l, hl, _, hstep, rfl⟩
          exact (hupto l hl).next hk hins hstep

/-- Labelling accepts the kernel of a program exactly if all instructions can be mapped. -/
theorem ofKernel_isOk_iff (hk : Lowered n done tags k) :
    (∃ l, ofKernel k = .ok l) ↔ ∀ ins ∈ done, ins.Mappable := by
  have hentry : k.entry = List.range (n + done.length) := by rw [Kernel.entry, hk.blocks]; rfl
  unfold ofKernel
  rw [hentry, (prefix_spec hk _ (Nat.le_refl _)).1]
  constructor
  · intro h ins hins
    obtain ⟨i, hi⟩ := List.mem_iff_getElem?.mp hins
    have := (List.getElem?_eq_some_iff.mp hi).1
    exact h i ins (by omega) hi
  · intro h i ins _ hi
    exact h ins (List.mem_of_getElem? hi)

/-- The labels of a lowered kernel are the qubits that its wires carry, and its sources are the
allocations in order. -/
theorem ofKernel_spec (hk : Lowered n done tags k) (h : ofKernel k = .ok l) :
    l.sources = Array.range n ∧ ∀ w : Nat, l.labels[w]? = tags[w]? := by
  have hentry : k.entry = List.range (n + done.length) := by rw [Kernel.entry, hk.blocks]; rfl
  unfold ofKernel at h
  rw [hentry] at h
  obtain ⟨hsources, hlabels, hknown⟩ := (prefix_spec hk _ (Nat.le_refl _)).2 l h
  refine ⟨by rw [hsources, Nat.min_eq_right (Nat.le_add_right _ _)], ?_⟩
  intro w
  cases hw : k.wire? w with
  | some wire =>
      obtain ⟨o, ho, hmem⟩ := hk.made w wire hw
      exact hlabels _ (hk.ops ▸ Kernel.lt_of_op?_eq_some ho) o ho w hmem
  | none =>
      have hle := Kernel.wire?_eq_none_iff.mp hw
      rw [List.getElem?_eq_none (hk.wires ▸ hle), Option.eq_none_iff_forall_ne_some]
      exact fun q hq => Nat.not_lt.mpr hle (hknown w q hq)

end Entry

end Labelling

end QubitMapper
