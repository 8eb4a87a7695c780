import Mathlib.Data.List.Enum
import Mathlib.Data.List.Nodup
import Mathlib.Data.List.Perm.Subperm
import Mathlib.Logic.Equiv.Basic
import QubitMapper.Placement.Basic

/-!
# Full placements

A placement of `n` virtual qubits on `n` physical ones that is complete and bijective is a
permutation in two tables. `Realizes n p π` ties the tables to the permutation.

## Main results

* `Placement.exists_realizes`: complete and bijective tables realize a permutation.
* `Placement.Realizes.swap`: a swap exchanges two physical qubits.
* `Placement.Realizes.isComplete`, `Placement.Realizes.isBijective`.
* `Placement.isComplete_iff`, `Placement.isBijective_iff`: what the checks ask.
* `Placement.physical?_swap`, `Placement.virtual?_swap`, `Placement.swap_swap`: swaps of placements
  with holes.
-/

namespace QubitMapper.Placement

variable {n a b v q : Nat} {p : Placement} {π : Nat → Nat}

/-- Virtual qubit `v` is on physical qubit `π v`, and both tables say so. -/
structure Realizes (n : Nat) (p : Placement) (π : Nat → Nat) : Prop where
  places : p.places.size = n
  holders : p.holders.size = n
  lt : ∀ v < n, π v < n
  onto : ∀ q < n, ∃ v < n, π v = q
  place : ∀ v < n, p.places[v]? = some (some (π v))
  holder : ∀ v < n, p.holders[π v]? = some (some v)

namespace Realizes

theorem inj (h : p.Realizes n π) (ha : a < n) (hb : b < n) (heq : π a = π b) : a = b := by
  have h1 := h.holder a ha
  rw [heq, h.holder b hb] at h1
  simpa using h1.symm

theorem inj_iff (h : p.Realizes n π) (ha : a < n) (hb : b < n) : π a = π b ↔ a = b :=
  ⟨h.inj ha hb, fun heq => heq ▸ rfl⟩

theorem slot? (h : p.Realizes n π) (hv : v < n) : p.slot? v = some (π v) := by
  simp [Placement.slot?, h.place v hv]

theorem physical? (h : p.Realizes n π) (hv : v < n) : p.physical? v = some (π v) := by
  simp [Placement.physical?, h.place v hv]

theorem virtual? (h : p.Realizes n π) (hv : v < n) : p.virtual? (π v) = some v := by
  simp [Placement.virtual?, h.holder v hv]

theorem virtualCount (h : p.Realizes n π) : p.virtualCount = n := h.places

theorem physicalCount (h : p.Realizes n π) : p.physicalCount = n := h.holders

/-- The places of the first virtual qubits. -/
theorem firstSlots (h : p.Realizes n π) {m : Nat} (hm : m ≤ n) :
    p.firstSlots m = (List.range m).map π := by
  refine List.ext_getElem? fun i => ?_
  simp only [Placement.firstSlots, List.getElem?_map, List.getElem?_take, Array.getElem?_toList]
  by_cases hi : i < m
  · simp [hi, h.place i (by omega)]
  · simp [hi]

theorem nodup_map_range (h : p.Realizes n π) {m : Nat} (hm : m ≤ n) :
    ((List.range m).map π).Nodup := by
  refine List.Nodup.map_on ?_ List.nodup_range
  intro u hu v hv heq
  rw [List.mem_range] at hu hv
  exact h.inj (by omega) (by omega) heq

/-! ## Swaps -/

/-- A swap exchanges two physical qubits. -/
theorem swap (h : p.Realizes n π) (ha : a < n) (hb : b < n) :
    (p.swap a b).Realizes n fun v => Equiv.swap a b (π v) := by
  obtain ⟨va, hva, rfl⟩ := h.onto a ha
  obtain ⟨vb, hvb, rfl⟩ := h.onto b hb
  have hplaces : (p.swap (π va) (π vb)).places =
      (p.places.setIfInBounds va (some (π vb))).setIfInBounds vb (some (π va)) := by
    simp only [Placement.swap, h.virtual? hva, h.virtual? hvb, moveTo]
  have hholders : (p.swap (π va) (π vb)).holders =
      (p.holders.setIfInBounds (π va) (some vb)).setIfInBounds (π vb) (some va) := by
    simp only [Placement.swap, h.virtual? hva, h.virtual? hvb]
  refine
    { places := by simp [hplaces, h.places]
      holders := by simp [hholders, h.holders]
      lt := ?_
      onto := ?_
      place := ?_
      holder := ?_ }
  · intro v hv
    rw [Equiv.swap_apply_def]
    split
    · exact hb
    · split
      · exact ha
      · exact h.lt v hv
  · intro q hq
    have hlt : Equiv.swap (π va) (π vb) q < n := by
      rw [Equiv.swap_apply_def]
      split
      · exact hb
      · split
        · exact ha
        · exact hq
    obtain ⟨v, hv, heq⟩ := h.onto _ hlt
    exact ⟨v, hv, by rw [heq, Equiv.swap_apply_self]⟩
  · intro v hv
    rw [hplaces, Array.getElem?_setIfInBounds, Array.getElem?_setIfInBounds,
      Equiv.swap_apply_def]
    simp only [h.inj_iff hv hva, h.inj_iff hv hvb, Array.size_setIfInBounds, h.places, hva, hvb,
      if_true]
    by_cases hb' : vb = v
    · subst hb'
      by_cases hab : vb = va
      · subst hab
        simp
      · simp [hab]
    · by_cases ha' : va = v
      · subst ha'
        simp [hb']
      · simp [hb', ha', Ne.symm hb', Ne.symm ha', h.place v hv]
  · intro v hv
    rw [hholders, Array.getElem?_setIfInBounds, Array.getElem?_setIfInBounds,
      Equiv.swap_apply_def]
    simp only [h.inj_iff hv hva, h.inj_iff hv hvb, Array.size_setIfInBounds, h.holders]
    by_cases ha' : v = va
    · subst ha'
      simp [hb]
    · by_cases hb' : v = vb
      · subst hb'
        have hne : π v ≠ π va := fun heq => ha' (h.inj hv hva heq)
        simp [ha', hne, ha]
      · have hne : π va ≠ π v := fun heq => ha' (h.inj hva hv heq).symm
        have hne' : π vb ≠ π v := fun heq => hb' (h.inj hvb hv heq).symm
        simp [ha', hb', hne, hne', h.holder v hv]

/-! ## The checks -/

theorem isComplete (h : p.Realizes n π) : p.isComplete = true := by
  rw [Placement.isComplete, Array.all_eq_true]
  intro v hv
  have := h.place v (h.places ▸ hv)
  rw [Array.getElem?_eq_getElem hv, Option.some.injEq] at this
  rw [this]
  rfl

private theorem answers_iff {table other : Array (Option Nat)} :
    answers table other = true ↔
      ∀ i j : Nat, table[i]? = some (some j) → other[j]? = some (some i) := by
  simp only [answers, List.all_eq_true, Prod.forall, List.mk_mem_zipIdx_iff_getElem?,
    Array.getElem?_toList]
  constructor
  · intro h i j hi
    simpa using h (some j) i hi
  · intro h entry i hi
    cases entry with
    | none => rfl
    | some j => simpa using h i j hi

theorem isBijective (h : p.Realizes n π) : p.isBijective = true := by
  rw [Placement.isBijective, Bool.and_eq_true, answers_iff, answers_iff]
  constructor
  · intro v q hv
    have hlt : v < n := h.places ▸ (Array.getElem?_eq_some_iff.mp hv).1
    have hq := (h.place v hlt).symm.trans hv
    simp only [Option.some.injEq] at hq
    exact hq ▸ h.holder v hlt
  · intro q v hq
    have hlt : q < n := h.holders ▸ (Array.getElem?_eq_some_iff.mp hq).1
    obtain ⟨u, hu, rfl⟩ := h.onto q hlt
    have huv := (h.holder u hu).symm.trans hq
    simp only [Option.some.injEq] at huv
    exact huv ▸ h.place u hu

end Realizes

/-! ## What the checks ask -/

theorem physical?_eq_some : p.physical? v = some q ↔ p.places[v]? = some (some q) := by
  simp [physical?, Option.join_eq_some_iff]

theorem virtual?_eq_some : p.virtual? q = some v ↔ p.holders[q]? = some (some v) := by
  simp [virtual?, Option.join_eq_some_iff]

/-- A placement is complete if each virtual qubit has a place. -/
theorem isComplete_iff :
    p.isComplete = true ↔ ∀ v < p.virtualCount, ∃ q, p.physical? v = some q := by
  rw [isComplete, Array.all_eq_true]
  refine forall_congr' fun v => forall_congr' fun hv => ?_
  rw [Option.isSome_iff_exists]
  refine exists_congr fun q => ?_
  rw [physical?_eq_some, Array.getElem?_eq_getElem hv, Option.some.injEq]

/-- A placement is bijective if its two tables are inverse to each other. -/
theorem isBijective_iff :
    p.isBijective = true ↔ ∀ v q, p.physical? v = some q ↔ p.virtual? q = some v := by
  rw [isBijective, Bool.and_eq_true, Realizes.answers_iff, Realizes.answers_iff]
  simp only [physical?_eq_some, virtual?_eq_some]
  constructor
  · exact fun ⟨hthere, hback⟩ v q => ⟨hthere v q, hback q v⟩
  · exact fun h => ⟨fun v q => (h v q).mp, fun q v => (h v q).mpr⟩

/-! ## What a swap asks -/

/-- A swap misses nothing if the two physical qubits are there and what they hold is known. -/
theorem missed?_eq_none_iff : p.missed? a b = none ↔
    (a < p.physicalCount ∧ b < p.physicalCount) ∧
      ∀ v, p.virtual? a = some v ∨ p.virtual? b = some v → v < p.virtualCount := by
  rw [missed?, Option.or_eq_none_iff, List.find?_eq_none, List.find?_eq_none]
  simp only [List.mem_filterMap, List.mem_pair, decide_eq_true_eq, Nat.not_le, forall_eq,
    forall_exists_index, and_imp, or_imp, forall_and]

/-- If the tables are inverse to each other, what a physical qubit holds is known. -/
theorem missed?_eq_none (hp : p.isBijective = true) (ha : a < p.physicalCount)
    (hb : b < p.physicalCount) : p.missed? a b = none := by
  rw [isBijective_iff] at hp
  have hlt : ∀ {v q}, p.virtual? q = some v → v < p.virtualCount := fun h =>
    (Array.getElem?_eq_some_iff.mp (physical?_eq_some.mp ((hp _ _).mpr h))).1
  exact missed?_eq_none_iff.mpr ⟨⟨ha, hb⟩, fun v hv => hv.elim hlt hlt⟩

theorem Realizes.missed?_eq_none (h : p.Realizes n π) (ha : a < n) (hb : b < n) :
    p.missed? a b = none :=
  Placement.missed?_eq_none h.isBijective (h.physicalCount ▸ ha) (h.physicalCount ▸ hb)

/-! ## Swaps of placements with holes -/

section Holes

/-- A table of places is what is looked up in it. -/
private theorem getElem?_eq_of_join {table table' : Array (Option Nat)}
    (hsize : table.size = table'.size) (h : ∀ i : Nat, (table[i]?).join = (table'[i]?).join) :
    table = table' := by
  refine Array.ext hsize fun i hi hi' => ?_
  have := h i
  rwa [Array.getElem?_eq_getElem hi, Array.getElem?_eq_getElem hi', Option.join_some,
    Option.join_some] at this

/-- A placement is what is looked up in it. -/
theorem eq_of_lookups {p' : Placement} (hvirtual : p.virtualCount = p'.virtualCount)
    (hphysical : p.physicalCount = p'.physicalCount)
    (hplace : ∀ v, p.physical? v = p'.physical? v)
    (hholder : ∀ q, p.virtual? q = p'.virtual? q) : p = p' := by
  obtain ⟨places, holders⟩ := p
  obtain ⟨places', holders'⟩ := p'
  obtain rfl : places = places' := getElem?_eq_of_join hvirtual hplace
  obtain rfl : holders = holders' := getElem?_eq_of_join hphysical hholder
  rfl

private theorem size_moveTo (places : Array (Option Nat)) (q : Nat) (o : Option Nat) :
    (moveTo places q o).size = places.size := by
  cases o <;> simp [moveTo]

private theorem join_moveTo (places : Array (Option Nat)) (q : Nat) (o : Option Nat) (v : Nat) :
    ((moveTo places q o)[v]?).join =
      if o = some v ∧ v < places.size then some q else (places[v]?).join := by
  cases o with
  | none => simp [moveTo]
  | some u =>
      simp only [moveTo, Array.getElem?_setIfInBounds, Option.some.injEq]
      by_cases huv : u = v
      · subst huv
        by_cases hu : u < places.size <;> simp [hu]
      · simp [huv]

@[simp] theorem virtualCount_swap (p : Placement) (a b : Nat) :
    (p.swap a b).virtualCount = p.virtualCount := by
  simp [virtualCount, swap, size_moveTo]

@[simp] theorem physicalCount_swap (p : Placement) (a b : Nat) :
    (p.swap a b).physicalCount = p.physicalCount := by
  simp [physicalCount, swap]

/-- What a physical qubit holds after a swap was held by the other one. -/
theorem virtual?_swap (ha : a < p.physicalCount) (hb : b < p.physicalCount) (q : Nat) :
    (p.swap a b).virtual? q = p.virtual? (Equiv.swap a b q) := by
  unfold physicalCount at ha hb
  simp only [virtual?, swap, Array.getElem?_setIfInBounds, Array.size_setIfInBounds,
    Equiv.swap_apply_def]
  by_cases hqb : b = q
  · subst hqb
    by_cases hba : b = a
    · simp [hba, ha]
    · simp [hba, hb]
  · by_cases hqa : a = q
    · subst hqa
      simp [hqb, ha]
    · simp [hqa, hqb, Ne.symm hqa, Ne.symm hqb]

/-- A swap sends what is on one of two physical qubits to the other one. -/
theorem physical?_swap (hp : p.isBijective = true) (a b v : Nat) :
    (p.swap a b).physical? v = (p.physical? v).map (Equiv.swap a b) := by
  rw [isBijective_iff] at hp
  have hlt : ∀ {v q}, p.physical? v = some q → v < p.places.size := fun h =>
    (Array.getElem?_eq_some_iff.mp (physical?_eq_some.mp h)).1
  have hplace : (p.swap a b).physical? v =
      if p.virtual? b = some v then some a
      else if p.virtual? a = some v then some b else p.physical? v := by
    rw [physical?, swap, join_moveTo, join_moveTo, size_moveTo]
    by_cases hvb : p.virtual? b = some v
    · simp [hvb, hlt ((hp v b).mpr hvb)]
    · by_cases hva : p.virtual? a = some v
      · simp [hvb, hva, hlt ((hp v a).mpr hva)]
      · simp [hvb, hva, physical?]
  simp only [hplace, ← hp]
  cases hv : p.physical? v with
  | none => simp
  | some q =>
      simp only [Option.some.injEq, Option.map_some, Equiv.swap_apply_def]
      by_cases hqb : q = b
      · subst hqb
        by_cases hqa : q = a <;> simp [hqa]
      · by_cases hqa : q = a <;> simp [hqa, hqb]

/-- A swap within the placement keeps its tables inverse to each other. -/
theorem isBijective_swap (hp : p.isBijective = true) (ha : a < p.physicalCount)
    (hb : b < p.physicalCount) : (p.swap a b).isBijective = true := by
  rw [isBijective_iff]
  intro v q
  rw [physical?_swap hp, virtual?_swap ha hb, Option.map_eq_some_iff]
  rw [isBijective_iff] at hp
  simp only [← hp]
  constructor
  · rintro ⟨q, hv, rfl⟩
    rwa [Equiv.swap_apply_self]
  · exact fun hv => ⟨_, hv, Equiv.swap_apply_self a b q⟩

/-- A swap made twice changes nothing. -/
theorem swap_swap (hp : p.isBijective = true) (ha : a < p.physicalCount)
    (hb : b < p.physicalCount) : (p.swap a b).swap a b = p := by
  have ha' : a < (p.swap a b).physicalCount := by rwa [physicalCount_swap]
  have hb' : b < (p.swap a b).physicalCount := by rwa [physicalCount_swap]
  refine eq_of_lookups (by simp) (by simp) (fun v => ?_) fun q => ?_
  · rw [physical?_swap (isBijective_swap hp ha hb), physical?_swap hp, Option.map_map]
    cases p.physical? v <;> simp
  · rw [virtual?_swap ha' hb', virtual?_swap ha hb, Equiv.swap_apply_self]

end Holes

/-! ## Full placements are permutations -/

/-- Complete and bijective tables of the same size realize a permutation. -/
theorem exists_realizes (hplaces : p.places.size = n) (hholders : p.holders.size = n)
    (hcomplete : p.isComplete = true) (hbijective : p.isBijective = true) :
    ∃ π, p.Realizes n π := by
  rw [isBijective, Bool.and_eq_true, Realizes.answers_iff, Realizes.answers_iff] at hbijective
  rw [isComplete, Array.all_eq_true] at hcomplete
  obtain ⟨hthere, hback⟩ := hbijective
  have hplace : ∀ v, v < n → p.places[v]? = some (some (((p.places[v]?).join).getD 0)) := by
    intro v hv
    have hlt : v < p.places.size := hplaces ▸ hv
    obtain ⟨q, hq⟩ := Option.isSome_iff_exists.mp (hcomplete v hlt)
    rw [Array.getElem?_eq_getElem hlt, hq]
    rfl
  let π : Nat → Nat := fun v => ((p.places[v]?).join).getD 0
  have hholder : ∀ v < n, p.holders[π v]? = some (some v) :=
    fun v hv => hthere v _ (hplace v hv)
  have hlt : ∀ v < n, π v < n :=
    fun v hv => hholders ▸ (Array.getElem?_eq_some_iff.mp (hholder v hv)).1
  refine ⟨π, hplaces, hholders, hlt, ?_, hplace, hholder⟩
  -- as many distinct places as there are qubits leave none out
  have hnodup : ((List.range n).map π).Nodup := by
    refine List.Nodup.map_on ?_ List.nodup_range
    intro u hu v hv heq
    rw [List.mem_range] at hu hv
    have h1 := hholder u hu
    rw [heq, hholder v hv] at h1
    simpa using h1.symm
  have hsub : ∀ q ∈ (List.range n).map π, q ∈ List.range n := by
    simpa using hlt
  have hperm := (List.subperm_of_subset hnodup hsub).perm_of_length_le (by simp)
  intro q hq
  simpa using (hperm.mem_iff (a := q)).mpr (List.mem_range.mpr hq)

/-- The placement of each qubit on the one of the same number. -/
theorem identity_realizes (n : Nat) : ∃ p, identity n n = .ok p ∧ p.Realizes n id := by
  refine ⟨_, by rw [identity, if_neg (Nat.lt_irrefl n)], ?_⟩
  refine
    { places := by simp
      holders := by simp
      lt := fun v hv => hv
      onto := fun q hq => ⟨q, hq, rfl⟩
      place := ?_
      holder := ?_ }
  · intro v hv
    simp [hv]
  · intro v hv
    simp [hv]

end QubitMapper.Placement
