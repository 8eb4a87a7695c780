import QubitMapper.Proofs.Outcome
import QubitMapper.Proofs.Placement

/-!
# Calls on a placement

A placement begins empty or as the identity, and changes by calls: a virtual qubit is placed, or
what two physical qubits hold is exchanged. A call that fails leaves the placement as it was.

## Main results

* `Placement.assign_eq_ok_iff`: when a qubit can be placed, and what that changes.
* `Placement.Sound.run`: the tables stay inverse to each other, and as large as they were.
-/

namespace QubitMapper.Placement

variable {virtual physical a b v q : Nat} {p p' : Placement}

/-! ## Calls -/

/-- A call that changes a placement. -/
inductive Call where
  | assign (v q : Nat)
  | swap (a b : Nat)
  deriving DecidableEq, Repr

/-- The placement changed by a call. -/
def perform : Call → EStateM PlacementError Placement Unit
  | .assign v q => do
      match (← get).assign v q with
      | .ok p => set p
      | .error e => throw e
  | .swap a b => modify (·.swap a b)

/-- The placement that a call leaves, whether it succeeds or fails. -/
def after (p : Placement) (c : Call) : Placement :=
  match perform c p with
  | .ok _ p' => p'
  | .error _ p' => p'

/-- A swap is within a placement if both qubits are; seeding takes any two. -/
def Call.Within (p : Placement) : Call → Prop
  | .assign _ _ => True
  | .swap a b => a < p.physicalCount ∧ b < p.physicalCount

/-- The placement after some calls. -/
def run (p : Placement) (calls : List Call) : Placement := calls.foldl after p

/-- How a placement begins. -/
inductive Beginning where
  | empty
  | identity
  deriving DecidableEq, Repr

/-- The placement of a beginning. -/
def Beginning.placement : Beginning → Nat → Nat → Except PlacementError Placement
  | empty => Placement.empty
  | identity => Placement.identity

/-! ## Beginnings -/

theorem empty_eq_ok_iff : empty virtual physical = .ok p ↔ virtual ≤ physical ∧
    p = ⟨Array.replicate virtual none, Array.replicate physical none⟩ := by
  unfold empty
  split
  · simp only [reduceCtorEq, false_iff]
    omega
  · simp only [Except.ok.injEq, eq_comm (b := p)]
    exact (and_iff_right (by omega)).symm

theorem identity_eq_ok_iff : identity virtual physical = .ok p ↔ virtual ≤ physical ∧
    p = ⟨(Array.range virtual).map some,
      (Array.range physical).map fun q => if q < virtual then some q else none⟩ := by
  unfold identity
  split
  · simp only [reduceCtorEq, false_iff]
    omega
  · simp only [Except.ok.injEq, eq_comm (b := p)]
    exact (and_iff_right (by omega)).symm

/-- Nothing is placed at first. -/
theorem isBijective_empty (h : empty virtual physical = .ok p) : p.isBijective = true := by
  obtain ⟨-, rfl⟩ := empty_eq_ok_iff.mp h
  rw [isBijective_iff]
  intro v q
  simp [physical?_eq_some, virtual?_eq_some, Array.getElem?_replicate]

/-- Each qubit is on the one of the same number, as far as there are virtual qubits. -/
theorem isBijective_identity (h : identity virtual physical = .ok p) : p.isBijective = true := by
  obtain ⟨hle, rfl⟩ := identity_eq_ok_iff.mp h
  rw [isBijective_iff]
  intro v q
  rw [physical?_eq_some, virtual?_eq_some]
  simp only [Array.getElem?_map, Array.getElem?_range, Option.map_eq_some_iff,
    Option.ite_none_right_eq_some, Option.some.injEq]
  constructor
  · rintro ⟨_, ⟨hv, rfl⟩, rfl⟩
    exact ⟨v, ⟨by omega, rfl⟩, hv, rfl⟩
  · rintro ⟨_, ⟨hq, rfl⟩, hv, rfl⟩
    exact ⟨q, ⟨hv, rfl⟩, rfl⟩

/-! ## Placing a qubit -/

/-- A virtual qubit can be placed if both qubits are there and free, and only their entries
change. -/
theorem assign_eq_ok_iff : p.assign v q = .ok p' ↔
    (v < p.virtualCount ∧ q < p.physicalCount ∧ p.physical? v = none ∧ p.virtual? q = none) ∧
      p' = ⟨p.places.setIfInBounds v (some q), p.holders.setIfInBounds q (some v)⟩ := by
  have hfree : ∀ {table : Array (Option Nat)} {i : Nat},
      table[i]? = some none ↔ i < table.size ∧ (table[i]?).join = none := by
    intro table i
    by_cases hi : i < table.size
    · simp [hi]
    · simp [hi]
  have hopen : (v < p.virtualCount ∧ q < p.physicalCount ∧ p.physical? v = none ∧
      p.virtual? q = none) ↔ p.places[v]? = some none ∧ p.holders[q]? = some none := by
    rw [hfree, hfree]
    unfold virtualCount physicalCount physical? virtual?
    tauto
  rw [hopen]
  unfold assign
  -- the entry of each qubit is missing, empty or taken
  rcases p.places[v]? with _ | _ | _ <;> rcases p.holders[q]? with _ | _ | _ <;> simp [eq_comm]

theorem virtualCount_assign (h : p.assign v q = .ok p') : p'.virtualCount = p.virtualCount := by
  obtain ⟨-, rfl⟩ := assign_eq_ok_iff.mp h
  simp [virtualCount]

theorem physicalCount_assign (h : p.assign v q = .ok p') :
    p'.physicalCount = p.physicalCount := by
  obtain ⟨-, rfl⟩ := assign_eq_ok_iff.mp h
  simp [physicalCount]

/-- A virtual qubit is where it was placed, the others are where they were. -/
theorem physical?_assign (h : p.assign v q = .ok p') (u : Nat) :
    p'.physical? u = if u = v then some q else p.physical? u := by
  obtain ⟨⟨hv, -⟩, rfl⟩ := assign_eq_ok_iff.mp h
  unfold virtualCount at hv
  simp only [physical?, Array.getElem?_setIfInBounds]
  by_cases huv : v = u
  · subst huv
    simp [hv]
  · simp [huv, Ne.symm huv]

/-- A physical qubit holds what was placed on it, the others hold what they held. -/
theorem virtual?_assign (h : p.assign v q = .ok p') (r : Nat) :
    p'.virtual? r = if r = q then some v else p.virtual? r := by
  obtain ⟨⟨-, hq, -⟩, rfl⟩ := assign_eq_ok_iff.mp h
  unfold physicalCount at hq
  simp only [virtual?, Array.getElem?_setIfInBounds]
  by_cases hrq : q = r
  · subst hrq
    simp [hq]
  · simp [hrq, Ne.symm hrq]

/-- Placing a qubit keeps the tables inverse to each other. -/
theorem isBijective_assign (hp : p.isBijective = true) (h : p.assign v q = .ok p') :
    p'.isBijective = true := by
  obtain ⟨⟨-, -, hv, hq⟩, -⟩ := assign_eq_ok_iff.mp h
  rw [isBijective_iff] at hp ⊢
  intro u r
  rw [physical?_assign h, virtual?_assign h]
  by_cases huv : u = v
  · subst huv
    by_cases hrq : r = q
    · simp [hrq]
    · simp only [↓reduceIte, hrq, Option.some.injEq, ← hp, hv, reduceCtorEq, iff_false]
      exact fun heq => hrq heq.symm
  · by_cases hrq : r = q
    · subst hrq
      simp only [↓reduceIte, huv, Option.some.injEq, hp, hq, reduceCtorEq, false_iff]
      exact fun heq => huv heq.symm
    · simp [huv, hrq, hp]

/-- Seeding that fails changes nothing. -/
theorem perform_assign : perform (.assign v q) p =
    match p.assign v q with
    | .ok p' => .ok ⟨⟩ p'
    | .error e => .error e p := by
  show (match p.assign v q with
    | .ok p' => (set p' : EStateM PlacementError Placement Unit)
    | .error e => throw e) p = _
  cases p.assign v q <;> rfl

/-- What placing a qubit does: if both qubits are there and free, it places the one on the other and
moves no other qubit, and else it fails and changes nothing. -/
structure Seeds (p : Placement) (v q : Nat) : Prop where
  succeeds : (∃ p', perform (.assign v q) p = .ok ⟨⟩ p') ↔
    v < p.virtualCount ∧ q < p.physicalCount ∧ p.physical? v = none ∧ p.virtual? q = none
  places : ∀ p', perform (.assign v q) p = .ok ⟨⟩ p' →
    ∀ u, p'.physical? u = if u = v then some q else p.physical? u
  fails : ∀ e p', perform (.assign v q) p = .error e p' → p' = p

theorem perform_assign_eq_ok_iff :
    perform (.assign v q) p = .ok ⟨⟩ p' ↔ p.assign v q = .ok p' := by
  rw [perform_assign]
  cases p.assign v q <;> simp

theorem eq_of_perform_assign_eq_error {e : PlacementError}
    (h : perform (.assign v q) p = .error e p') : p' = p := by
  rw [perform_assign] at h
  cases hassign : p.assign v q with
  | ok p'' =>
      rw [hassign] at h
      cases h
  | error e' =>
      rw [hassign] at h
      cases h
      rfl

theorem seeds (p : Placement) (v q : Nat) : p.Seeds v q := by
  refine ⟨?_, ?_, fun _ _ h => eq_of_perform_assign_eq_error h⟩
  · simp only [perform_assign_eq_ok_iff]
    exact ⟨fun ⟨_, h⟩ => (assign_eq_ok_iff.mp h).1,
      fun hfree => ⟨_, assign_eq_ok_iff.mpr ⟨hfree, rfl⟩⟩⟩
  · simp only [perform_assign_eq_ok_iff]
    exact fun _ h => physical?_assign h

/-! ## Exchanging two qubits -/

/-- What a swap does: it sends what is on one of two physical qubits to the other one and moves no
other qubit, it is undone when it is made again, and it leaves as many qubits placed. -/
structure Exchanges (p : Placement) (a b : Nat) : Prop where
  places : ∀ v, (p.swap a b).physical? v = (p.physical? v).map (Equiv.swap a b)
  holders : ∀ q, (p.swap a b).virtual? q = p.virtual? (Equiv.swap a b q)
  virtualCount : (p.swap a b).virtualCount = p.virtualCount
  physicalCount : (p.swap a b).physicalCount = p.physicalCount
  twice : (p.swap a b).swap a b = p
  complete : (p.swap a b).isComplete = p.isComplete

/-- A swap leaves as many qubits placed. -/
theorem isComplete_swap (hp : p.isBijective = true) (a b : Nat) :
    (p.swap a b).isComplete = p.isComplete := by
  rw [Bool.eq_iff_iff, isComplete_iff, isComplete_iff, virtualCount_swap]
  refine forall_congr' fun v => forall_congr' fun _ => ?_
  rw [physical?_swap hp]
  cases p.physical? v <;> simp

theorem exchanges (hp : p.isBijective = true) (ha : a < p.physicalCount)
    (hb : b < p.physicalCount) : p.Exchanges a b where
  places := physical?_swap hp a b
  holders := virtual?_swap ha hb
  virtualCount := virtualCount_swap p a b
  physicalCount := physicalCount_swap p a b
  twice := swap_swap hp ha hb
  complete := isComplete_swap hp a b

/-! ## Calls one after another -/

/-- A call leaves the placement as it was, with a qubit placed or with two qubits exchanged. -/
theorem after_cases (p : Placement) (c : Call) : p.after c = p ∨
    (∃ v q, p.assign v q = .ok (p.after c)) ∨ ∃ a b, c = .swap a b ∧ p.after c = p.swap a b := by
  cases c with
  | assign v q =>
      unfold after
      rw [perform_assign]
      cases h : p.assign v q with
      | ok p' => exact .inr (.inl ⟨v, q, h⟩)
      | error e => exact .inl rfl
  | swap a b => exact .inr (.inr ⟨a, b, rfl, rfl⟩)

/-- A placement of some virtual qubits on some physical ones whose tables are inverse to each
other. -/
structure Sound (virtual physical : Nat) (p : Placement) : Prop where
  virtualCount : p.virtualCount = virtual
  physicalCount : p.physicalCount = physical
  inverse : p.isBijective = true

/-- A placement begins with inverse tables of the sizes asked for. -/
theorem Beginning.sound {start : Beginning} (h : start.placement virtual physical = .ok p) :
    Sound virtual physical p := by
  cases start with
  | empty =>
      refine ⟨?_, ?_, isBijective_empty h⟩
      all_goals
        obtain ⟨-, rfl⟩ := empty_eq_ok_iff.mp h
        exact Array.size_replicate
  | identity =>
      refine ⟨?_, ?_, isBijective_identity h⟩
      all_goals
        obtain ⟨-, rfl⟩ := identity_eq_ok_iff.mp h
        simp [Placement.virtualCount, Placement.physicalCount]

/-- A call keeps the tables inverse to each other and their sizes. -/
theorem Sound.after {c : Call} (h : Sound virtual physical p) (hc : c.Within p) :
    Sound virtual physical (p.after c) := by
  obtain heq | ⟨v, q, hassign⟩ | ⟨a, b, rfl, heq⟩ := p.after_cases c
  · rwa [heq]
  · exact ⟨(virtualCount_assign hassign).trans h.virtualCount,
      (physicalCount_assign hassign).trans h.physicalCount, isBijective_assign h.inverse hassign⟩
  · rw [heq]
    exact ⟨(virtualCount_swap p a b).trans h.virtualCount,
      (physicalCount_swap p a b).trans h.physicalCount, isBijective_swap h.inverse hc.1 hc.2⟩

theorem Call.Within.of_physicalCount {c : Call} (hc : c.Within p)
    (h : p'.physicalCount = p.physicalCount) : c.Within p' := by
  cases c with
  | assign v q => trivial
  | swap a b => exact ⟨h ▸ hc.1, h ▸ hc.2⟩

/-- Calls within a placement are within what the calls before them leave, and keep the tables
inverse to each other. -/
theorem Sound.run {calls : List Call} : ∀ {p : Placement}, Sound virtual physical p →
    (∀ c ∈ calls, c.Within p) → Sound virtual physical (p.run calls) := by
  induction calls with
  | nil => exact fun h _ => h
  | cons c rest ih =>
      intro p h hcalls
      rw [List.forall_mem_cons] at hcalls
      have hafter := h.after hcalls.1
      have hcount : (p.after c).physicalCount = p.physicalCount :=
        hafter.physicalCount.trans h.physicalCount.symm
      exact ih hafter fun c' hc' => (hcalls.2 c' hc').of_physicalCount hcount

end QubitMapper.Placement
