import QubitMapper.Placement.Assignment
import QubitMapper.Proofs.Outcome
import QubitMapper.Proofs.Placement

/-!
# Restoring program order

What a device measured, one value for each physical qubit, is put back into program order by the
published assignment. If the values moved with the swaps of the placement, they come back to where
they began, however many swaps there were.

## Main results

* `Assignment.restore_eq_some_iff`, `Assignment.restore_eq_none_iff`: what an assignment restores.
* `Assignment.restore_undoes_swaps`: the published assignment undoes any swaps.
-/

namespace QubitMapper

/-! ## What an assignment restores -/

namespace Assignment

variable {α : Type} {a : Assignment} {device out : List α}

/-- Each program qubit gets the value of its physical qubit. -/
theorem restore_eq_some_iff : a.restore device = some out ↔
    List.Forall₂ (fun q x => device[q]? = some x) a.places out := mapM_eq_some_iff

theorem length_restore (h : a.restore device = some out) : out.length = a.places.length :=
  (restore_eq_some_iff.mp h).length_eq.symm

theorem getElem?_restore (h : a.restore device = some out) {v q : Nat}
    (hq : a.places[v]? = some q) : out[v]? = device[q]? := by
  obtain ⟨x, hx, hvalue⟩ := forall₂_getElem? (restore_eq_some_iff.mp h) hq
  rw [hx, hvalue]

/-- Nothing is restored if a program qubit lies outside the values. -/
theorem restore_eq_none_iff : a.restore device = none ↔ ∃ q ∈ a.places, device.length ≤ q := by
  rw [Option.eq_none_iff_forall_ne_some]
  constructor
  · intro hnone
    by_contra hwithin
    have hvalue : ∀ q ∈ a.places, ∃ x, device[q]? = some x := fun q hq =>
      ⟨_, List.getElem?_eq_getElem (Nat.not_le.mp fun hle => hwithin ⟨q, hq, hle⟩)⟩
    obtain ⟨out, hout⟩ := exists_forall₂ hvalue
    exact hnone out (restore_eq_some_iff.mpr hout)
  · rintro ⟨q, hq, hle⟩ out hout
    obtain ⟨x, -, hx⟩ := forall₂_mem_left (restore_eq_some_iff.mp hout) hq
    rw [List.getElem?_eq_none hle] at hx
    cases hx

end Assignment

/-! ## Values that move with the qubits -/

section Moves

variable {α : Type} {n a b : Nat} {p : Placement} {xs ys : Array α} {swaps : List (Nat × Nat)}

/-- The placement after some swaps. -/
def Placement.swapAll (p : Placement) (swaps : List (Nat × Nat)) : Placement :=
  swaps.foldl (fun p c => p.swap c.1 c.2) p

/-- Values with some pairs of cells exchanged, one pair after the other. -/
def exchangeAll (xs : Array α) (swaps : List (Nat × Nat)) : Array α :=
  swaps.foldl (fun xs c => xs.swapIfInBounds c.1 c.2) xs

/-- Two exchanged cells hold what the other one held. -/
theorem getElem?_swapIfInBounds (ha : a < xs.size) (hb : b < xs.size) (q : Nat) :
    (xs.swapIfInBounds a b)[q]? = xs[Equiv.swap a b q]? := by
  rw [Equiv.swap_apply_def]
  by_cases hq : q < xs.size
  · rw [Array.getElem?_eq_getElem (by rwa [Array.size_swapIfInBounds]),
      Array.getElem_swapIfInBounds]
    by_cases hqa : q = a
    · simp [hqa, hb]
    · by_cases hqb : q = b
      · subst hqb
        simp [hqa, ha]
      · simp [hqa, hqb, hq]
  · have hqa : q ≠ a := fun heq => hq (heq ▸ ha)
    have hqb : q ≠ b := fun heq => hq (heq ▸ hb)
    rw [if_neg hqa, if_neg hqb, Array.getElem?_eq_none (Nat.not_lt.mp hq),
      Array.getElem?_eq_none (by rwa [Array.size_swapIfInBounds, Nat.not_lt] at *)]

/-- Each value is in the cell of the physical qubit that holds its virtual qubit. -/
structure Carries (n : Nat) (p : Placement) (xs ys : Array α) : Prop where
  size : ys.size = n
  realizes : ∃ π, p.Realizes n π ∧ ∀ v < n, ys[π v]? = xs[v]?

theorem Carries.swap (h : Carries n p xs ys) (ha : a < n) (hb : b < n) :
    Carries n (p.swap a b) xs (ys.swapIfInBounds a b) := by
  obtain ⟨hsize, π, hplaced, hvalues⟩ := h
  refine ⟨Array.size_swapIfInBounds.trans hsize, _, hplaced.swap ha hb, fun v hv => ?_⟩
  rw [getElem?_swapIfInBounds (hsize ▸ ha) (hsize ▸ hb), Equiv.swap_apply_self]
  exact hvalues v hv

theorem Carries.swapAll : ∀ {p : Placement} {ys : Array α}, Carries n p xs ys →
    (∀ c ∈ swaps, c.1 < n ∧ c.2 < n) → Carries n (p.swapAll swaps) xs (exchangeAll ys swaps) := by
  induction swaps with
  | nil => exact fun h _ => h
  | cons c rest ih =>
      intro p ys h hswaps
      rw [List.forall_mem_cons] at hswaps
      exact ih (h.swap hswaps.1.1 hswaps.1.2) hswaps.2

/-- The assignment of the first `k` virtual qubits finds their values. -/
theorem Carries.restore (h : Carries n p xs ys) (hxs : xs.size = n) {k : Nat} (hk : k ≤ n) :
    (Assignment.freeze p k).restore ys.toList = some (xs.toList.take k) := by
  obtain ⟨-, π, hplaced, hvalues⟩ := h
  have hplaces : (Assignment.freeze p k).places = (List.range k).map π := hplaced.firstSlots hk
  rw [Assignment.restore_eq_some_iff, hplaces, List.forall₂_map_left_iff]
  refine forall₂_of_getElem? (by simp [hxs, hk]) fun j v x hv hx => ?_
  obtain ⟨hj, rfl⟩ := List.getElem?_eq_some_iff.mp hv
  rw [List.length_range] at hj
  rw [List.getElem_range]
  rw [List.getElem?_take_of_lt hj, Array.getElem?_toList] at hx
  rw [Array.getElem?_toList, hvalues j (Nat.lt_of_lt_of_le hj hk), hx]

end Moves

namespace Assignment

/-- If the values of a device move with the swaps that a placement makes, the published assignment
brings the first ones back, as many as it is asked for. Whatever the assignment is, it restores the
value of its physical qubit for each program qubit, and nothing at all if one of them lies outside
the values; a text is restored character by character. -/
theorem restore_undoes_swaps :
    (∀ {α : Type} (xs : Array α) (swaps : List (Nat × Nat)),
      (∀ c ∈ swaps, c.1 < xs.size ∧ c.2 < xs.size) →
        ∃ p, Placement.identity xs.size xs.size = .ok p ∧ ∀ k ≤ xs.size,
          (freeze (p.swapAll swaps) k).restore (exchangeAll xs swaps).toList =
            some (xs.toList.take k)) ∧
    (∀ {α : Type} (a : Assignment) (device : List α),
      (a.restore device = none ↔ ∃ q ∈ a.places, device.length ≤ q) ∧
      ∀ out, a.restore device = some out → out.length = a.places.length ∧
        ∀ v q : Nat, a.places[v]? = some q → out[v]? = device[q]?) ∧
    ∀ (a : Assignment) (bits : String),
      (a.restoreText bits).map String.toList = a.restore bits.toList := by
  refine ⟨fun xs swaps hswaps => ?_, fun a device => ⟨restore_eq_none_iff, fun out hout => ?_⟩,
    fun a bits => ?_⟩
  · obtain ⟨p, hp, hplaced⟩ := Placement.identity_realizes xs.size
    have hcarries : Carries xs.size p xs xs := ⟨rfl, id, hplaced, fun _ _ => rfl⟩
    exact ⟨p, hp, fun k hk => (hcarries.swapAll hswaps).restore rfl hk⟩
  · exact ⟨length_restore hout, fun _ _ => getElem?_restore hout⟩
  · rw [restoreText, Option.map_map]
    have htext : String.toList ∘ String.ofList = id := funext fun _ => String.toList_ofList
    rw [htext, Option.map_id]
    rfl

/-- Three swaps carry the values of four qubits around; the first two come back, and from a text of
two characters nothing does. -/
theorem restore_undoes_swaps_threefold :
    let swaps := [(0, 2), (2, 3), (1, 2)]
    (∀ c ∈ swaps, c.1 < #['a', 'b', 'c', 'd'].size ∧ c.2 < #['a', 'b', 'c', 'd'].size) ∧
      exchangeAll #['a', 'b', 'c', 'd'] swaps = #['c', 'd', 'b', 'a'] ∧
      ∃ p, Placement.identity 4 4 = .ok p ∧ (freeze (p.swapAll swaps) 2).places = [3, 2] ∧
        (freeze (p.swapAll swaps) 2).restore ['c', 'd', 'b', 'a'] = some ['a', 'b'] ∧
        (freeze (p.swapAll swaps) 2).restoreText "cd" = none := by
  intro swaps
  obtain ⟨hundoes, hrestores, htext⟩ := restore_undoes_swaps
  have hswaps : ∀ c ∈ swaps,
      c.1 < #['a', 'b', 'c', 'd'].size ∧ c.2 < #['a', 'b', 'c', 'd'].size := by decide
  obtain ⟨p, hp, hback⟩ := hundoes _ swaps hswaps
  have hplaces : (freeze (p.swapAll swaps) 2).places = [3, 2] := by
    cases hp
    decide +kernel
  refine ⟨hswaps, by decide, p, hp, hplaces, hback 2 (by decide), ?_⟩
  have hnone : (freeze (p.swapAll swaps) 2).restore "cd".toList = none := by
    rw [(hrestores _ _).1, hplaces]
    exact ⟨3, by decide, by decide⟩
  rw [← htext] at hnone
  exact Option.map_eq_none_iff.mp hnone

end Assignment

end QubitMapper
