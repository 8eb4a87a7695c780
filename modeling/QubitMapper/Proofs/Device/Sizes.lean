import QubitMapper.Device.Spec
import QubitMapper.Proofs.Device.Listed

/-!
# Sizes of devices

A specification without sizes takes the smallest device of its kind for the qubits to be placed. It
names the same device for any number of qubits between that and the size of the device.

## Main results

* `Spec.squareSide_spec`: the side of the smallest square.
* `Spec.build_of_le`: a device has room for all its qubits.
-/

namespace QubitMapper

variable {count n m : Nat} {d : Device}

theorem Device.numQubits_path (h : Device.path count = .ok d) : d.numQubits = count := by
  obtain ⟨_, -, h⟩ := Except.bind_eq_ok.mp h
  exact numQubits_ofEdges h

theorem Device.numQubits_ring (h : Device.ring count = .ok d) : d.numQubits = count := by
  obtain ⟨_, -, h⟩ := Except.bind_eq_ok.mp h
  exact numQubits_ofEdges h

theorem Device.numQubits_star {centre : Nat} (h : Device.star count centre = .ok d) :
    d.numQubits = count := by
  unfold star at h
  split at h
  · cases h
  · obtain ⟨_, -, h⟩ := Except.bind_eq_ok.mp h
    exact numQubits_ofEdges h

theorem Device.numQubits_grid {width height : Nat} (h : Device.grid width height = .ok d) :
    d.numQubits = width * height := by
  unfold grid at h
  split at h
  · cases h
  · exact numQubits_ofEdges h

namespace Spec

private theorem squareSide_from (fuel : Nat) : ∀ {side : Nat}, (∀ t < side, t * t < n) →
    n ≤ (side + fuel) * (side + fuel) →
    n ≤ squareSide n fuel side * squareSide n fuel side ∧
      ∀ t < squareSide n fuel side, t * t < n := by
  induction fuel with
  | zero => exact fun hbelow hfuel => ⟨hfuel, hbelow⟩
  | succ fuel ih =>
      intro side hbelow hfuel
      unfold squareSide
      split
      · rename_i hle
        exact ⟨hle, hbelow⟩
      · rename_i hlt
        refine ih (fun t ht => ?_) (by rwa [Nat.add_right_comm, Nat.add_assoc])
        rcases Nat.lt_succ_iff_lt_or_eq.mp ht with ht | rfl
        · exact hbelow t ht
        · omega

/-- The side is that of the smallest square with room for all. -/
theorem squareSide_spec (n : Nat) : n ≤ squareSide n n 0 * squareSide n n 0 ∧
    ∀ t < squareSide n n 0, t * t < n :=
  squareSide_from n (fun t ht => absurd ht (Nat.not_lt_zero t))
    (by rw [Nat.zero_add]; exact Nat.le_mul_self n)

/-- All numbers for which a square is large enough but the next smaller one is not have its side. -/
theorem squareSide_eq (hn : n ≤ m) (hm : m ≤ squareSide n n 0 * squareSide n n 0) :
    squareSide m m 0 = squareSide n n 0 := by
  obtain ⟨hroom, hbelow⟩ := squareSide_spec m
  obtain ⟨-, hbelow'⟩ := squareSide_spec n
  refine Nat.le_antisymm (Nat.le_of_not_lt fun hlt => ?_) (Nat.le_of_not_lt fun hlt => ?_)
  · have := hbelow _ hlt
    omega
  · have := hbelow' _ hlt
    omega

/-- A specification names the same device for more qubits, as long as these have room on it. -/
theorem build_of_le {spec : Spec} {files : FileReader} (h : spec.build files n = .ok d)
    (hn : n ≤ m) (hm : m ≤ d.numQubits) : spec.build files m = .ok d := by
  have hlimit : ¬ Text.limit32 ≤ m := by
    have := d.le
    unfold maxQubits at this
    unfold Text.limit32 UInt32.size
    omega
  have hlimit' : ¬ Text.limit32 ≤ n := fun hle => hlimit (Nat.le_trans hle hn)
  unfold build at h ⊢
  rw [if_neg hlimit'] at h
  rw [if_neg hlimit]
  cases spec with
  | path qubits =>
      cases qubits with
      | some count => exact h
      | none =>
          have hsize : d.numQubits = n := Device.numQubits_path h
          obtain rfl : n = m := by omega
          exact h
  | ring qubits =>
      cases qubits with
      | some count => exact h
      | none =>
          have hsize : d.numQubits = n := Device.numQubits_ring h
          obtain rfl : n = m := by omega
          exact h
  | star qubits centre =>
      cases qubits with
      | some count => exact h
      | none =>
          have hsize : d.numQubits = n := Device.numQubits_star h
          obtain rfl : n = m := by omega
          exact h
  | grid width height =>
      cases width with
      | none =>
          have hsize := Device.numQubits_grid h
          dsimp only
          rw [squareSide_eq hn (hsize ▸ hm)]
          exact h
      | some width => cases height <;> exact h
  | file name => exact h

end Spec

end QubitMapper
