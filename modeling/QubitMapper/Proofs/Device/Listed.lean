import QubitMapper.Proofs.Device.Metric
import QubitMapper.Proofs.Outcome

/-!
# Devices from listed edges

A list of edges may name an edge in both directions and more than once; the device has it once, the
lower qubit first. Nothing is asked of the list but that its pairs join two different qubits of the
device.

## Main results

* `Edge.mem_collect`: the edges collected from a list.
* `Device.exists_ofEdges_eq_ok_iff`: when there is a device with the listed edges.
* `Device.isAdjacent_ofEdges`: its qubits are adjacent exactly as listed.
-/

namespace QubitMapper

namespace Edge

variable {count a b x y : Nat} {listed : List (Nat × Nat)}

theorem between_mem_pair : between a b = (a, b) ∨ between a b = (b, a) := by
  unfold between
  split <;> simp

/-- Up to its direction, an edge joins the qubits that it is made from. -/
theorem between_eq_or_iff :
    between a b = (x, y) ∨ between a b = (y, x) ↔ (a, b) = (x, y) ∨ (a, b) = (y, x) := by
  rcases between_mem_pair (a := a) (b := b) with h | h
  · rw [h]
  · rw [h]
    simp only [Prod.mk.injEq]
    tauto

/-- What a list of edges must fulfil: its pairs join two different qubits. -/
def AllProper (count : Nat) (listed : List (Nat × Nat)) : Prop :=
  ∀ p ∈ listed, p.1 < count ∧ p.2 < count ∧ p.1 ≠ p.2

theorem exists_collect_eq_ok_iff : ∀ seen : List Edge,
    (∃ edges, collect count seen listed = .ok edges) ↔ AllProper count listed := by
  induction listed with
  | nil => exact fun _ => ⟨fun _ _ hp => absurd hp List.not_mem_nil, fun _ => ⟨[], rfl⟩⟩
  | cons p rest ih =>
      obtain ⟨a, b⟩ := p
      intro seen
      unfold AllProper at ih ⊢
      rw [List.forall_mem_cons]
      unfold collect
      by_cases hrange : count ≤ a ∨ count ≤ b
      · simp only [hrange, ↓reduceIte, reduceCtorEq, exists_false, false_iff]
        omega
      by_cases hloop : a = b
      · rw [if_neg hrange, if_pos hloop]
        simp [hloop]
      have hpair : a < count ∧ b < count ∧ a ≠ b := by omega
      rw [if_neg hrange, if_neg hloop, and_iff_right hpair]
      dsimp only
      split
      · exact ih seen
      · simp only [Except.map_eq_ok, ← ih (between a b :: seen)]
        constructor
        · rintro ⟨_, tail, htail, -⟩
          exact ⟨tail, htail⟩
        · rintro ⟨tail, htail⟩
          exact ⟨_, tail, htail, rfl⟩

/-- The collected edges are the listed ones that have not been seen before. -/
theorem mem_collect_of_seen (e : Edge) : ∀ {seen edges : List Edge},
    collect count seen listed = .ok edges →
      (e ∈ edges ↔ e ∉ seen ∧ ∃ p ∈ listed, between p.1 p.2 = e) := by
  induction listed with
  | nil =>
      intro seen edges h
      cases h
      simp
  | cons p rest ih =>
      obtain ⟨a, b⟩ := p
      intro seen edges h
      unfold collect at h
      split at h
      · cases h
      split at h
      · cases h
      dsimp only at h
      rw [List.exists_mem_cons_iff]
      split at h
      · rename_i hseen
        rw [ih h]
        have hknown : between a b ∈ seen := by simpa using hseen
        constructor
        · rintro ⟨hnew, hrest⟩
          exact ⟨hnew, .inr hrest⟩
        · rintro ⟨hnew, rfl | hrest⟩
          · exact absurd hknown hnew
          · exact ⟨hnew, hrest⟩
      · rename_i hseen
        obtain ⟨tail, htail, rfl⟩ := Except.map_eq_ok.mp h
        have hfresh : between a b ∉ seen := by simpa using hseen
        rw [List.mem_cons, ih htail, List.mem_cons, not_or]
        constructor
        · rintro (rfl | ⟨⟨-, hnew⟩, hrest⟩)
          · exact ⟨hfresh, .inl rfl⟩
          · exact ⟨hnew, .inr hrest⟩
        · rintro ⟨hnew, rfl | hrest⟩
          · exact .inl rfl
          · by_cases hsame : e = between a b
            · exact .inl hsame
            · exact .inr ⟨⟨hsame, hnew⟩, hrest⟩

/-- The collected edges join the listed pairs, in one direction. -/
theorem mem_collect {edges : List Edge} (h : collect count [] listed = .ok edges) :
    (x, y) ∈ edges ∨ (y, x) ∈ edges ↔ (x, y) ∈ listed ∨ (y, x) ∈ listed := by
  have hmem : ∀ e, e ∈ edges ↔ ∃ p ∈ listed, between p.1 p.2 = e := by
    intro e
    simpa using mem_collect_of_seen e h
  rw [hmem, hmem]
  constructor
  · rintro (⟨⟨a, b⟩, hp, heq⟩ | ⟨⟨a, b⟩, hp, heq⟩)
    · rcases between_eq_or_iff.mp (.inl heq) with heq | heq
      · exact .inl (heq ▸ hp)
      · exact .inr (heq ▸ hp)
    · rcases between_eq_or_iff.mp (.inr heq) with heq | heq
      · exact .inl (heq ▸ hp)
      · exact .inr (heq ▸ hp)
  · rintro (hp | hp)
    · rcases between_mem_pair (a := x) (b := y) with heq | heq
      · exact .inl ⟨_, hp, heq⟩
      · exact .inr ⟨_, hp, heq⟩
    · rcases between_mem_pair (a := y) (b := x) with heq | heq
      · exact .inr ⟨_, hp, heq⟩
      · exact .inl ⟨_, hp, heq⟩

end Edge

namespace Device

variable {count a b : Nat} {listed : List (Nat × Nat)} {d : Device}

/-- What a device is built from. -/
theorem ofEdges_eq_ok (h : ofEdges count listed = .ok d) :
    d.numQubits = count ∧ Edge.collect count [] listed = .ok d.edges := by
  unfold ofEdges at h
  split at h
  · cases h
  split at h
  · cases h
  split at h
  · cases h
  · rename_i hcollect
    cases h
    exact ⟨rfl, hcollect⟩

theorem numQubits_ofEdges (h : ofEdges count listed = .ok d) : d.numQubits = count :=
  (ofEdges_eq_ok h).1

/-- There is a device with the listed edges if they are proper and it has a size that devices have.
-/
theorem exists_ofEdges_eq_ok_iff : (∃ d, ofEdges count listed = .ok d) ↔
    0 < count ∧ count ≤ maxQubits ∧ Edge.AllProper count listed := by
  constructor
  · rintro ⟨d, h⟩
    obtain ⟨rfl, hcollect⟩ := ofEdges_eq_ok h
    exact ⟨d.pos, d.le, (Edge.exists_collect_eq_ok_iff []).mp ⟨_, hcollect⟩⟩
  · rintro ⟨hpos, hle, hproper⟩
    obtain ⟨edges, hedges⟩ := (Edge.exists_collect_eq_ok_iff []).mpr hproper
    unfold ofEdges
    rw [dif_neg (Nat.ne_of_gt hpos), dif_neg (Nat.not_lt.mpr hle)]
    split
    · rename_i hcollect
      cases hedges.symm.trans hcollect
    · exact ⟨_, rfl⟩

/-- Two qubits are adjacent if they are listed, in one order or the other. -/
theorem isAdjacent_ofEdges (h : ofEdges count listed = .ok d) :
    d.isAdjacent a b = true ↔ (a, b) ∈ listed ∨ (b, a) ∈ listed := by
  rw [isAdjacent_iff, Edge.mem_collect (ofEdges_eq_ok h).2]

end Device

end QubitMapper
