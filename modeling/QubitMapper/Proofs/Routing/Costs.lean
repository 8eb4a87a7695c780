import Mathlib
import QubitMapper.Routing.Cost

/-!
# Comparing costs

The first cheapest of some things is a least one that no earlier one equals, as long as their costs
are ranked: `<` compares them like classes of equals in a line. Floats are ranked if they are
numbers, the infinite ones included.

## Main results

* `Ranked.firstCheapest`: what is chosen when costs are ranked.
* `ranked_of_isNaN_eq_false`: floats that are numbers are ranked.
-/

namespace QubitMapper

/-! ## Ranked costs -/

section Ranked

variable {α γ : Type} [LT γ]

/-- Among some costs `<` is a strict weak order: no cost is below itself, what is below a lower cost
is lower, and costs of which neither is below the other are equal in rank. -/
structure Ranked (costs : List γ) : Prop where
  irrefl : ∀ x ∈ costs, ¬ x < x
  trans : ∀ x ∈ costs, ∀ y ∈ costs, ∀ z ∈ costs, x < y → y < z → x < z
  level : ∀ x ∈ costs, ∀ y ∈ costs, ∀ z ∈ costs,
    ¬ x < y → ¬ y < x → ¬ y < z → ¬ z < y → ¬ x < z ∧ ¬ z < x

variable {costs : List γ} {x y z : γ}

/-- A third cost is above the lower one of two or below the higher one. -/
theorem Ranked.lt_or_lt (h : Ranked costs) (hx : x ∈ costs) (hy : y ∈ costs) (hz : z ∈ costs)
    (hxz : x < z) : x < y ∨ y < z := by
  by_contra hnot
  push Not at hnot
  obtain ⟨hxy, hyz⟩ := hnot
  have hyx : ¬ y < x := fun hlt => hyz (h.trans y hy x hx z hz hlt hxz)
  have hzy : ¬ z < y := fun hlt => hxy (h.trans x hx z hz y hy hxz hlt)
  exact (h.level x hx y hy z hz hxy hyx hyz hzy).1 hxz

theorem Ranked.asymm (h : Ranked costs) (hx : x ∈ costs) (hy : y ∈ costs) (hxy : x < y) :
    ¬ y < x :=
  fun hyx => h.irrefl x hx (h.trans x hx y hy x hx hxy hyx)

/-- Costs are ranked if they are compared by their ranks in a line. -/
theorem Ranked.of_rank {δ : Type} [LinearOrder δ] (rank : γ → δ)
    (h : ∀ x ∈ costs, ∀ y ∈ costs, x < y ↔ rank x < rank y) : Ranked costs where
  irrefl x hx hlt := lt_irrefl _ ((h x hx x hx).mp hlt)
  trans x hx y hy z hz hxy hyz :=
    (h x hx z hz).mpr (((h x hx y hy).mp hxy).trans ((h y hy z hz).mp hyz))
  level x hx y hy z hz hxy hyx hyz hzy := by
    rw [h x hx y hy, not_lt] at hxy
    rw [h y hy x hx, not_lt] at hyx
    rw [h y hy z hz, not_lt] at hyz
    rw [h z hz y hy, not_lt] at hzy
    rw [h x hx z hz, h z hz x hx, not_lt, not_lt]
    exact ⟨hyz.trans hxy, hyx.trans hzy⟩

theorem Ranked.mono {costs' : List γ} (h : Ranked costs) (hsub : ∀ x ∈ costs', x ∈ costs) :
    Ranked costs' where
  irrefl x hx := h.irrefl x (hsub x hx)
  trans x hx y hy z hz := h.trans x (hsub x hx) y (hsub y hy) z (hsub z hz)
  level x hx y hy z hz := h.level x (hsub x hx) y (hsub y hy) z (hsub z hz)

/-- The first cheapest of some things: no cost is below its cost, and those before it cost more. -/
def FirstCheapest (cost : α → γ) (l : List α) (a : α) : Prop :=
  ∃ before after, l = before ++ a :: after ∧ (∀ b ∈ before, cost a < cost b) ∧
    ∀ b ∈ l, ¬ cost b < cost a

variable [DecidableLT γ] {cost : α → γ} {seen : List α} {a best : α}

/-- One more thing is compared with the first cheapest one so far. -/
theorem FirstCheapest.snoc (h : FirstCheapest cost seen best)
    (hranked : Ranked ((seen ++ [a]).map cost)) :
    FirstCheapest cost (seen ++ [a]) (if cost a < cost best then a else best) := by
  obtain ⟨before, after, hseen, hbefore, hleast⟩ := h
  have hmem : ∀ {b}, b ∈ seen ++ [a] → cost b ∈ (seen ++ [a]).map cost := List.mem_map_of_mem
  have ha : a ∈ seen ++ [a] := by simp
  have hbest : best ∈ seen ++ [a] := by simp [hseen]
  split
  · rename_i hlt
    have hbelow : ∀ b ∈ seen, cost a < cost b := fun b hb =>
      (hranked.lt_or_lt (hmem ha) (hmem (List.mem_append_left _ hb)) (hmem hbest) hlt).resolve_right
        (hleast b hb)
    refine ⟨seen, [], rfl, hbelow, fun b hb => ?_⟩
    rcases List.mem_append.mp hb with hb' | hb'
    · exact hranked.asymm (hmem ha) (hmem hb) (hbelow b hb')
    · obtain rfl := List.mem_singleton.mp hb'
      exact hranked.irrefl _ (hmem hb)
  · rename_i hnot
    refine ⟨before, after ++ [a], by simp [hseen], hbefore, fun b hb => ?_⟩
    rcases List.mem_append.mp hb with hb | hb
    · exact hleast b hb
    · obtain rfl := List.mem_singleton.mp hb
      exact hnot

private theorem FirstCheapest.go (rest : List α) : ∀ {seen : List α} {best : α},
    Ranked ((seen ++ rest).map cost) → FirstCheapest cost seen best →
      FirstCheapest cost (seen ++ rest) (firstCheapest.go cost best (cost best) rest) := by
  induction rest with
  | nil =>
      intro seen best _ h
      rw [List.append_nil]
      exact h
  | cons a rest ih =>
      intro seen best hranked h
      rw [List.append_cons] at hranked ⊢
      have hnext := h.snoc (a := a) (hranked.mono fun x hx => by
        rw [List.map_append]
        exact List.mem_append_left _ hx)
      unfold firstCheapest.go
      by_cases hlt : cost a < cost best
      · rw [if_pos hlt] at hnext ⊢
        exact ih hranked hnext
      · rw [if_neg hlt] at hnext ⊢
        exact ih hranked hnext

/-- When costs are ranked, what is chosen is the first cheapest. -/
theorem Ranked.firstCheapest {l : List α} (h : Ranked (l.map cost))
    (hchosen : firstCheapest cost l = some a) : FirstCheapest cost l a := by
  cases l with
  | nil => cases hchosen
  | cons b rest =>
      cases hchosen
      have hfirst : FirstCheapest cost [b] b := by
        refine ⟨[], [], rfl, by simp, fun c hc => ?_⟩
        obtain rfl := List.mem_singleton.mp hc
        exact h.irrefl _ (by simp)
      exact FirstCheapest.go rest (show Ranked (([b] ++ rest).map cost) from h) hfirst

end Ranked

/-! ## Floats -/

section Floats

open Float.Model UnpackedFloat

/-- The rank of a float among the numbers: by its sign, and among finite ones of the same sign by
its exponent and its mantissa. The two zeros have the same rank. -/
def floatRank : UnpackedFloat → ℤ ×ₗ ℤ ×ₗ ℤ
  | .notANumber => toLex (0, toLex (0, 0))
  | .infinity .negative => toLex (-2, toLex (0, 0))
  | .finite .negative m e _ => toLex (-1, toLex (-e, -m))
  | .zero _ => toLex (0, toLex (0, 0))
  | .finite .positive m e _ => toLex (1, toLex (e, m))
  | .infinity .positive => toLex (2, toLex (0, 0))

/-- Numbers are compared by their ranks. -/
theorem lt_iff_floatRank_lt {x y : UnpackedFloat} (hx : x.isNaN = false) (hy : y.isNaN = false) :
    x.lt y = true ↔ floatRank x < floatRank y := by
  have hsigns : compare Sign.negative Sign.positive = .lt := rfl
  rcases x with (_ | _) | _ | _ | ⟨_ | _, m, e, hm⟩ <;>
    rcases y with (_ | _) | _ | _ | ⟨_ | _, m', e', hm'⟩ <;>
    simp [UnpackedFloat.lt, UnpackedFloat.compare, UnpackedFloat.isNaN, floatRank,
      Prod.Lex.toLex_lt_toLex, Ordering.then_eq_lt, Ordering.then_eq_gt, compare_lt_iff_lt,
      compare_gt_iff_gt, hsigns] at hx hy ⊢

/-- Floats that are numbers, the infinite ones included, are ranked. -/
theorem ranked_of_isNaN_eq_false {costs : List Float} (h : ∀ x ∈ costs, x.isNaN = false) :
    Ranked costs := by
  refine Ranked.of_rank (fun x => floatRank x.toModel.unpack) fun x hx y hy => ?_
  have hlt : x < y ↔ x.toModel.unpack.lt y.toModel.unpack = true := by
    show decide (x.toModel < y.toModel) = true ↔ _
    rw [decide_eq_true_iff]
    rfl
  rw [hlt]
  exact lt_iff_floatRank_lt (h x hx) (h y hy)

end Floats

end QubitMapper
