import Mathlib.Data.List.Chain
import Mathlib.Data.List.Nodup
import Mathlib.Data.List.Perm.Subperm
import QubitMapper.Device.Search

/-!
# What a breadth-first search finds

The search keeps the invariant `Search.Upto`: the current level holds exactly the qubits found at
the current distance, every other found qubit has had all its neighbors looked at, and a hop to a
qubit comes from a neighbor that is one hop nearer. A level is reached by a path without repetition,
so there are no more levels than qubits and the fuel suffices.

## Main results

* `Search.run_tree`: the finished search is a tree of shortest hops, closed under neighbors.
* `Search.Tree.pathTo_spec`: a path read off the tree starts at the source, ends at its target,
  takes one edge a hop and repeats no qubit.
* `Search.Tree.hop_of_walk`, `Search.Tree.walk_of_hop`: hops are as long as the shortest walk.
-/

namespace QubitMapper

/-- A walk of so many steps along a relation. -/
inductive Walk (step : Nat → Nat → Prop) (a : Nat) : Nat → Nat → Prop
  | stay : Walk step a a 0
  | go {b c d : Nat} : Walk step a b d → step b c → Walk step a c (d + 1)

namespace Search

variable {neighbors : Nat → List Nat} {count source : Nat}

theorem hop?_eq_some {s : Search} {q : Nat} {hop : Hop} :
    s.hop? q = some hop ↔ s[q]? = some (some hop) := by
  simp [hop?, Option.join_eq_some_iff]

theorem hop?_set {s : Search} {q r : Nat} {hop : Hop} (hq : q < s.size) :
    hop? (s.setIfInBounds q (some hop)) r = if q = r then some hop else s.hop? r := by
  unfold hop?
  rw [Array.getElem?_setIfInBounds]
  by_cases h : q = r
  · subst h; simp [hq]
  · simp [h]

/-! ## One level -/

/-- What discovering the candidates of a level does: the new qubits are the unknown candidates, each
with a hop from the candidate's origin, and nothing else changes. -/
structure Discovered (distance : Nat) (cands : List (Nat × Nat)) (s : Search)
    (out : Search × List Nat) : Prop where
  size : out.1.size = s.size
  kept : ∀ q hop, s.hop? q = some hop → out.1.hop? q = some hop
  fresh : ∀ q, q ∈ out.2 → s.hop? q = none
  hop : ∀ q h, out.1.hop? q = some h →
    s.hop? q = some h ∨ q ∈ out.2 ∧ h.distance = distance ∧ (h.via, q) ∈ cands
  found : ∀ q, q ∈ out.2 → ∃ via, out.1.hop? q = some ⟨distance, via⟩
  known : ∀ via q, (via, q) ∈ cands → q < s.size → ∃ h, out.1.hop? q = some h

section Discovered

variable {distance via q : Nat} {rest : List (Nat × Nat)} {s : Search} {out : Search × List Nat}

/-- An unknown candidate is found. -/
private theorem Discovered.find (hslot : s[q]? = some none)
    (h : Discovered distance rest (s.setIfInBounds q (some ⟨distance, via⟩)) out) :
    Discovered distance ((via, q) :: rest) s (out.1, q :: out.2) := by
  have hq : q < s.size := (Array.getElem?_eq_some_iff.mp hslot).1
  have hnone : s.hop? q = none := by simp [hop?, hslot]
  have hset : ∀ r, hop? (s.setIfInBounds q (some ⟨distance, via⟩)) r =
      if q = r then some ⟨distance, via⟩ else s.hop? r := fun _ => hop?_set hq
  refine
    { size := by simpa using h.size
      kept := ?_
      fresh := ?_
      hop := ?_
      found := ?_
      known := ?_ }
  · intro r hop hr
    apply h.kept r hop
    have hne : q ≠ r := by rintro rfl; simp [hnone] at hr
    simpa [hset, hne] using hr
  · intro r hr
    rcases List.mem_cons.mp hr with rfl | hr
    · exact hnone
    · have := h.fresh r hr
      rw [hset] at this
      split at this
      · cases this
      · exact this
  · intro r hop hr
    rcases h.hop r hop hr with hold | ⟨hmem, hd, hc⟩
    · rw [hset] at hold
      split at hold
      · rename_i heq
        cases hold
        exact Or.inr ⟨by simp [heq], rfl, by simp [heq]⟩
      · exact Or.inl hold
    · exact Or.inr ⟨List.mem_cons_of_mem _ hmem, hd, List.mem_cons_of_mem _ hc⟩
  · intro r hr
    rcases List.mem_cons.mp hr with rfl | hr
    · exact ⟨via, h.kept r ⟨distance, via⟩ (by simp [hset])⟩
    · exact h.found r hr
  · intro via' r hmem hlt
    rcases List.mem_cons.mp hmem with heq | hmem
    · cases heq
      exact ⟨⟨distance, via⟩, h.kept q ⟨distance, via⟩ (by simp [hset])⟩
    · exact h.known via' r hmem (by simpa using hlt)

/-- A candidate that is known already is passed over. -/
private theorem Discovered.skip (hslot : s[q]? ≠ some none) (h : Discovered distance rest s out) :
    Discovered distance ((via, q) :: rest) s out where
  size := h.size
  kept := h.kept
  fresh := h.fresh
  hop := by
    intro r hop hr
    rcases h.hop r hop hr with hold | ⟨hmem, hd, hc⟩
    · exact Or.inl hold
    · exact Or.inr ⟨hmem, hd, List.mem_cons_of_mem _ hc⟩
  found := h.found
  known := by
    intro via' r hmem hlt
    rcases List.mem_cons.mp hmem with heq | hmem
    · cases heq
      cases hs : s[q]? with
      | none =>
          simp at hs
          omega
      | some slot =>
          cases slot with
          | none => exact absurd hs hslot
          | some hop => exact ⟨hop, h.kept q hop (hop?_eq_some.mpr hs)⟩
    · exact h.known via' r hmem hlt

end Discovered

theorem discover_spec (distance : Nat) (cands : List (Nat × Nat)) :
    ∀ s : Search, Discovered distance cands s (discover distance cands s) := by
  induction cands with
  | nil =>
      intro s
      exact
        { size := rfl
          kept := fun _ _ h => h
          fresh := by simp [discover]
          hop := fun _ _ h => Or.inl h
          found := by simp [discover]
          known := by simp }
  | cons cand rest ih =>
      obtain ⟨via, q⟩ := cand
      intro s
      unfold discover
      split
      · rename_i hslot
        exact (ih _).find hslot
      · rename_i hslot
        exact (ih s).skip hslot

/-! ## Trees of hops -/

/-- Hops from a source that each come from a neighbor one hop nearer. -/
structure Rooted (neighbors : Nat → List Nat) (count source : Nat) (s : Search) : Prop where
  size : s.size = count
  root : s.hop? source = some ⟨0, source⟩
  zero : ∀ q h, s.hop? q = some h → h.distance = 0 → q = source
  step : ∀ q d via, s.hop? q = some ⟨d + 1, via⟩ →
    q ∈ neighbors via ∧ ∃ before, s.hop? via = some ⟨d, before⟩

/-- A finished search: rooted, and no neighbor of a found qubit is missing or farther than one hop
more. -/
structure Tree (neighbors : Nat → List Nat) (count source : Nat) (s : Search) : Prop
    extends Rooted neighbors count source s where
  closed : ∀ q h, s.hop? q = some h → ∀ r ∈ neighbors q, r < count →
    ∃ h', s.hop? r = some h' ∧ h'.distance ≤ h.distance + 1

/-- A search that has looked at the neighbors of all qubits nearer than `distance`, the qubits at
that distance being the current level. -/
structure Upto (neighbors : Nat → List Nat) (count source distance : Nat) (level : List Nat)
    (s : Search) : Prop extends Rooted neighbors count source s where
  le : ∀ q h, s.hop? q = some h → h.distance ≤ distance
  level : ∀ q, q ∈ level ↔ ∃ via, s.hop? q = some ⟨distance, via⟩
  closed : ∀ q h, s.hop? q = some h → h.distance < distance → ∀ r ∈ neighbors q, r < count →
    ∃ h', s.hop? r = some h' ∧ h'.distance ≤ h.distance + 1

/-- A path read off rooted hops: it runs from the source to the qubit, one edge and one hop at a
time. -/
theorem Rooted.pathTo_spec {s : Search} (hs : Rooted neighbors count source s) :
    ∀ (d q via : Nat) (rest : List Nat), s.hop? q = some ⟨d, via⟩ →
      ∃ path, s.pathTo d q rest = path ++ rest ∧
        path.head? = some source ∧ path.getLast? = some q ∧
        path.IsChain (fun a b => b ∈ neighbors a) ∧
        path.map (fun r => (s.hop? r).map (·.distance)) = (List.range (d + 1)).map some := by
  intro d
  induction d with
  | zero =>
      intro q via rest hq
      have : q = source := hs.zero q _ hq rfl
      subst this
      exact ⟨[q], rfl, rfl, rfl, List.isChain_singleton q, by simp [hq]⟩
  | succ d ih =>
      intro q via rest hq
      obtain ⟨hnb, before, hvia⟩ := hs.step q d via hq
      obtain ⟨path, heq, hhead, hlast, hchain, hdist⟩ := ih via before (q :: rest) hvia
      refine ⟨path ++ [q], ?_, ?_, by simp, ?_, ?_⟩
      · simp [pathTo, hq, heq]
      · simp [List.head?_append, hhead]
      · apply hchain.append (List.isChain_singleton q)
        intro x hx y hy
        simp only [hlast, Option.mem_def, Option.some.injEq] at hx
        simp only [List.head?_cons, Option.mem_def, Option.some.injEq] at hy
        subst hx hy
        exact hnb
      · rw [List.range_succ, List.map_append, List.map_append, hdist]
        simp [hq]

/-- Qubits at increasing distances differ. -/
theorem nodup_of_distances {s : Search} {path : List Nat} {n : Nat}
    (hdist : path.map (fun r => (s.hop? r).map (·.distance)) = (List.range n).map some) :
    path.Nodup := by
  refine List.Nodup.of_map (fun r => (s.hop? r).map (·.distance)) ?_
  rw [hdist]
  exact List.Nodup.map (fun _ _ => Option.some.inj) List.nodup_range

/-- No qubit is as many hops away as there are qubits. -/
theorem Rooted.distance_lt {s : Search} (hs : Rooted neighbors count source s) {q : Nat} {h : Hop}
    (hq : s.hop? q = some h) : h.distance < count := by
  obtain ⟨path, -, -, -, -, hdist⟩ := hs.pathTo_spec h.distance q h.via [] hq
  have hlen : path.length = h.distance + 1 := by
    simpa using congrArg List.length hdist
  have hnodup := nodup_of_distances hdist
  have hsub : path ⊆ List.range count := by
    intro r hr
    have hmem : (s.hop? r).map (·.distance) ∈ (List.range (h.distance + 1)).map some := by
      rw [← hdist]
      exact List.mem_map_of_mem hr
    obtain ⟨d, -, hd⟩ := List.mem_map.mp hmem
    obtain ⟨hop, hhop, -⟩ := Option.map_eq_some_iff.mp hd.symm
    have := (Array.getElem?_eq_some_iff.mp (hop?_eq_some.mp hhop)).1
    rw [hs.size] at this
    exact List.mem_range.mpr this
  have := (List.subperm_of_subset hnodup hsub).length_le
  simp only [List.length_range] at this
  omega

/-- One level keeps the invariant. -/
theorem Upto.next {s : Search} {distance : Nat} {level : List Nat}
    (hs : Upto neighbors count source distance level s) :
    Upto neighbors count source (distance + 1)
      (discover (distance + 1) (candidates neighbors level) s).2
      (discover (distance + 1) (candidates neighbors level) s).1 := by
  have hd := discover_spec (distance + 1) (candidates neighbors level) s
  generalize discover (distance + 1) (candidates neighbors level) s = out at hd
  have hcand : ∀ via q,
      (via, q) ∈ candidates neighbors level ↔ via ∈ level ∧ q ∈ neighbors via := by
    simp [candidates]
  refine
    { size := hd.size.trans hs.size
      root := hd.kept _ _ hs.root
      zero := ?_
      step := ?_
      le := ?_
      level := ?_
      closed := ?_ }
  · intro q h hq hzero
    rcases hd.hop q h hq with hold | ⟨-, hdist, -⟩
    · exact hs.zero q h hold hzero
    · omega
  · intro q d via hq
    rcases hd.hop q _ hq with hold | ⟨-, hdist, hc⟩
    · obtain ⟨hnb, before, hb⟩ := hs.step q d via hold
      exact ⟨hnb, before, hd.kept _ _ hb⟩
    · obtain ⟨hvia, hnb⟩ := (hcand _ _).mp hc
      obtain ⟨before, hb⟩ := (hs.level via).mp hvia
      simp only [Nat.add_right_cancel_iff] at hdist
      exact ⟨hnb, before, by rw [hdist]; exact hd.kept _ _ hb⟩
  · intro q h hq
    rcases hd.hop q h hq with hold | ⟨-, hdist, -⟩
    · have := hs.le q h hold
      omega
    · omega
  · intro q
    constructor
    · exact hd.found q
    · rintro ⟨via, hq⟩
      rcases hd.hop q _ hq with hold | ⟨hmem, -, -⟩
      · have := hs.le q _ hold
        simp only at this
        omega
      · exact hmem
  · intro q h hq hlt r hr hrlt
    rcases hd.hop q h hq with hold | ⟨-, hdist, -⟩
    · by_cases hnear : h.distance < distance
      · obtain ⟨h', hh', hle⟩ := hs.closed q h hold hnear r hr hrlt
        exact ⟨h', hd.kept _ _ hh', hle⟩
      · -- the qubit is on the level just looked at, so its neighbors are known now
        have heq : h.distance = distance := by omega
        have hlevel : q ∈ level := (hs.level q).mpr ⟨h.via, by rw [hold, ← heq]⟩
        have hc : (q, r) ∈ candidates neighbors level := (hcand q r).mpr ⟨hlevel, hr⟩
        obtain ⟨h', hh'⟩ := hd.known q r hc (by rw [hs.size]; exact hrlt)
        refine ⟨h', hh', ?_⟩
        rcases hd.hop r h' hh' with hold' | ⟨-, hdist', -⟩
        · have := hs.le r h' hold'
          omega
        · omega
    · omega

/-- Enough fuel finishes the search. -/
theorem levels_tree (fuel : Nat) :
    ∀ (distance : Nat) (level : List Nat) (s : Search),
      Upto neighbors count source distance level s → count ≤ fuel + distance →
      Tree neighbors count source (levels neighbors fuel distance level s) := by
  have hdone : ∀ {distance : Nat} {level : List Nat} {s : Search},
      Upto neighbors count source distance level s → level = [] →
      Tree neighbors count source s := by
    intro distance level s hs hnil
    refine { hs.toRooted with closed := ?_ }
    intro q h hq
    apply hs.closed q h hq
    have hle := hs.le q h hq
    rcases Nat.lt_or_ge h.distance distance with hlt | hge
    · exact hlt
    · have : q ∈ level := (hs.level q).mpr ⟨h.via, by rw [hq, Nat.le_antisymm hge hle]⟩
      rw [hnil] at this
      cases this
  induction fuel with
  | zero =>
      intro distance level s hs hfuel
      apply hdone hs
      apply List.eq_nil_iff_forall_not_mem.mpr
      intro q hq
      obtain ⟨via, hhop⟩ := (hs.level q).mp hq
      have := hs.distance_lt hhop
      simp only at this
      omega
  | succ fuel ih =>
      intro distance level s hs hfuel
      cases level with
      | nil => exact hdone hs rfl
      | cons q rest => exact ih _ _ _ hs.next (by omega)

/-- The search from a source ends with the tree of its shortest hops. -/
theorem run_tree (hsource : source < count) :
    Tree neighbors count source (run count neighbors source) := by
  refine levels_tree count 0 [source] _ ?_ (by omega)
  have hhop : ∀ q, hop? ((Array.replicate count none).setIfInBounds source (some ⟨0, source⟩)) q =
      if source = q then some ⟨0, source⟩ else none := by
    intro q
    rw [hop?_set (by simpa using hsource)]
    have : (if q < count then some (none : Option Hop) else none).join = none := by split <;> rfl
    simp [hop?, Array.getElem?_replicate, this]
  refine
    { size := by simp
      root := by simp [hhop]
      zero := ?_
      step := ?_
      le := ?_
      level := ?_
      closed := ?_ }
  · intro q h hq _
    rw [hhop] at hq
    split at hq
    · rename_i heq; exact heq.symm
    · cases hq
  · intro q d via hq
    rw [hhop] at hq
    split at hq <;> cases hq
  · intro q h hq
    rw [hhop] at hq
    split at hq
    · cases hq; exact Nat.le_refl 0
    · cases hq
  · intro q
    simp only [List.mem_singleton, hhop]
    constructor
    · rintro rfl
      exact ⟨q, by simp⟩
    · rintro ⟨via, hq⟩
      split at hq
      · rename_i heq; exact heq.symm
      · cases hq
  · intro q h _ hlt
    omega

/-! ## Hops and walks -/

/-- A hop stands for a walk of its length. -/
theorem Rooted.walk_of_hop {s : Search} (hs : Rooted neighbors count source s) :
    ∀ (d q via : Nat), s.hop? q = some ⟨d, via⟩ →
      Walk (fun a b => b ∈ neighbors a) source q d := by
  intro d
  induction d with
  | zero =>
      intro q via hq
      rw [hs.zero q _ hq rfl]
      exact .stay
  | succ d ih =>
      intro q via hq
      obtain ⟨hnb, before, hvia⟩ := hs.step q d via hq
      exact .go (ih via before hvia) hnb

/-- Whatever a walk reaches has a hop that is no longer. -/
theorem Tree.hop_of_walk {s : Search} (hs : Tree neighbors count source s)
    (hlt : ∀ q, ∀ r ∈ neighbors q, r < count) {q d : Nat}
    (hw : Walk (fun a b => b ∈ neighbors a) source q d) :
    ∃ h, s.hop? q = some h ∧ h.distance ≤ d := by
  induction hw with
  | stay => exact ⟨_, hs.root, Nat.le_refl 0⟩
  | go _ hstep ih =>
      obtain ⟨h, hh, hle⟩ := ih
      obtain ⟨h', hh', hle'⟩ := hs.closed _ h hh _ hstep (hlt _ _ hstep)
      exact ⟨h', hh', by omega⟩

end Search

end QubitMapper
