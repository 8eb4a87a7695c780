import QubitMapper.Proofs.Device.Metric

/-!
# Searches by halving and with a queue

Whether a qubit is among the neighbors of another one is a question about a sorted list, which
halving answers. And a breadth-first search that goes level by level is the same as one with a
queue: the qubit at the front is taken, and its neighbors that have no distance yet get one and join
the queue at its end. At any time the queue is what is left of a level, and behind it what has been
found of the next one. Each qubit joins it once.

## Main results

* `Device.isAdjacent_eq_bisect`: adjacency, by halving.
* `Search.Rows.fill_eq`: the queue runs empty, and the rows it leaves are those of the search.
* `Device.exists_rows`: distances are read off the rows.
-/

namespace QubitMapper

/-! ## Halving -/

/-- Whether a number is among those of a list from one position up to another one, by halving. -/
def bisect (l : List Nat) (x low high : Nat) : Bool :=
  if low < high then
    let middle := (low + high) / 2
    match l[middle]? with
    | none => false
    | some y =>
        if y = x then true
        else if y < x then bisect l x (middle + 1) high
        else bisect l x low middle
  else false
termination_by high - low

/-- Halving finds what there is to find in a sorted list. -/
theorem bisect_iff {l : List Nat} (hl : l.SortedLT) {x low high : Nat} (hhigh : high ≤ l.length) :
    bisect l x low high = true ↔ ∃ i, low ≤ i ∧ i < high ∧ l[i]? = some x := by
  have hmono : ∀ {i j y z : Nat}, i ≤ j → l[i]? = some y → l[j]? = some z → y ≤ z := by
    intro i j y z hij hi hj
    obtain ⟨hi, rfl⟩ := List.getElem?_eq_some_iff.mp hi
    obtain ⟨hj, rfl⟩ := List.getElem?_eq_some_iff.mp hj
    exact hl.sortedLE.getElem_le_getElem_of_le hij
  fun_induction bisect l x low high with
  | case1 low high hwindow middle hnone =>
      have hmiddle : middle = (low + high) / 2 := rfl
      rw [List.getElem?_eq_none_iff] at hnone
      omega
  | case2 low high hwindow middle hy =>
      have hmiddle : middle = (low + high) / 2 := rfl
      exact iff_of_true rfl ⟨middle, by omega, by omega, hy⟩
  | case3 low high hwindow middle y hy hne hless ih =>
      have hmiddle : middle = (low + high) / 2 := rfl
      -- what is sought lies above the middle
      have habove : ∀ {i}, l[i]? = some x → middle < i := fun hx =>
        Nat.lt_of_not_le fun hle => Nat.not_lt.mpr (hmono hle hx hy) hless
      refine (ih hhigh).trans (exists_congr fun i => ?_)
      exact ⟨fun ⟨hle, h⟩ => ⟨by omega, h⟩, fun ⟨_, hi, hx⟩ => ⟨habove hx, hi, hx⟩⟩
  | case4 low high hwindow middle y hy hne hless ih =>
      have hmiddle : middle = (low + high) / 2 := rfl
      -- what is sought lies below the middle
      have hbelow : ∀ {i}, l[i]? = some x → i < middle := fun hx =>
        Nat.lt_of_not_le fun hle => hne (by have := hmono hle hy hx; omega)
      refine (ih (by omega)).trans (exists_congr fun i => ?_)
      exact ⟨fun ⟨hle, hi, hx⟩ => ⟨hle, by omega, hx⟩, fun ⟨hle, _, hx⟩ => ⟨hle, hbelow hx, hx⟩⟩
  | case5 low high hwindow =>
      refine iff_of_false Bool.false_ne_true ?_
      rintro ⟨i, hle, hi, -⟩
      omega

/-! ## Rows -/

namespace Search

/-- What a search writes down for each qubit, each in a row: its distance from the source, and the
qubit before it. -/
structure Rows where
  distance : Array (Option Nat)
  before : Array (Option Nat)

namespace Rows

/-- The rows before a search: the source is no hop away. -/
def start (count source : Nat) : Rows :=
  ⟨(Array.replicate count none).setIfInBounds source (some 0), Array.replicate count none⟩

/-- A neighbor of a qubit reached, with the rows and the queue: if it has no distance yet, it gets
one and joins the queue. -/
def reach (via : Nat) (state : Rows × List Nat) (q : Nat) : Rows × List Nat :=
  let (rows, queue) := state
  match rows.distance[q]? with
  | some none =>
      (⟨rows.distance.setIfInBounds q ((rows.distance[via]?).join.map (· + 1)),
        rows.before.setIfInBounds q (some via)⟩, queue ++ [q])
  | _ => (rows, queue)

/-- A queue worked off from its front, of at most `fuel` qubits. -/
def drain (neighbors : Nat → List Nat) : Nat → Rows → List Nat → Option Rows
  | _, rows, [] => some rows
  | 0, _, _ :: _ => none
  | fuel + 1, rows, via :: queue =>
      let (rows, queue) := (neighbors via).foldl (reach via) (rows, queue)
      drain neighbors fuel rows queue

/-- The rows that a queue fills which begins with the source, if no more than all qubits join it. -/
def fill (neighbors : Nat → List Nat) (count source : Nat) : Option Rows :=
  drain neighbors count (start count source) [source]

end Rows

/-- The rows of a search. No qubit is before the source. -/
def rows (s : Search) : Rows where
  distance := s.map fun hop? => hop?.map (·.distance)
  before := s.map fun hop? => hop?.bind fun hop => if hop.distance = 0 then none else some hop.via

/-- How many qubits a search has not found. -/
def unknown (s : Search) : Nat := Array.count none s

variable {neighbors : Nat → List Nat} {count source distance via q : Nat} {s : Search}

theorem distance_rows (s : Search) (q : Nat) :
    (s.rows.distance[q]?).join = (s.hop? q).map (·.distance) := by
  unfold rows hop?
  rw [Array.getElem?_map]
  rcases s[q]? with _ | _ | hop <;> rfl

theorem before_rows (s : Search) (q : Nat) : (s.rows.before[q]?).join =
    (s.hop? q).bind fun hop => if hop.distance = 0 then none else some hop.via := by
  unfold rows hop?
  rw [Array.getElem?_map]
  rcases s[q]? with _ | _ | hop <;> rfl

/-! ## One level -/

section Level

variable {c : Nat × Nat} {rest : List (Nat × Nat)}

private theorem discover_new (h : s[c.2]? = some none) : discover distance (c :: rest) s =
    ((discover distance rest (s.setIfInBounds c.2 (some ⟨distance, c.1⟩))).1,
      c.2 :: (discover distance rest (s.setIfInBounds c.2 (some ⟨distance, c.1⟩))).2) := by
  rw [discover, h]

private theorem discover_old (h : s[c.2]? ≠ some none) :
    discover distance (c :: rest) s = discover distance rest s := by
  rw [discover]
  split
  · rename_i hslot
    exact absurd hslot h
  · rfl

end Level

theorem discover_append (cands cands' : List (Nat × Nat)) : ∀ s : Search,
    discover distance (cands ++ cands') s =
      ((discover distance cands' (discover distance cands s).1).1,
        (discover distance cands s).2 ++
          (discover distance cands' (discover distance cands s).1).2) := by
  induction cands with
  | nil => exact fun _ => rfl
  | cons c rest ih =>
      intro s
      rw [List.cons_append]
      by_cases h : s[c.2]? = some none
      · rw [discover_new h, discover_new h, ih]
        rfl
      · rw [discover_old h, discover_old h, ih]

/-- A qubit that is found is one less to find. -/
private theorem unknown_set (h : s[q]? = some none) (hop : Hop) :
    unknown s = unknown (s.setIfInBounds q (some hop)) + 1 := by
  obtain ⟨hlt, hnone⟩ := Array.getElem?_eq_some_iff.mp h
  have hpos : 0 < Array.count none s := Array.count_pos_iff.mpr (hnone ▸ Array.getElem_mem hlt)
  unfold unknown
  rw [Array.setIfInBounds_def, dif_pos hlt, Array.count_set hlt]
  simp [hnone]
  omega

/-- What is found was unknown before. -/
theorem unknown_discover (distance : Nat) (cands : List (Nat × Nat)) : ∀ s : Search,
    unknown s = unknown (discover distance cands s).1 + (discover distance cands s).2.length := by
  induction cands with
  | nil => exact fun _ => rfl
  | cons c rest ih =>
      intro s
      by_cases h : s[c.2]? = some none
      · rw [unknown_set h ⟨distance, c.1⟩, ih, discover_new h]
        rfl
      · rw [discover_old h, ih]

/-- The neighbors of a qubit are reached in order. -/
theorem foldl_reach (qs : List Nat) : ∀ {s : Search} {before : Nat} (queue : List Nat),
    s.hop? via = some ⟨distance, before⟩ →
      qs.foldl (Rows.reach via) (s.rows, queue) =
        ((discover (distance + 1) (qs.map (via, ·)) s).1.rows,
          queue ++ (discover (distance + 1) (qs.map (via, ·)) s).2) := by
  induction qs with
  | nil => simp [discover]
  | cons q rest ih =>
      intro s before queue hvia
      rw [List.foldl_cons, List.map_cons]
      have hslot : s.rows.distance[q]? = (s[q]?).map fun hop? => hop?.map (·.distance) := by
        simp [rows]
      by_cases h : s[q]? = some none
      · have hlt : q < s.size := (Array.getElem?_eq_some_iff.mp h).1
        have hne : q ≠ via := by
          rintro rfl
          simp [hop?, h] at hvia
        have hreach : Rows.reach via (s.rows, queue) q =
            (rows (s.setIfInBounds q (some ⟨distance + 1, via⟩)), queue ++ [q]) := by
          unfold Rows.reach
          dsimp only
          rw [hslot, h, distance_rows, hvia]
          simp [rows, Array.map_setIfInBounds]
        have hvia' : hop? (s.setIfInBounds q (some ⟨distance + 1, via⟩)) via =
            some ⟨distance, before⟩ := by
          rw [hop?_set hlt, if_neg hne, hvia]
        rw [hreach, ih _ hvia', discover_new h]
        simp
      · have hreach : Rows.reach via (s.rows, queue) q = (s.rows, queue) := by
          unfold Rows.reach
          dsimp only
          rw [hslot]
          rcases hq : s[q]? with _ | _ | hop
          · rfl
          · exact absurd hq h
          · rfl
        rw [hreach, ih queue hvia, discover_old h]

/-- A level is taken from the queue, and what it finds is behind what was there. -/
theorem drain_level (neighbors : Nat → List Nat) (fuel : Nat) (level : List Nat) :
    ∀ (s : Search) (queue : List Nat),
      (∀ via ∈ level, ∃ before, s.hop? via = some ⟨distance, before⟩) →
      Rows.drain neighbors (level.length + fuel) s.rows (level ++ queue) =
        Rows.drain neighbors fuel (discover (distance + 1) (candidates neighbors level) s).1.rows
          (queue ++ (discover (distance + 1) (candidates neighbors level) s).2) := by
  induction level with
  | nil => simp [candidates, discover]
  | cons via rest ih =>
      intro s queue hlevel
      rw [List.forall_mem_cons] at hlevel
      obtain ⟨⟨before, hvia⟩, hrest⟩ := hlevel
      have hcands : candidates neighbors (via :: rest) =
          (neighbors via).map (via, ·) ++ candidates neighbors rest := rfl
      have hkept : ∀ via' ∈ rest, ∃ before,
          (discover (distance + 1) ((neighbors via).map (via, ·)) s).1.hop? via' =
            some ⟨distance, before⟩ := by
        intro via' hmem
        obtain ⟨before', hvia'⟩ := hrest via' hmem
        exact ⟨before', (discover_spec _ _ s).kept _ _ hvia'⟩
      rw [List.length_cons, Nat.add_right_comm, List.cons_append, Rows.drain,
        foldl_reach (neighbors via) _ hvia]
      dsimp only
      rw [List.append_assoc, ih _ _ hkept, hcands, discover_append, List.append_assoc]

/-- The queue runs empty when the levels do. -/
theorem drain_levels (neighbors : Nat → List Nat) (fuel : Nat) :
    ∀ (distance : Nat) (level : List Nat) (s : Search),
      (∀ via ∈ level, ∃ before, s.hop? via = some ⟨distance, before⟩) →
      unknown s < fuel ∨ level = [] →
      Rows.drain neighbors (level.length + unknown s) s.rows level =
        some (levels neighbors fuel distance level s).rows := by
  induction fuel with
  | zero =>
      rintro distance level s - (h | rfl)
      · omega
      · simp [Rows.drain, levels]
  | succ fuel ih =>
      intro distance level s hlevel hfuel
      cases level with
      | nil => simp [Rows.drain, levels]
      | cons via rest =>
          have hunknown := unknown_discover (distance + 1)
            (candidates neighbors (via :: rest)) s
          have hfound := (discover_spec (distance + 1) (candidates neighbors (via :: rest)) s).found
          have hdrain := drain_level neighbors (unknown s) (via :: rest) s [] hlevel
          rw [List.append_nil, List.nil_append] at hdrain
          rw [hdrain]
          show _ = some (levels neighbors fuel (distance + 1)
            (discover (distance + 1) (candidates neighbors (via :: rest)) s).2
            (discover (distance + 1) (candidates neighbors (via :: rest)) s).1).rows
          generalize discover (distance + 1) (candidates neighbors (via :: rest)) s = out at *
          rw [hunknown, Nat.add_comm]
          refine ih (distance + 1) out.2 out.1 hfound ?_
          rw [← List.length_eq_zero_iff]
          have := hfuel.resolve_right (List.cons_ne_nil via rest)
          omega

/-- A queue that begins with a source runs empty after no more than all qubits, and fills the rows
of the search. -/
theorem Rows.fill_eq (hsource : source < count) :
    fill neighbors count source = some (run count neighbors source).rows := by
  let s : Search := (Array.replicate count none).setIfInBounds source (some ⟨0, source⟩)
  have hrows : s.rows = start count source := by
    simp [s, rows, start, Array.map_setIfInBounds]
  have hunknown : count = unknown s + 1 := by
    have hnone : (Array.replicate count (none : Option Hop))[source]? = some none := by
      simp [hsource]
    rw [← unknown_set hnone ⟨0, source⟩]
    simp [unknown]
  have hhop : s.hop? source = some ⟨0, source⟩ := by
    rw [hop?_set (by simpa using hsource), if_pos rfl]
  have hdrain := drain_levels neighbors count 0 [source] s (by simp [hhop]) (.inl (by omega))
  rw [List.length_singleton, Nat.add_comm, ← hunknown, hrows] at hdrain
  exact hdrain

/-- Apart from the source, the qubit before another one is the one that it was reached from. -/
theorem Rooted.before_rows (hs : Rooted neighbors count source s) (hne : q ≠ source) :
    (s.rows.before[q]?).join = (s.hop? q).map (·.via) := by
  rw [Search.before_rows]
  cases hq : s.hop? q with
  | none => rfl
  | some hop =>
      have hfar : hop.distance ≠ 0 := fun hzero => hne (hs.zero q hop hq hzero)
      simp [hfar]

end Search

namespace Device

variable {d : Device} {a b : Nat}

/-- Whether two qubits are adjacent, found by halving the neighbors of one. -/
theorem isAdjacent_eq_bisect :
    d.isAdjacent a b = bisect (d.neighbors a) b 0 (d.neighbors a).length := by
  rw [Bool.eq_iff_iff, bisect_iff (d.sortedLT_neighbors a) (Nat.le_refl _), isAdjacent,
    List.contains_iff_mem, List.mem_iff_getElem?]
  refine exists_congr fun i => ⟨fun h => ⟨Nat.zero_le i, ?_, h⟩, fun h => h.2.2⟩
  exact (List.getElem?_eq_some_iff.mp h).1

/-- The queue fills rows from which the distances are read off. -/
theorem exists_rows (ha : a < d.numQubits) :
    ∃ rows, Search.Rows.fill d.neighbors d.numQubits a = some rows ∧
      ∀ b, d.distance? a b = (rows.distance[b]?).join := by
  refine ⟨_, Search.Rows.fill_eq ha, fun b => ?_⟩
  rw [distance?, search?_eq ha, Option.bind_some, Search.distance_rows]

end Device

end QubitMapper
