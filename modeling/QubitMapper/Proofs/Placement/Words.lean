import QubitMapper.Proofs.Placement.Calls

/-!
# Placements in 32-bit words

The two tables of a placement are kept as words, of which the greatest one stands for no qubit. They
are written one entry after the other, and an entry is looked at before it is written. Counts of
qubits are words as well, so that no qubit has the number that stands for none, and the tables in
words show the placement after every call.

## Main results

* `Placement.Tables.perform_words`: a call does the same in words.
* `Placement.run_stays_inverse`: what holds of a placement after any calls.
-/

namespace QubitMapper.Placement

variable {virtual physical a b v q : Nat} {p p₀ : Placement}

/-- The tables of a placement in words, `nowhere` being the one for no qubit. -/
structure Tables where
  places : Array Nat
  holders : Array Nat
  deriving DecidableEq, Repr

/-! ## Tables in words -/

namespace Tables

/-- The tables where nothing is placed yet. -/
def empty (virtual physical : Nat) : Except PlacementError Tables :=
  if physical < virtual then .error (.tooFewQubits virtual physical)
  else .ok ⟨Array.replicate virtual nowhere, Array.replicate physical nowhere⟩

/-- The tables with a qubit written on the one of the same number. -/
def settle (t : Tables) (i : Nat) : Tables :=
  ⟨t.places.setIfInBounds i i, t.holders.setIfInBounds i i⟩

/-- The tables with each virtual qubit on the physical qubit of the same number. -/
def identity (virtual physical : Nat) : Except PlacementError Tables :=
  (fun t => (List.range virtual).foldl settle t) <$> empty virtual physical

/-- The qubit that an entry names. -/
def named? (entry : Option Nat) : Option Nat := entry.filter (· ≠ nowhere)

/-- The physical qubit that holds a virtual qubit. -/
def physical? (t : Tables) (v : Nat) : Option Nat := named? t.places[v]?

/-- The virtual qubit that a physical qubit holds. -/
def virtual? (t : Tables) (q : Nat) : Option Nat := named? t.holders[q]?

/-- Whether every virtual qubit is placed. -/
def isComplete (t : Tables) : Bool := t.places.all (· != nowhere)

/-- Whether every entry of one table is answered by the other one. -/
def answers (table other : Array Nat) : Bool :=
  table.toList.zipIdx.all fun (w, i) => w == nowhere || other[w]? == some i

/-- Whether the two tables agree with each other. -/
def isBijective (t : Tables) : Bool := answers t.places t.holders && answers t.holders t.places

/-- A virtual qubit placed, if both qubits are there and free: one table is written after the
other. -/
def assign (v q : Nat) : EStateM PlacementError Tables Unit := do
  let t ← get
  if t.places.size ≤ v ∨ t.holders.size ≤ q then throw (.outOfRange v q)
  if t.places[v]? ≠ some nowhere ∨ t.holders[q]? ≠ some nowhere then throw (.taken v q)
  modify fun t => { t with places := t.places.setIfInBounds v q }
  modify fun t => { t with holders := t.holders.setIfInBounds q v }

/-- The tables with a virtual qubit, if the word is for one, moved to a place. -/
def move (w q : Nat) (t : Tables) : Tables :=
  if w = nowhere then t else { t with places := t.places.setIfInBounds w q }

/-- What two physical qubits hold exchanged, and the virtual qubits, where there are some, moved. -/
def swap (a b : Nat) : EStateM PlacementError Tables Unit := do
  let t ← get
  let va := t.holders.getD a nowhere
  let vb := t.holders.getD b nowhere
  modify fun t => { t with holders := t.holders.setIfInBounds a vb }
  modify fun t => { t with holders := t.holders.setIfInBounds b va }
  modify (move va b)
  modify (move vb a)

/-- The tables changed by a call. -/
def perform : Call → EStateM PlacementError Tables Unit
  | .assign v q => assign v q
  | .swap a b => swap a b

/-- The tables that a call leaves, whether it succeeds or fails. -/
def after (t : Tables) (c : Call) : Tables :=
  match perform c t with
  | .ok _ t' => t'
  | .error _ t' => t'

/-- The tables after some calls. -/
def run (t : Tables) (calls : List Call) : Tables := calls.foldl after t

end Tables

/-- The tables of a beginning. -/
def Beginning.tables : Beginning → Nat → Nat → Except PlacementError Tables
  | empty => Tables.empty
  | identity => Tables.identity

/-! ## The words of a placement -/

/-- A table in words. -/
def tableWords (table : Array (Option Nat)) : Array Nat := table.map (·.getD nowhere)

/-- The tables of a placement in words. -/
def words (p : Placement) : Tables := ⟨tableWords p.places, tableWords p.holders⟩

/-- An outcome with the placement that it leaves in words. -/
def wordsLeft :
    EStateM.Result PlacementError Placement Unit → EStateM.Result PlacementError Tables Unit
  | .ok _ p => .ok ⟨⟩ p.words
  | .error e p => .error e p.words

section Entries

variable {table other : Array (Option Nat)} {i : Nat}

theorem getElem?_tableWords (table : Array (Option Nat)) (i : Nat) :
    (tableWords table)[i]? = table[i]?.map (·.getD nowhere) := Array.getElem?_map

theorem size_tableWords (table : Array (Option Nat)) : (tableWords table).size = table.size :=
  Array.size_map

theorem tableWords_setIfInBounds (table : Array (Option Nat)) (i : Nat) (entry : Option Nat) :
    tableWords (table.setIfInBounds i entry) =
      (tableWords table).setIfInBounds i (entry.getD nowhere) := by
  refine Array.ext_getElem? fun j => ?_
  simp only [getElem?_tableWords, Array.getElem?_setIfInBounds, size_tableWords]
  split
  · split <;> rfl
  · rfl

/-- The entries of a table name qubits that have numbers of their own. -/
def Named (table : Array (Option Nat)) : Prop :=
  ∀ i j : Nat, table[i]? = some (some j) → j < nowhere

/-- In words an entry names the same qubit. -/
theorem Named.named? (h : Named table) (i : Nat) :
    Tables.named? (tableWords table)[i]? = (table[i]?).join := by
  rw [getElem?_tableWords]
  rcases hi : table[i]? with _ | _ | j
  · rfl
  · simp [Tables.named?, Option.filter]
  · have hj := h i j hi
    simp [Tables.named?, Option.filter, Nat.ne_of_lt hj]

/-- In words an entry is for no qubit if it is empty. -/
theorem Named.getElem?_eq_nowhere (h : Named table) (i : Nat) :
    (tableWords table)[i]? = some nowhere ↔ table[i]? = some none := by
  rw [getElem?_tableWords]
  rcases hi : table[i]? with _ | _ | j
  · simp
  · simp
  · have hj := h i j hi
    simp [Nat.ne_of_lt hj]

/-- In words each entry of a table is answered by another table if it was before. -/
theorem answers_tableWords
    (h : ∀ i j : Nat, table[i]? = some (some j) → other[j]? = some (some i)) :
    Tables.answers (tableWords table) (tableWords other) = true := by
  simp only [Tables.answers, List.all_eq_true, Prod.forall, List.mk_mem_zipIdx_iff_getElem?,
    Array.getElem?_toList, Bool.or_eq_true, beq_iff_eq]
  intro w i hw
  rw [getElem?_tableWords, Option.map_eq_some_iff] at hw
  obtain ⟨entry, hi, rfl⟩ := hw
  cases entry with
  | none => exact .inl rfl
  | some j =>
      refine .inr ?_
      rw [Option.getD_some, getElem?_tableWords, h i j hi]
      rfl

end Entries

/-! ## Calls in words -/

/-- The entries of a sound placement whose counts are words name qubits that have numbers of their
own. -/
theorem Sound.named (h : Sound virtual physical p) (hvirtual : virtual < UInt32.size)
    (hphysical : physical < UInt32.size) : Named p.places ∧ Named p.holders := by
  have hinverse := isBijective_iff.mp h.inverse
  simp only [physical?_eq_some, virtual?_eq_some] at hinverse
  have hplaces : p.places.size = virtual := h.virtualCount
  have hholders : p.holders.size = physical := h.physicalCount
  constructor
  · intro v q hplace
    have hlt := (Array.getElem?_eq_some_iff.mp ((hinverse v q).mp hplace)).1
    unfold nowhere
    omega
  · intro q v hholder
    have hlt := (Array.getElem?_eq_some_iff.mp ((hinverse v q).mpr hholder)).1
    unfold nowhere
    omega

namespace Tables

/-- The tables are empty at first. -/
theorem empty_eq (virtual physical : Nat) :
    empty virtual physical = words <$> Placement.empty virtual physical := by
  unfold empty Placement.empty
  split
  · rfl
  · simp [words, tableWords]

/-- A table of some size in which each of the first `n` qubits is named at its own number. -/
private def named (n size : Nat) : Array (Option Nat) :=
  (Array.range size).map fun i => if i < n then some i else none

private theorem getElem?_named (n : Nat) {size i : Nat} (hi : i < size) :
    (named n size)[i]? = some (if i < n then some i else none) := by
  simp [named, hi]

/-- One more qubit is written at its number. -/
private theorem write_named (n size : Nat) :
    (tableWords (named n size)).setIfInBounds n n = tableWords (named (n + 1) size) := by
  have hsize : ∀ n, (named n size).size = size := fun n => by simp [named]
  rw [show n = (some n : Option Nat).getD nowhere from rfl, ← tableWords_setIfInBounds]
  refine congrArg tableWords (Array.ext (by simp [hsize]) fun i hi _ => ?_)
  rw [Array.size_setIfInBounds, hsize] at hi
  rw [← Option.some.injEq, ← Array.getElem?_eq_getElem, ← Array.getElem?_eq_getElem,
    Array.getElem?_setIfInBounds, getElem?_named _ hi, getElem?_named _ hi, hsize]
  by_cases hni : n = i
  · simp [hni, hi]
  · have hlt : i < n + 1 ↔ i < n := by omega
    simp [hni, hlt]

/-- Written one after the other, the first `n` qubits are named at their own numbers. -/
private theorem settle_spec (virtual physical n : Nat) :
    (List.range n).foldl settle
        ⟨Array.replicate virtual nowhere, Array.replicate physical nowhere⟩ =
      words ⟨named n virtual, named n physical⟩ := by
  induction n with
  | zero => simp [words, tableWords, named, Array.map_const']
  | succ n ih =>
      rw [List.range_succ, List.foldl_append, ih, List.foldl_cons, List.foldl_nil]
      unfold settle words
      rw [write_named, write_named]

/-- Each qubit is on the one of the same number. -/
theorem identity_eq (virtual physical : Nat) :
    identity virtual physical = words <$> Placement.identity virtual physical := by
  unfold identity empty Placement.identity
  split
  · rfl
  · have hplaces : named virtual virtual = (Array.range virtual).map some := by
      refine Array.map_congr_left fun v hv => ?_
      rw [Array.mem_range] at hv
      exact if_pos hv
    refine congrArg Except.ok ?_
    dsimp only
    rw [settle_spec, hplaces]
    rfl

/-- A qubit is placed in words as before, and is refused for the same reason. -/
theorem assign_words (hplaces : Named p.places) (hholders : Named p.holders) (v q : Nat) :
    assign v q p.words = wordsLeft (Placement.perform (.assign v q) p) := by
  have hv : p.words.places.size ≤ v ↔ p.places[v]? = none := by
    rw [Array.getElem?_eq_none_iff]
    exact iff_of_eq (congrArg (· ≤ v) (size_tableWords p.places))
  have hq : p.words.holders.size ≤ q ↔ p.holders[q]? = none := by
    rw [Array.getElem?_eq_none_iff]
    exact iff_of_eq (congrArg (· ≤ q) (size_tableWords p.holders))
  have hv' : p.words.places[v]? = some nowhere ↔ p.places[v]? = some none :=
    hplaces.getElem?_eq_nowhere v
  have hq' : p.words.holders[q]? = some nowhere ↔ p.holders[q]? = some none :=
    hholders.getElem?_eq_nowhere q
  have hplaced : words ⟨p.places.setIfInBounds v (some q), p.holders.setIfInBounds q (some v)⟩ =
      ⟨p.words.places.setIfInBounds v q, p.words.holders.setIfInBounds q v⟩ := by
    unfold words
    rw [tableWords_setIfInBounds, tableWords_setIfInBounds]
    rfl
  rw [perform_assign]
  unfold assign Placement.assign
  rw [get_bind]
  simp only [hv, hq, hv', hq', ne_eq]
  -- the entry of each qubit is missing, empty or taken
  rcases p.places[v]? with _ | _ | _ <;> rcases p.holders[q]? with _ | _ | _ <;> try rfl
  exact congrArg (EStateM.Result.ok _) hplaced.symm

/-- What a physical qubit holds is read from the words. -/
private theorem getD_holders (p : Placement) (q : Nat) :
    p.words.holders.getD q nowhere = (p.virtual? q).getD nowhere := by
  show (tableWords p.holders).getD q nowhere = _
  rw [Array.getD_eq_getD_getElem?, getElem?_tableWords, Placement.virtual?]
  rcases p.holders[q]? with _ | _ | _ <;> rfl

/-- A virtual qubit, if there is one, is moved in words as before. -/
private theorem move_words {o : Option Nat} (ho : ∀ v, o = some v → v < nowhere)
    (places : Array (Option Nat)) (holders : Array Nat) (q : Nat) :
    move (o.getD nowhere) q ⟨tableWords places, holders⟩ =
      ⟨tableWords (moveTo places q o), holders⟩ := by
  cases o with
  | none => exact if_pos rfl
  | some v =>
      rw [moveTo, tableWords_setIfInBounds]
      exact if_neg (Nat.ne_of_lt (ho v rfl))

/-- Two qubits are exchanged in words as before. -/
theorem swap_words (hholders : Named p.holders) (a b : Nat) :
    swap a b p.words = .ok ⟨⟩ (p.swap a b).words := by
  have hheld : ∀ q v, p.virtual? q = some v → v < nowhere :=
    fun q v h => hholders q v (virtual?_eq_some.mp h)
  let va := p.virtual? a
  let vb := p.virtual? b
  have hholders' : tableWords ((p.holders.setIfInBounds a vb).setIfInBounds b va) =
      ((tableWords p.holders).setIfInBounds a (vb.getD nowhere)).setIfInBounds b
        (va.getD nowhere) := by
    rw [tableWords_setIfInBounds, tableWords_setIfInBounds]
  have hleft : move (vb.getD nowhere) a (move (va.getD nowhere) b
      ⟨tableWords p.places, ((tableWords p.holders).setIfInBounds a (vb.getD nowhere)).setIfInBounds
        b (va.getD nowhere)⟩) = (p.swap a b).words := by
    rw [move_words (hheld a), move_words (hheld b), ← hholders']
    rfl
  unfold swap
  rw [get_bind, getD_holders, getD_holders]
  exact congrArg (EStateM.Result.ok PUnit.unit) hleft

/-- A call does the same in words. -/
theorem perform_words (hplaces : Named p.places) (hholders : Named p.holders) (c : Call) :
    perform c p.words = wordsLeft (Placement.perform c p) := by
  cases c with
  | assign v q => exact assign_words hplaces hholders v q
  | swap a b => exact swap_words hholders a b

/-- What a call leaves in words are the words of what it leaves. -/
theorem after_words (hplaces : Named p.places) (hholders : Named p.holders) (c : Call) :
    after p.words c = (p.after c).words := by
  unfold after Placement.after
  rw [perform_words hplaces hholders]
  cases Placement.perform c p <;> rfl

/-- After calls within a placement whose counts are words, its words are still those of the
placement. -/
theorem run_words (hvirtual : virtual < UInt32.size) (hphysical : physical < UInt32.size)
    {calls : List Call} : ∀ {p : Placement}, Sound virtual physical p →
      (∀ c ∈ calls, c.Within p) → run p.words calls = (p.run calls).words := by
  induction calls with
  | nil => exact fun _ _ => rfl
  | cons c rest ih =>
      intro p h hcalls
      rw [List.forall_mem_cons] at hcalls
      obtain ⟨hplaces, hholders⟩ := h.named hvirtual hphysical
      have hafter := h.after hcalls.1
      have hcount : (p.after c).physicalCount = p.physicalCount :=
        hafter.physicalCount.trans h.physicalCount.symm
      show run (after p.words c) rest = _
      rw [after_words hplaces hholders]
      exact ih hafter fun c' hc' => (hcalls.2 c' hc').of_physicalCount hcount

/-- Tables in words answer as a placement does, to every look-up, check and call. -/
structure Shows (t : Tables) (p : Placement) : Prop where
  physical : ∀ v, t.physical? v = p.physical? v
  virtual : ∀ q, t.virtual? q = p.virtual? q
  bijective : t.isBijective = p.isBijective
  complete : t.isComplete = p.isComplete
  performs : ∀ c, perform c t = wordsLeft (Placement.perform c p)

/-- The words of a sound placement whose counts are words show it. -/
theorem words_shows (h : Sound virtual physical p) (hvirtual : virtual < UInt32.size)
    (hphysical : physical < UInt32.size) : p.words.Shows p := by
  obtain ⟨hplaces, hholders⟩ := h.named hvirtual hphysical
  have hinverse := isBijective_iff.mp h.inverse
  simp only [physical?_eq_some, virtual?_eq_some] at hinverse
  refine
    { physical := hplaces.named?
      virtual := hholders.named?
      bijective := ?_
      complete := ?_
      performs := perform_words hplaces hholders }
  · rw [h.inverse, isBijective, Bool.and_eq_true]
    exact ⟨answers_tableWords fun v q => (hinverse v q).mp,
      answers_tableWords fun q v => (hinverse v q).mpr⟩
  · show (p.places.map (·.getD nowhere)).all (· != nowhere) = p.places.all Option.isSome
    rw [Array.all_map, Bool.eq_iff_iff, Array.all_eq_true, Array.all_eq_true]
    refine forall_congr' fun v => forall_congr' fun hv => ?_
    rcases hplace : p.places[v] with _ | q
    · simp
    · have hlt := hplaces v q (Array.getElem?_eq_some_iff.mpr ⟨hv, hplace⟩)
      simp [Nat.ne_of_lt hlt]

end Tables

/-- The tables in words begin with the words of the placement. -/
theorem Beginning.tables_eq (start : Beginning) (virtual physical : Nat) :
    start.tables virtual physical = words <$> start.placement virtual physical := by
  cases start with
  | empty => exact Tables.empty_eq virtual physical
  | identity => exact Tables.identity_eq virtual physical

/-! ## Whatever calls are made -/

/-- A placement that begins empty or as the identity, after any calls, failed ones included: its two
tables are inverse to each other, a seeding that fails changes nothing, a swap is a transposition of
physical qubits, and the tables in words show it all. -/
theorem run_stays_inverse {start : Beginning} (hstart : start.placement virtual physical = .ok p₀)
    {calls : List Call} (hcalls : ∀ c ∈ calls, c.Within p₀) :
    (∀ v q, (p₀.run calls).physical? v = some q ↔ (p₀.run calls).virtual? q = some v) ∧
    (p₀.run calls).isBijective = true ∧
    (∀ v q, (p₀.run calls).Seeds v q) ∧
    (∀ a b, a < (p₀.run calls).physicalCount → b < (p₀.run calls).physicalCount →
      (p₀.run calls).Exchanges a b) ∧
    (virtual < UInt32.size → physical < UInt32.size →
      ∃ t₀, start.tables virtual physical = .ok t₀ ∧ (t₀.run calls).Shows (p₀.run calls)) := by
  have hstarted := Beginning.sound hstart
  have hsound := hstarted.run hcalls
  refine ⟨isBijective_iff.mp hsound.inverse, hsound.inverse, (p₀.run calls).seeds,
    fun a b ha hb => exchanges hsound.inverse ha hb, fun hvirtual hphysical => ?_⟩
  refine ⟨p₀.words, ?_, ?_⟩
  · rw [start.tables_eq, hstart]
    rfl
  · rw [Tables.run_words hvirtual hphysical hstarted hcalls]
    exact Tables.words_shows hsound hvirtual hphysical

/-- Of two virtual qubits one is placed, twice in vain, and then moved by a swap with an empty
qubit. -/
theorem run_stays_inverse_hole :
    let calls : List Call := [.assign 0 2, .assign 0 1, .assign 1 7, .swap 2 1, .swap 0 0]
    let p : Placement := ⟨#[some 1, none], #[none, some 0, none]⟩
    ∃ p₀ t₀, Beginning.empty.placement 2 3 = .ok p₀ ∧ (∀ c ∈ calls, c.Within p₀) ∧
      p₀.run calls = p ∧ (∀ v q, p.physical? v = some q ↔ p.virtual? q = some v) ∧
      p.isBijective = true ∧ p.Seeds 1 1 ∧ p.Exchanges 1 2 ∧
      Beginning.empty.tables 2 3 = .ok t₀ ∧ (t₀.run calls).Shows p := by
  intro calls p
  have hcalls : ∀ c ∈ calls, c.Within ⟨#[none, none], #[none, none, none]⟩ := by
    simp [calls, Call.Within, physicalCount]
  have hstart : Beginning.empty.placement 2 3 = .ok ⟨#[none, none], #[none, none, none]⟩ := rfl
  obtain ⟨hinverse, hbijective, hseeds, hexchanges, hwords⟩ := run_stays_inverse hstart hcalls
  obtain ⟨t₀, ht₀, hshows⟩ := hwords (by decide) (by decide)
  exact ⟨_, t₀, rfl, hcalls, rfl, hinverse, hbijective, hseeds 1 1,
    hexchanges 1 2 (by decide) (by decide), ht₀, hshows⟩

end QubitMapper.Placement
