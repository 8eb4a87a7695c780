import QubitMapper.Circuit.Operation.Json
import QubitMapper.Proofs.Json.Reading
import QubitMapper.Proofs.Outcome

/-!
# Values are taken out of the documents made of them

What a value of each kind must satisfy to be taken out of its own document: numbers have to be below
the limit of their type, floats have to be given back by their numerals, lists and options pass the
question on to what they hold. The members of a record are found by their keys.

## Main results

* `Json.float?_float`, `Json.nat32?_nat`, `Json.list?_array`, `Json.optional?_optional`.
* `Json.fields_record`, `Json.takeMember?_keyed`: the members of a record.
* `Json.written_record`, `Json.written_array`: which documents can be printed.
-/

namespace QubitMapper

namespace Json

variable {α β : Type}

/-! ## Values -/

/-- A list is taken out of its document exactly if each of its elements is taken out of its own. -/
theorem list?_array {encode : α → Json} {decode : Json → Option α} {l : List α} :
    (array (l.map encode)).list? decode = some l ↔ ∀ a ∈ l, decode (encode a) = some a := by
  show (l.map encode).mapM decode = some l ↔ _
  rw [mapM_eq_some_iff, List.forall₂_map_left_iff, List.forall₂_same]

/-- A float that is finite and that its numeral gives back. Numerals name their floats exactly, but
reading rounds at each step, so that some are read as neighbours of their floats. -/
def Exact (x : Float) : Prop :=
  x.isFinite = true ∧ (Decimal.dataLayout.ofFloat x).scaled = some x

instance (x : Float) : Decidable (Exact x) := inferInstanceAs (Decidable (_ ∧ _))

example : Exact (-0.0) ∧ Exact 3.141592653589793 ∧ Exact 5e-324 ∧ ¬ Exact 8.988465674311579e307 := by
  decide +kernel

theorem float?_float {x : Float} : float? (float x) = some x ↔ Exact x := by
  unfold float Exact
  cases x.isFinite <;> simp [float?]

theorem nat32?_nat {n : Nat} : nat32? (nat n) = some n ↔ n < Text.limit32 := by
  simp [nat32?, nat, natBelow?, Decimal.Numeral.ofNat, Decimal.Numeral.toNat?, Option.filter]

theorem list?_nats {ns : List Nat} :
    (nats ns).list? nat32? = some ns ↔ ∀ n ∈ ns, n < Text.limit32 := by
  simp only [nats, list?_array, nat32?_nat]

theorem optional?_optional {encode : α → Json} {decode : Json → Option α}
    (hencode : ∀ a, encode a ≠ .null) {o : Option α} :
    optional? decode (optional encode o) = some o ↔ ∀ a ∈ o, decode (encode a) = some a := by
  cases o with
  | none => simp [optional, optional?]
  | some a =>
      have h : optional? decode (encode a) = (decode (encode a)).map some := by
        unfold optional?
        split
        · next hnull => exact absurd hnull (hencode a)
        · rfl
      simp [optional, h]

/-! ## Records -/

/-- Members with keys that name texts. -/
def keyed (members : List (String × Json)) : List (Option String × Json) :=
  members.map fun (key, value) => (some key, value)

theorem knownMembers_keyed {names : List String} {members : List (String × Json)}
    (hknown : ∀ m ∈ members, m.1 ∈ names) (hnodup : (members.map (·.1)).Nodup) :
    knownMembers names (keyed members) = some members := by
  induction members with
  | nil => rfl
  | cons m rest ih =>
      obtain ⟨key, value⟩ := m
      rw [List.forall_mem_cons] at hknown
      rw [List.map_cons, List.nodup_cons] at hnodup
      have hfresh : rest.any (·.1 == key) = false := by
        rw [List.any_eq_false]
        intro m hm heq
        exact hnodup.1 (List.mem_map.mpr ⟨m, hm, by simpa using heq⟩)
      have hrest := ih hknown.2 hnodup.2
      simp only [keyed, List.map_cons, knownMembers, bind, Option.bind_some] at hrest ⊢
      simp [hrest, hknown.1, hfresh]

/-- The fields of a record are looked up among its members. -/
theorem fields_record {names : List String} {members : List (String × Json)}
    (hknown : ∀ m ∈ members, m.1 ∈ names) (hnodup : (members.map (·.1)).Nodup) :
    (record members).fields names =
      some (names.map fun name => (members.find? (·.1 == name)).map (·.2)) := by
  show (knownMembers names (keyed members)).bind _ = _
  rw [knownMembers_keyed hknown hnodup, Option.bind_some]

/-- A member whose key comes once is taken out. -/
theorem takeMember?_keyed {key : String} {value : Json} {pre post : List (String × Json)}
    (hpre : ∀ m ∈ pre, m.1 ≠ key) (hpost : ∀ m ∈ post, m.1 ≠ key) :
    OpKind.takeMember? key (keyed (pre ++ (key, value) :: post)) =
      some (value, keyed (pre ++ post)) := by
  have hnone (l : List (String × Json)) (hl : ∀ m ∈ l, m.1 ≠ key) :
      (keyed l).filter (·.1 == some key) = [] := by
    rw [List.filter_eq_nil_iff]
    intro m hm
    obtain ⟨m', hm', rfl⟩ := List.mem_map.mp hm
    simpa using hl m' hm'
  have hall (l : List (String × Json)) (hl : ∀ m ∈ l, m.1 ≠ key) :
      (keyed l).filter (not ∘ (·.1 == some key)) = keyed l := by
    rw [List.filter_eq_self]
    intro m hm
    obtain ⟨m', hm', rfl⟩ := List.mem_map.mp hm
    simpa using hl m' hm'
  have hsplit : keyed (pre ++ (key, value) :: post) =
      keyed pre ++ (some key, value) :: keyed post := by
    simp [keyed]
  unfold OpKind.takeMember?
  rw [List.partition_eq_filter_filter, hsplit]
  simp only [List.filter_append, List.filter_cons, hnone pre hpre, hnone post hpost, hall pre hpre,
    hall post hpost]
  simp [keyed]

/-! ## Documents that are held back -/

theorem areSound_iff {room : Nat} {items : List Json} :
    areSound room items = true ↔ ∀ j ∈ items, j.isSound room = true := by
  induction items with
  | nil => simp [areSound]
  | cons j rest ih => simp [areSound, ih]

theorem membersSound_keyed {room : Nat} {members : List (String × Json)} :
    membersSound room (keyed members) = true ↔ ∀ m ∈ members, m.2.isSound room = true := by
  induction members with
  | nil => simp [keyed, membersSound]
  | cons m rest ih =>
      rw [List.forall_mem_cons, ← ih]
      simp [keyed, membersSound]

/-! ## Documents that can be printed -/

theorem written_record {members : List (String × Json)} (h : ∀ m ∈ members, m.2.Written) :
    (record members).Written := by
  refine .object fun m hm => ?_
  obtain ⟨m', hm', rfl⟩ := List.mem_map.mp hm
  exact h m' hm'

theorem written_array {encode : α → Json} {l : List α}
    (h : ∀ a ∈ l, (encode a).Written) : (array (l.map encode)).Written := by
  refine .array fun j hj => ?_
  obtain ⟨a, ha, rfl⟩ := List.mem_map.mp hj
  exact h a ha

theorem written_nat (n : Nat) : (nat n).Written := .number fun _ hc => by cases hc

theorem written_nats (ns : List Nat) : (nats ns).Written := written_array fun n _ => written_nat n

theorem written_float (x : Float) : (float x).Written := by
  unfold float
  split
  · exact .number (Decimal.Layout.numeral_written _ _ _)
  · exact .null

theorem written_optional {encode : α → Json} (h : ∀ a, (encode a).Written)
    (o : Option α) : (optional encode o).Written := by
  cases o with
  | none => exact .null
  | some a => exact h a

end Json

end QubitMapper
