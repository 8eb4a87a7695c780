import QubitMapper.Decimal.Shortest

/-!
# JSON documents

A document keeps what its text says: numbers stay numerals, members stay in order with their
repetitions. A string literal can fail to name a text, when one of its escapes is half of a
surrogate pair; such a literal is kept as `none`, because a reader that skips it does not mind.

Values are taken out of a document by the functions below, each of which accepts exactly one kind
of document. `fields` is the one for records.
-/

namespace QubitMapper

/-- A JSON document. -/
inductive Json where
  | null
  | bool (b : Bool)
  | number (n : Decimal.Numeral)
  | string (text : Option String)
  | array (items : List Json)
  | object (members : List (Option String × Json))

namespace Json

/-! ## Making documents -/

/-- A text. -/
def text (s : String) : Json := .string (some s)

/-- A natural number. -/
def nat (n : Nat) : Json := .number (.ofNat n)

/-- A float; the ones that are not finite have no numeral and become `null`. -/
def float (x : Float) : Json :=
  if x.isFinite then .number (Decimal.dataLayout.ofFloat x) else .null

/-- An object with the given members. -/
def record (members : List (String × Json)) : Json :=
  .object (members.map fun (key, value) => (some key, value))

/-- A list of natural numbers. -/
def nats (ns : List Nat) : Json := .array (ns.map nat)

/-- A value, or `null`. -/
def optional {α : Type} (encode : α → Json) : Option α → Json
  | none => .null
  | some a => encode a

/-! ## Taking values out of documents -/

/-- The text of a string literal. -/
def text? : Json → Option String
  | .string s => s
  | _ => none

/-- A natural number below `limit`, written without sign, point and exponent. -/
def natBelow? (limit : Nat) : Json → Option Nat
  | .number n => n.toNat?.filter (· < limit)
  | _ => none

/-- A natural number of 32 bits. -/
def nat32? (j : Json) : Option Nat := j.natBelow? Text.limit32

/-- A number as a float. -/
def float? : Json → Option Float
  | .number n => n.scaled
  | _ => none

/-- The items of an array, each taken out by `decode`. -/
def list? {α : Type} (decode : Json → Option α) : Json → Option (List α)
  | .array items => items.mapM decode
  | _ => none

/-- A value or `null`. -/
def optional? {α : Type} (decode : Json → Option α) : Json → Option (Option α)
  | .null => some none
  | j => (decode j).map some

/-! ## Records -/

/-- The members of an object among `names`: every key must name a text, and none of `names` may
come twice. Other members are skipped. -/
def knownMembers (names : List String) :
    List (Option String × Json) → Option (List (String × Json))
  | [] => some []
  | (key, value) :: rest => do
      let key ← key
      let found ← knownMembers names rest
      if names.contains key then
        if found.any (·.1 == key) then none else some ((key, value) :: found)
      else some found

/-- The fields of a record, which is an object, or an array with the fields in order and
possibly fewer of them. A field that is absent is `none`. -/
def fields (names : List String) : Json → Option (List (Option Json))
  | .object members => do
      let found ← knownMembers names members
      some (names.map fun name => (found.find? (·.1 == name)).map (·.2))
  | .array items =>
      if items.length ≤ names.length then
        some (items.map some ++ List.replicate (names.length - items.length) none)
      else none
  | _ => none

/-- A field that must be there. -/
def required {α : Type} (decode : Json → Option α) (field : Option Json) : Option α :=
  field.bind decode

/-- A field that takes the value `default` when it is absent. -/
def defaulted {α : Type} (default : α) (decode : Json → Option α) : Option Json → Option α
  | none => some default
  | some j => decode j

/-! ## Documents that can be held back

A reader that must look at one member before it knows what the others mean holds the others back.
Only sound documents can be held back: every string names a text, every number is in range, and
arrays and objects are nested less deep than the reader allows. -/

/-- The greatest number of arrays and objects around any part of a document. -/
def maxDepth : Nat := 127

mutual

/-- Whether a document is sound and nested at most `room` deep. -/
def isSound (room : Nat) : Json → Bool
  | .null => true
  | .bool _ => true
  | .number n => n.scaled.isSome
  | .string s => s.isSome
  | .array items => decide (0 < room) && areSound (room - 1) items
  | .object members => decide (0 < room) && membersSound (room - 1) members

/-- Whether all items of an array are sound. -/
def areSound (room : Nat) : List Json → Bool
  | [] => true
  | j :: rest => isSound room j && areSound room rest

/-- Whether all members of an object are sound. -/
def membersSound (room : Nat) : List (Option String × Json) → Bool
  | [] => true
  | (key, j) :: rest => key.isSome && isSound room j && membersSound room rest

end

end Json

end QubitMapper
