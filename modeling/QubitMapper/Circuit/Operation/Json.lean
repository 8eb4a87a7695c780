import QubitMapper.Circuit.Operation
import QubitMapper.Json.Basic

/-!
# Operations as JSON

The member `kind` says which kind an operation has, and the members beside it hold what that kind
carries. Because the kind decides what the others mean, they are held back until it is known, and
must be sound documents even where they are skipped. Outside instructions a kind may also be an
array that starts with its name.
-/

namespace QubitMapper

namespace OpKind

/-- The tags of the kinds, in the order in which numbers stand for them. -/
def tags : List String := ["alloc", "gate", "measure", "reset", "swap", "sink", "opaque"]

/-- A kind that carries nothing: members beside the tag are skipped, but an array ends behind it. -/
def bare (kind : OpKind) : Json → Option OpKind
  | .array (_ :: _) => none
  | _ => some kind

/-- The kind with a tag, from the document that holds what the kind carries. -/
def ofTag? (tag : String) (held : Json) : Option OpKind :=
  match tag with
  | "alloc" => alloc.bare held
  | "reset" => reset.bare held
  | "swap" => swap.bare held
  | "sink" => sink.bare held
  | "gate" => do
      let [name, params] ← held.fields ["name", "params"] | none
      let name ← Json.required Json.text? name
      let params ← Json.defaulted [] (Json.list? Json.float?) params
      some (gate name params)
  | "measure" => do
      let [register] ← held.fields ["register"] | none
      let register ← Json.defaulted none (Json.optional? Json.text?) register
      some (measure register)
  | "opaque" => do
      let [name] ← held.fields ["name"] | none
      let name ← Json.required Json.text? name
      some (unknown name)
  | _ => none

/-- The value of the one member with a key, and the other members. -/
def takeMember? (key : String) (members : List (Option String × Json)) :
    Option (Json × List (Option String × Json)) :=
  match members.partition (·.1 == some key) with
  | ([(_, value)], others) => some (value, others)
  | _ => none

/-- A kind from a document that stands inside `depth` arrays and objects. -/
def ofJson? (depth : Nat) : Json → Option OpKind
  | .object members => do
      let (tag, held) ← takeMember? "kind" members
      if Json.membersSound (Json.maxDepth - (depth + 1)) held then
        ofTag? (← tag.text?) (.object held)
      else none
  | .array (tag :: held) => do
      if Json.areSound (Json.maxDepth - (depth + 1)) held then
        ofTag? (← tag.text?) (.array held)
      else none
  | _ => none

/-- A tag that was held back: its name, or its number among the tags. -/
def heldTag? : Json → Option String
  | .string s => s
  | .number n => n.toNat?.bind (tags[·]?)
  | _ => none

/-- The members that a kind puts into an object. -/
def members : OpKind → List (String × Json)
  | alloc => [("kind", .text "alloc")]
  | gate name params =>
      [("kind", .text "gate"), ("name", .text name)] ++
        if params.isEmpty then [] else [("params", .array (params.map Json.float))]
  | measure register => [("kind", .text "measure"), ("register", .optional .text register)]
  | reset => [("kind", .text "reset")]
  | swap => [("kind", .text "swap")]
  | sink => [("kind", .text "sink")]
  | unknown name => [("kind", .text "opaque"), ("name", .text name)]

/-- The document of a kind. -/
def toJson (kind : OpKind) : Json := .record kind.members

end OpKind

namespace Operation

/-- The document of an operation; an empty list of physical qubits is left out. -/
def toJson (o : Operation) : Json :=
  .record <|
    [("kind", o.kind.toJson), ("operands", .nats o.operands), ("results", .nats o.results)] ++
      if o.physical.isEmpty then [] else [("physical", .nats o.physical)]

/-- An operation from a document that stands inside `depth` arrays and objects. -/
def ofJson? (depth : Nat) (j : Json) : Option Operation := do
  let [kind, operands, results, physical] ←
    j.fields ["kind", "operands", "results", "physical"] | none
  let kind ← Json.required (OpKind.ofJson? (depth + 1)) kind
  let operands ← Json.required (Json.list? Json.nat32?) operands
  let results ← Json.required (Json.list? Json.nat32?) results
  let physical ← Json.defaulted [] (Json.list? Json.nat32?) physical
  some { kind, operands, results, physical }

end Operation

namespace Wire

/-- The document of a wire. -/
def toJson (w : Wire) : Json :=
  .record [("producer", .nat w.producer), ("index", .nat w.index), ("users", .nats w.users)]

/-- A wire from a document. -/
def ofJson? (j : Json) : Option Wire := do
  let [producer, index, users] ← j.fields ["producer", "index", "users"] | none
  let producer ← Json.required Json.nat32? producer
  let index ← Json.required Json.nat32? index
  let users ← Json.required (Json.list? Json.nat32?) users
  some { producer, index, users }

end Wire

end QubitMapper
