import QubitMapper.Circuit.Kernel.Text
import QubitMapper.Circuit.Operation.Json

/-!
# Kernels as JSON

The document shows the kernel as it is, with holes for erased operations. Reading one checks its
form only; `Kernel.verify` checks the rest.
-/

namespace QubitMapper

namespace Level

/-- A level by its name. -/
def ofName? : String → Option Level
  | "Logical" => some .logical
  | "Physical" => some .physical
  | _ => none

/-- A level from a document: its name, or an object with its name for the only key and `null`. -/
def ofJson? : Json → Option Level
  | .string s => s.bind ofName?
  | .object [(key, .null)] => key.bind ofName?
  | _ => none

end Level

namespace Kernel

/-- The document of a kernel; the mapping is left out where there is none. -/
def toJson (k : Kernel) : Json :=
  .record <|
    [("name", .text k.name),
      ("ops", .array (k.ops.toList.map (Json.optional Operation.toJson))),
      ("wires", .array (k.wires.toList.map Wire.toJson)),
      ("blocks", .array (k.blocks.map Json.nats)),
      ("level", .text k.level.name)] ++
      match k.mapping with
      | none => []
      | some map => [("mapping_v2p", .nats map)]

/-- A kernel from a document. -/
def ofJson? (j : Json) : Option Kernel := do
  let [name, ops, wires, blocks, level, mapping] ←
    j.fields ["name", "ops", "wires", "blocks", "level", "mapping_v2p"] | none
  let name ← Json.required Json.text? name
  let ops ← Json.required (Json.list? (Json.optional? (Operation.ofJson? 2))) ops
  let wires ← Json.required (Json.list? Wire.ofJson?) wires
  let blocks ← Json.required (Json.list? (Json.list? Json.nat32?)) blocks
  let level ← Json.required Level.ofJson? level
  let mapping ← Json.defaulted none (Json.optional? (Json.list? Json.nat32?)) mapping
  some { name, ops := ops.toArray, wires := wires.toArray, blocks, level, mapping }

end Kernel

end QubitMapper
