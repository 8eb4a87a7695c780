import QubitMapper.Circuit.Operation.Json
import QubitMapper.Circuit.Program.Basic

/-!
# Programs as JSON

An instruction is an object with the members of its kind and the qubits beside them.
-/

namespace QubitMapper

namespace Instruction

/-- The document of an instruction. -/
def toJson (i : Instruction) : Json := .record (i.kind.members ++ [("qubits", .nats i.qubits)])

/-- An instruction from a document that stands inside `depth` arrays and objects. All members but
the qubits are held back for the kind. -/
def ofJson? (depth : Nat) : Json → Option Instruction
  | .object members => do
      let (qubits, held) ← OpKind.takeMember? "qubits" members
      let qubits ← qubits.list? Json.nat32?
      if Json.membersSound (Json.maxDepth - (depth + 1)) held then
        let (tag, held) ← OpKind.takeMember? "kind" held
        let kind ← OpKind.ofTag? (← OpKind.heldTag? tag) (.object held)
        some { kind, qubits }
      else none
  | _ => none

end Instruction

namespace Program

/-- The document of a program. -/
def toJson (p : Program) : Json :=
  .record [("name", .text p.name), ("num_qubits", .nat p.numQubits),
    ("instructions", .array (p.instructions.map Instruction.toJson))]

/-- A program from a document. -/
def ofJson? (j : Json) : Option Program := do
  let [name, numQubits, instructions] ← j.fields ["name", "num_qubits", "instructions"] | none
  let name ← Json.required Json.text? name
  let numQubits ← Json.required Json.nat32? numQubits
  let instructions ← Json.defaulted [] (Json.list? (Instruction.ofJson? 2)) instructions
  some { name, numQubits, instructions }

end Program

end QubitMapper
