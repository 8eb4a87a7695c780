import QubitMapper.Circuit.Kernel.Basic

/-!
# Kernels as text

One line for each operation: its results, its name, the register in quotes, its operands and its
physical qubits, each part only where there is something to show.
-/

namespace QubitMapper

/-- The name of a level. -/
def Level.name : Level → String
  | .logical => "Logical"
  | .physical => "Physical"

/-- Labels set apart by commas. -/
def commaList (labels : List String) : String := String.intercalate ", " labels

namespace Operation

/-- The line of an operation. -/
def line (o : Operation) : String :=
  let results := if o.results.isEmpty then "" else commaList (o.results.map wireLabel) ++ " = "
  let register := match o.kind with
    | .measure (some register) => " \"" ++ register ++ "\""
    | _ => ""
  let operands := if o.operands.isEmpty then "" else " " ++ commaList (o.operands.map wireLabel)
  let physical :=
    if o.physical.isEmpty then ""
    else " [" ++ commaList (o.physical.map physicalLabel) ++ "]"
  "  " ++ results ++ o.name ++ register ++ operands ++ physical ++ "\n"

end Operation

namespace Kernel

/-- The lines of a block; erased operations are left out. -/
def blockText (k : Kernel) (b : Nat) (ops : List Nat) : String :=
  blockLabel b ++ ":\n" ++ String.join ((ops.filterMap k.op?).map Operation.line)

/-- The text of a kernel. -/
def text (k : Kernel) : String :=
  let blocks := k.blocks.zipIdx.map fun (ops, b) => k.blockText b ops
  let mapping := match k.mapping with
    | none => ""
    | some map => "mapping_v2p = [" ++ commaList (map.map toString) ++ "]\n"
  "kernel @" ++ k.name ++ " (" ++ k.level.name ++ ") \x7b\n" ++ String.join blocks ++ mapping ++
    "\x7d"

end Kernel

end QubitMapper
