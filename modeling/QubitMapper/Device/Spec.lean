import QubitMapper.Device.Topology
import QubitMapper.Device.Description

/-!
# Device specifications

A specification names a device in a few characters: `path(5)`, `ring`, `star(5, 2)`, `grid(3, 4)` or
`file(device.txt)`. Sizes that are left out follow from the number of qubits to be placed.
-/

namespace QubitMapper

/-- A choice of device. -/
inductive Spec where
  | path (qubits : Option Nat)
  | ring (qubits : Option Nat)
  | star (qubits centre : Option Nat)
  | grid (width height : Option Nat)
  | file (name : String)
  deriving DecidableEq, Repr

/-- Why a text is no specification. -/
inductive SpecProblem where
  | unclosed
  | noFilename
  | notADimension (text : String)
  | manyDimensions
  | singleDimension (name : String)
  | unknownDevice (name : String)
  deriving DecidableEq, Repr

/-- The wording of a problem. -/
def SpecProblem.message : SpecProblem → String
  | unclosed => "missing closing ')'"
  | noFilename =>
      "a filename must be provided like file(/full/path/to/device_file.txt)"
  | notADimension text => s!"'{text}' is not a dimension"
  | manyDimensions => "at most two dimensions are allowed"
  | singleDimension name => s!"'{name}' takes a single dimension"
  | unknownDevice name =>
      s!"unknown device '{name}' (expected path, ring, star, grid or file)"

/-- A text that is no specification, without the blanks around it. -/
structure SpecError where
  text : String
  problem : SpecProblem
  deriving DecidableEq, Repr

/-- The wording of an error. -/
def SpecError.message (e : SpecError) : String :=
  s!"Invalid device specification '{e.text}': {e.problem.message}"

namespace Spec

/-! ## Building the device -/

/-- The least number from `side` on, at most `fuel` steps away, whose square is not below `n`. -/
def squareSide (n : Nat) : Nat → Nat → Nat
  | 0, side => side
  | fuel + 1, side => if n ≤ side * side then side else squareSide n fuel (side + 1)

/-- The device that a specification names, when `sources` qubits are to be placed. -/
def build (files : FileReader) (spec : Spec) (sources : Nat) : Except DeviceError Device :=
  if Text.limit32 ≤ sources then .error (.tooManySources sources)
  else
    match spec with
    | path n => Device.path (n.getD sources)
    | ring n => Device.ring (n.getD sources)
    | star n centre => Device.star (n.getD sources) (centre.getD 0)
    | grid (some width) (some height) => Device.grid width height
    | grid (some width) none => Device.grid width width
    | grid none _ =>
        let side := squareSide sources sources 0
        Device.grid side side
    | file name => Device.load files name

/-! ## Text -/

/-- A name with its dimensions; a second dimension needs a first. -/
def withDimensions (name : String) : Option Nat → Option Nat → String
  | some a, some b => s!"{name}({a}, {b})"
  | some a, none => s!"{name}({a})"
  | none, _ => name

/-- The text of a specification. -/
def text : Spec → String
  | path n => withDimensions "path" n none
  | ring n => withDimensions "ring" n none
  | star n centre => withDimensions "star" n centre
  | grid width height => withDimensions "grid" width height
  | file name => s!"file({name})"

/-- The name and the arguments of a specification: the arguments are what stands between the first
opening and the last closing parenthesis. -/
def splitCall (spec : List Char) : Except SpecProblem (List Char × Option (List Char)) :=
  if spec.contains '(' then
    let inner := (spec.dropWhile (· != '(')).drop 1
    if inner.getLast? = some ')' then
      .ok (Text.trim (spec.takeWhile (· != '(')), some (Text.trim inner.dropLast))
    else .error .unclosed
  else .ok (spec, none)

/-- A dimension. -/
def readDimension (cs : List Char) : Except SpecProblem Nat :=
  match Text.readUnsigned Text.limit32 (Text.trim cs) with
  | some n => .ok n
  | none => .error (.notADimension (String.ofList (Text.trim cs)))

/-- The dimensions among the arguments, set apart by commas. -/
def readDimensions : Option (List Char) → Except SpecProblem (List Nat)
  | none => .ok []
  | some [] => .ok []
  | some args => (args.splitOn ',').mapM readDimension

/-- The specification with a name and dimensions. -/
def ofDimensions (name : String) (dimensions : List Nat) : Except SpecProblem Spec :=
  if 2 < dimensions.length then .error .manyDimensions
  else
    let first := dimensions[0]?
    let second := dimensions[1]?
    match name with
    | "path" => if second.isSome then .error (.singleDimension name) else .ok (path first)
    | "ring" => if second.isSome then .error (.singleDimension name) else .ok (ring first)
    | "star" => .ok (star first second)
    | "grid" => .ok (grid first second)
    | _ => .error (.unknownDevice name)

/-- The specification that characters without blanks around them stand for. -/
def read (spec : List Char) : Except SpecProblem Spec := do
  let (name, args) ← splitCall spec
  let name := String.ofList (name.map Char.toLower)
  if name = "file" then
    match args with
    | some (c :: cs) => .ok (file (String.ofList (c :: cs)))
    | _ => .error .noFilename
  else
    ofDimensions name (← readDimensions args)

/-- The specification that a text stands for. -/
def parse (s : String) : Except SpecError Spec :=
  let spec := Text.trim s.toList
  (read spec).mapError fun problem => ⟨String.ofList spec, problem⟩

end Spec

end QubitMapper
