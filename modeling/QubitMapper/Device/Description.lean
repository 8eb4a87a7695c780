import QubitMapper.Device.Basic
import QubitMapper.Text.Blank
import QubitMapper.Text.Unsigned

/-!
# Device descriptions

A description is a text with one item a line: the header `Number of nodes: n`, which must be there,
the header `Number of edges: m`, which is checked against the edges if it is there, or an edge given
by its two qubits. What follows a `#` is a comment; blank lines mean nothing. Of a repeated header
the last one counts.
-/

namespace QubitMapper

namespace Description

/-- What a line says. -/
inductive Line where
  | blank
  | nodes (count : Nat)
  | edges (count : Nat)
  | edge (a b : Nat)
  deriving DecidableEq, Repr

namespace Line

/-- The number of nodes, if the line says it. -/
def nodes? : Line → Option Nat
  | nodes n => some n
  | _ => none

/-- The number of edges, if the line says it. -/
def edges? : Line → Option Nat
  | edges n => some n
  | _ => none

/-- The edge, if the line is one. -/
def edge? : Line → Option (Nat × Nat)
  | edge a b => some (a, b)
  | _ => none

end Line

/-- What a line with a colon says. -/
def readHeader (key value : List Char) : Except LineProblem Line :=
  let key := (Text.trim key).map Char.toLower
  let value := Text.trim value
  if key = "number of nodes".toList then
    match Text.readUnsigned Text.limit32 value with
    | some n => .ok (.nodes n)
    | none => .error .badNodeCount
  else if key = "number of edges".toList then
    match Text.readUnsigned Text.limit64 value with
    | some n => .ok (.edges n)
    | none => .error .badEdgeCount
  else .error .unknownHeader

/-- What a line without a colon says. -/
def readEdge (line : List Char) : Except LineProblem Line :=
  match Text.words line with
  | [a, b] =>
      match Text.readUnsigned Text.limit32 a, Text.readUnsigned Text.limit32 b with
      | some a, some b => .ok (.edge a b)
      | _, _ => .error .badEndpoint
  | _ => .error .notAnEdge

/-- What a line says. -/
def readLine (raw : List Char) : Except LineProblem Line :=
  let line := Text.trim (raw.takeWhile (· != '#'))
  if line.isEmpty then .ok .blank
  else if line.contains ':' then
    readHeader (line.takeWhile (· != ':')) ((line.dropWhile (· != ':')).drop 1)
  else readEdge line

/-- What the lines of a text say, the first one counted as `first`. -/
def readLines (first : Nat) : List (List Char) → Except DeviceError (List Line)
  | [] => .ok []
  | raw :: rest =>
      match readLine raw with
      | .error problem => .error (.badLine first problem)
      | .ok line => (line :: ·) <$> readLines (first + 1) rest

/-- The device that the lines of a description stand for. -/
def build (lines : List Line) : Except DeviceError Device :=
  let edges := lines.filterMap Line.edge?
  match (lines.filterMap Line.nodes?).getLast? with
  | none => .error .noNodeCount
  | some count =>
      match (lines.filterMap Line.edges?).getLast? with
      | some declared =>
          if declared = edges.length then Device.ofEdges count edges
          else .error (.edgeCountMismatch declared edges.length)
      | none => Device.ofEdges count edges

end Description

namespace Device

/-- The device that a description stands for. -/
def parse (text : String) : Except DeviceError Device := do
  Description.build (← Description.readLines 1 (text.toList.splitOn '\n'))

/-- The device described by a file. -/
def load (files : FileReader) (path : String) : Except DeviceError Device :=
  match files path with
  | .error e => .error (.unreadable path e)
  | .ok text => (parse text).mapError (.inFile path)

end Device

end QubitMapper
