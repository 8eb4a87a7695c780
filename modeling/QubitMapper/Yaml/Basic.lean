import QubitMapper.Decimal.Reader
import QubitMapper.Text.Unsigned

/-!
# YAML documents

A small part of YAML: scalars, sequences and mappings, without anchors, tags and block scalars. A
scalar keeps whether it was quoted, because only a plain one can be a number or stand for nothing.
-/

namespace QubitMapper

/-- A YAML document. -/
inductive Yaml where
  | scalar (text : String) (quoted : Bool)
  | sequence (items : List Yaml)
  | mapping (entries : List (Yaml × Yaml))

namespace Yaml

/-- A node without text. -/
def nothing : Yaml := .scalar "" false

/-- The text of a scalar. -/
def text? : Yaml → Option String
  | .scalar text _ => some text
  | _ => none

/-- The text of a plain scalar. -/
def plain? : Yaml → Option String
  | .scalar text false => some text
  | _ => none

/-! ## Numbers -/

/-- The value of a digit in a base up to sixteen. -/
def digit? (base : Nat) (c : Char) : Option Nat :=
  let n :=
    if c.isDigit then c.toNat - '0'.toNat
    else if 'a' ≤ c.toLower ∧ c.toLower ≤ 'f' then c.toLower.toNat - 'a'.toNat + 10
    else base
  if n < base then some n else none

/-- The value of a nonempty run of digits in a base. -/
def readBase (base : Nat) (cs : List Char) : Option Nat :=
  if cs.isEmpty then none
  else (cs.mapM (digit? base)).map (·.foldl (fun n d => base * n + d) 0)

/-- Whether a text is a zero with more digits behind it, which is no number. -/
def hasLeadingZero (cs : List Char) : Bool :=
  match cs with
  | '0' :: d :: rest => (d :: rest).all Char.isDigit
  | _ => false

/-- A natural number: decimal, or with a base given by `0x`, `0o` or `0b`; a plus sign may stand in
front. -/
def readNat (cs : List Char) : Option Nat :=
  let cs := match cs with
    | '+' :: rest => rest
    | _ => cs
  match cs with
  | '0' :: 'x' :: rest => readBase 16 rest
  | '0' :: 'o' :: rest => readBase 8 rest
  | '0' :: 'b' :: rest => readBase 2 rest
  | _ => if hasLeadingZero cs then none else readBase 10 cs

/-- A natural number below `limit`. -/
def natBelow? (limit : Nat) (y : Yaml) : Option Nat :=
  y.plain?.bind fun s => (readNat s.toList).filter (· < limit)

/-- The words for infinity and for no number. -/
def readWord : String → Option Float
  | ".inf" | ".Inf" | ".INF" | "+.inf" | "+.Inf" | "+.INF" => some (1.0 / 0.0)
  | "-.inf" | "-.Inf" | "-.INF" => some (-(1.0 / 0.0))
  | ".nan" | ".NaN" | ".NAN" => some (0.0 / 0.0)
  | _ => none

/-- A float: one of the words, or a numeral of finite value. -/
def float? (y : Yaml) : Option Float :=
  y.plain?.bind fun s =>
    (readWord s).or ((Decimal.readFloat s.toList).filter Float.isFinite)

/-! ## Records -/

/-- The entries of a mapping among `names`: every key is a scalar, and none of `names` comes twice.
Other entries are skipped. -/
def knownEntries (names : List String) :
    List (Yaml × Yaml) → Option (List (String × Yaml))
  | [] => some []
  | (key, value) :: rest => do
      let key ← key.text?
      let found ← knownEntries names rest
      if names.contains key then
        if found.any (·.1 == key) then none else some ((key, value) :: found)
      else some found

/-- The fields of a record, which is a mapping or a node without text. -/
def fields (names : List String) : Yaml → Option (List (Option Yaml))
  | .mapping entries => do
      let found ← knownEntries names entries
      some (names.map fun name => (found.find? (·.1 == name)).map (·.2))
  | .scalar "" false => some (names.map fun _ => none)
  | _ => none

/-- A field that takes the value `default` when it is absent. -/
def defaulted {α : Type} (default : α) (decode : Yaml → Option α) : Option Yaml → Option α
  | none => some default
  | some y => decode y

end Yaml

end QubitMapper
