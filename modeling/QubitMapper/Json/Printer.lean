import QubitMapper.Json.Basic

/-!
# Printing JSON

Two layouts: `compact` on one line without blanks, and `pretty` with one item or member a line,
indented by two blanks a level. In strings only the quote, the backslash and the control
characters are escaped.
-/

namespace QubitMapper.Json

/-- A hexadecimal digit in lower case. -/
def hexChar (n : Nat) : Char := Nat.digitChar (n % 16)

/-- A character as it stands in a string literal. -/
def escape (c : Char) : List Char :=
  if c = '"' then ['\\', '"']
  else if c = '\\' then ['\\', '\\']
  else if 0x20 ≤ c.toNat then [c]
  else if c = '\n' then ['\\', 'n']
  else if c = '\r' then ['\\', 'r']
  else if c = '\t' then ['\\', 't']
  else if c = '\x08' then ['\\', 'b']
  else if c = '\x0c' then ['\\', 'f']
  else ['\\', 'u', '0', '0', hexChar (c.toNat / 16), hexChar c.toNat]

/-- A string literal. One that names no text is printed as an unpaired escape. -/
def quote : Option String → List Char
  | some s => '"' :: s.toList.flatMap escape ++ ['"']
  | none => "\"\\ud800\"".toList

/-- How the parts of arrays and objects are set apart. -/
structure Spacing where
  /-- What stands in front of each part, given the level. -/
  lead : Nat → List Char
  /-- What stands behind a colon. -/
  gap : List Char

/-- Everything on one line. -/
def Spacing.compact : Spacing := ⟨fun _ => [], []⟩

/-- Each part on a line of its own. -/
def Spacing.pretty : Spacing := ⟨fun level => '\n' :: List.replicate (2 * level) ' ', [' ']⟩

mutual

/-- The characters of a document that stands at the given level. -/
def render (w : Spacing) (level : Nat) : Json → List Char
  | .null => "null".toList
  | .bool true => "true".toList
  | .bool false => "false".toList
  | .number n => n.render
  | .string s => quote s
  | .array [] => ['[', ']']
  | .array (j :: rest) =>
      '[' :: w.lead (level + 1) ++ render w (level + 1) j ++ renderItems w (level + 1) rest ++
        w.lead level ++ [']']
  | .object [] => ['{', '}']
  | .object ((key, j) :: rest) =>
      '{' :: w.lead (level + 1) ++ quote key ++ ':' :: w.gap ++ render w (level + 1) j ++
        renderMembers w (level + 1) rest ++ w.lead level ++ ['}']

/-- The items of an array behind the first. -/
def renderItems (w : Spacing) (level : Nat) : List Json → List Char
  | [] => []
  | j :: rest => ',' :: w.lead level ++ render w level j ++ renderItems w level rest

/-- The members of an object behind the first. -/
def renderMembers (w : Spacing) (level : Nat) : List (Option String × Json) → List Char
  | [] => []
  | (key, j) :: rest =>
      ',' :: w.lead level ++ quote key ++ ':' :: w.gap ++ render w level j ++
        renderMembers w level rest

end

/-- A document on one line. -/
def compact (j : Json) : String := String.ofList (render .compact 0 j)

/-- A document with one item or member a line. -/
def pretty (j : Json) : String := String.ofList (render .pretty 0 j)

end QubitMapper.Json
