/-!
# Places in a YAML text

The characters of a YAML text by what they do, and a cursor that knows its line and column.
-/

namespace QubitMapper.Yaml

/-! ## Characters -/

/-- The characters that a document may hold. -/
def isAllowed (c : Char) : Bool :=
  let n := c.toNat
  c == '\t' || c == '\n' || c == '\r' || (0x20 ≤ n && n ≤ 0x7E) || n == 0x85 ||
    (0xA0 ≤ n && n ≤ 0xFFFD) || 0x10000 ≤ n

/-- The text with the common line ends made one. The line and paragraph separators stay what they
are, since a scalar keeps them. -/
def unifyLineEnds : List Char → List Char
  | '\r' :: '\n' :: rest => '\n' :: unifyLineEnds rest
  | '\r' :: rest => '\n' :: unifyLineEnds rest
  | '\u0085' :: rest => '\n' :: unifyLineEnds rest
  | c :: rest => c :: unifyLineEnds rest
  | [] => []

/-- A blank within a line. -/
def isGap (c : Char) : Bool := c == ' ' || c == '\t'

/-- The end of a line. -/
def isBreak (c : Char) : Bool := c == '\n' || c == '\u2028' || c == '\u2029'

/-- A blank or the end of a line. -/
def isSpace (c : Char) : Bool := isGap c || isBreak c

/-- The characters that brackets are made of and divided by. -/
def isFlowMark (c : Char) : Bool := c == ',' || c == '[' || c == ']' || c == '\x7b' || c == '\x7d'

/-- Whether a word is over: a blank, the end of the line or the end of the text follows. -/
def endsWord : List Char → Bool
  | [] => true
  | c :: _ => isSpace c

/-! ## The cursor -/

/-- What follows in a text, and the line and the column where it begins. -/
structure Cursor where
  rest : List Char
  line : Nat
  column : Nat

namespace Cursor

/-- The cursor at the front of a text. -/
def ofText (text : List Char) : Cursor := ⟨text, 0, 0⟩

/-- The cursor behind some characters. -/
def skip : Nat → Cursor → Cursor
  | 0, c => c
  | n + 1, ⟨x :: rest, line, column⟩ =>
      if isBreak x then skip n ⟨rest, line + 1, 0⟩ else skip n ⟨rest, line, column + 1⟩
  | _, c => c

/-- Whether a line begins here with a byte order mark. -/
def atOrderMark (c : Cursor) : Bool := c.column == 0 && c.rest.head? == some '\uFEFF'

/-- Whether a line begins here with a marker that stands alone. -/
def atMarker (c : Cursor) (marker : String) : Bool :=
  c.column == 0 && marker.toList.isPrefixOf c.rest && endsWord (c.rest.drop 3)

/-- Whether a document begins or ends here. -/
def atBoundary (c : Cursor) : Bool := c.atMarker "---" || c.atMarker "..."

end Cursor

end QubitMapper.Yaml
