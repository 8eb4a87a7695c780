import QubitMapper.Json.Basic

/-!
# Reading JSON

The strict grammar: one value, blanks only between tokens, no comments, no comma before a closing
bracket, no raw control characters in strings. Each reader takes the rest of the text and returns
what it read with what is left.
-/

namespace QubitMapper.Json

/-- The characters that may stand between tokens. -/
def isSpace (c : Char) : Bool := c == ' ' || c == '\t' || c == '\n' || c == '\r'

/-- A text without the blanks at its front. -/
def skipSpace (cs : List Char) : List Char := cs.dropWhile isSpace

/-! ## Strings -/

/-- The value of a hexadecimal digit. -/
def hexDigit? (c : Char) : Option Nat :=
  if '0' ≤ c ∧ c ≤ '9' then some (c.toNat - '0'.toNat)
  else if 'a' ≤ c ∧ c ≤ 'f' then some (c.toNat - 'a'.toNat + 10)
  else if 'A' ≤ c ∧ c ≤ 'F' then some (c.toNat - 'A'.toNat + 10)
  else none

/-- The number written by four hexadecimal digits. -/
def hexQuad? (a b c d : Char) : Option Nat := do
  let a ← hexDigit? a
  let b ← hexDigit? b
  let c ← hexDigit? c
  let d ← hexDigit? d
  some (((a * 16 + b) * 16 + c) * 16 + d)

/-- The character that a one-letter escape stands for. -/
def escaped? : Char → Option Char
  | '"' => some '"'
  | '\\' => some '\\'
  | '/' => some '/'
  | 'b' => some '\x08'
  | 'f' => some '\x0c'
  | 'n' => some '\n'
  | 'r' => some '\r'
  | 't' => some '\t'
  | _ => none

/-- A piece of a string literal: a character, or a unit given by its number. -/
inductive Piece where
  | char (c : Char)
  | unit (n : Nat)

/-- The pieces of a string literal up to its closing quote. -/
def readPieces : List Char → Option (List Piece × List Char)
  | '"' :: rest => some ([], rest)
  | '\\' :: 'u' :: a :: b :: c :: d :: rest => do
      let n ← hexQuad? a b c d
      let (pieces, rest) ← readPieces rest
      some (.unit n :: pieces, rest)
  | '\\' :: e :: rest => do
      let c ← escaped? e
      let (pieces, rest) ← readPieces rest
      some (.char c :: pieces, rest)
  | c :: rest =>
      if c.toNat < 0x20 || c == '\\' then none
      else do
        let (pieces, rest) ← readPieces rest
        some (.char c :: pieces, rest)
  | [] => none

/-- The text of the pieces. A unit from 0xD800 to 0xDBFF needs a unit from 0xDC00 to 0xDFFF right
behind it, and such a unit needs the former in front. -/
def joinPieces : List Piece → Option (List Char)
  | [] => some []
  | .char c :: rest => (joinPieces rest).map (c :: ·)
  | .unit high :: rest =>
      if 0xD800 ≤ high ∧ high < 0xDC00 then
        match rest with
        | .unit low :: rest =>
            if 0xDC00 ≤ low ∧ low < 0xE000 then
              (joinPieces rest).map
                (Char.ofNat (0x10000 + (high - 0xD800) * 0x400 + (low - 0xDC00)) :: ·)
            else none
        | _ => none
      else if 0xDC00 ≤ high ∧ high < 0xE000 then none
      else (joinPieces rest).map (Char.ofNat high :: ·)

/-- A string literal behind its opening quote. -/
def readString (cs : List Char) : Option (Option String × List Char) :=
  (readPieces cs).map fun (pieces, rest) => ((joinPieces pieces).map String.ofList, rest)

/-! ## Numbers -/

/-- The fraction of a number: nothing, or a point and at least one digit. -/
def readFraction : List Char → Option (List Char × List Char)
  | '.' :: rest =>
      let digits := rest.takeWhile Char.isDigit
      if digits.isEmpty then none else some (digits, rest.dropWhile Char.isDigit)
  | cs => some ([], cs)

/-- The digits of an exponent, at least one. -/
def readExponentDigits (negative : Bool) (cs : List Char) : Option (Option Int × List Char) :=
  let digits := cs.takeWhile Char.isDigit
  if digits.isEmpty then none
  else
    let size : Int := Nat.ofDigitChars 10 digits 0
    some (some (if negative then -size else size), cs.dropWhile Char.isDigit)

/-- The exponent of a number: nothing, or the letter `e`, a sign if any, and digits. -/
def readExponent : List Char → Option (Option Int × List Char)
  | [] => some (none, [])
  | e :: rest =>
      if e == 'e' || e == 'E' then
        match rest with
        | '-' :: rest => readExponentDigits true rest
        | '+' :: rest => readExponentDigits false rest
        | _ => readExponentDigits false rest
      else some (none, e :: rest)

/-- A number behind its sign. The whole part has no leading zero. -/
def readNumber (negative : Bool) (cs : List Char) : Option (Json × List Char) := do
  let digits := cs.takeWhile Char.isDigit
  let rest := cs.dropWhile Char.isDigit
  if digits.isEmpty || (digits.length > 1 && digits.head? == some '0') then none
  else
    let (fraction, rest) ← readFraction rest
    let (exponent, rest) ← readExponent rest
    some (.number ⟨negative, Nat.ofDigitChars 10 digits 0, fraction, exponent⟩, rest)

/-! ## Values -/

/-- A word that stands for a value. -/
def readWord (word : String) (value : Json) (cs : List Char) : Option (Json × List Char) :=
  if word.toList.isPrefixOf cs then some (value, cs.drop word.length) else none

/-- The key of a member, with the colon behind it. -/
def readKey (cs : List Char) : Option (Option String × List Char) :=
  match skipSpace cs with
  | '"' :: rest => do
      let (key, rest) ← readString rest
      match skipSpace rest with
      | ':' :: rest => some (key, rest)
      | _ => none
  | _ => none

mutual

/-- A value. Every bracket and every separator takes a character and at most two units of fuel, so
twice the length of the text is enough. -/
def readValue : Nat → List Char → Option (Json × List Char)
  | 0, _ => none
  | fuel + 1, cs =>
      match skipSpace cs with
      | [] => none
      | '"' :: rest => (readString rest).map fun (s, rest) => (.string s, rest)
      | '[' :: rest =>
          match skipSpace rest with
          | ']' :: rest => some (.array [], rest)
          | _ => (readItems fuel rest).map fun (items, rest) => (.array items, rest)
      | '{' :: rest =>
          match skipSpace rest with
          | '}' :: rest => some (.object [], rest)
          | _ => (readMembers fuel rest).map fun (members, rest) => (.object members, rest)
      | '-' :: rest => readNumber true rest
      | c :: rest =>
          if c.isDigit then readNumber false (c :: rest)
          else (readWord "null" .null (c :: rest)).or
            ((readWord "true" (.bool true) (c :: rest)).or
              (readWord "false" (.bool false) (c :: rest)))

/-- The items of an array that is not empty, up to its closing bracket. -/
def readItems : Nat → List Char → Option (List Json × List Char)
  | 0, _ => none
  | fuel + 1, cs => do
      let (item, rest) ← readValue fuel cs
      match skipSpace rest with
      | ',' :: rest =>
          let (items, rest) ← readItems fuel rest
          some (item :: items, rest)
      | ']' :: rest => some ([item], rest)
      | _ => none

/-- The members of an object that is not empty, up to its closing brace. -/
def readMembers : Nat → List Char → Option (List (Option String × Json) × List Char)
  | 0, _ => none
  | fuel + 1, cs => do
      let (key, rest) ← readKey cs
      let (value, rest) ← readValue fuel rest
      match skipSpace rest with
      | ',' :: rest =>
          let (members, rest) ← readMembers fuel rest
          some ((key, value) :: members, rest)
      | '}' :: rest => some ([(key, value)], rest)
      | _ => none

end

/-- The document that a text consists of. -/
def parse (s : String) : Option Json := do
  let cs := s.toList
  let (value, rest) ← readValue (2 * cs.length + 1) cs
  if (skipSpace rest).isEmpty then some value else none

end QubitMapper.Json
