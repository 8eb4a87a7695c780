import QubitMapper.Yaml.Basic
import QubitMapper.Yaml.Cursor

/-!
# YAML scalars

A scalar may run over several lines. The blanks around the end of a line are not part of it: a
single line end stands for a blank, and of several the first one is dropped.
-/

namespace QubitMapper.Yaml

/-! ## Line ends -/

/-- What the line ends between two words stand for. A separator in front is kept like the line ends
behind it. -/
def foldBreaks : List Char → List Char
  | ['\n'] => [' ']
  | '\n' :: more => more
  | breaks => breaks

/-- What the blanks and line ends between two words stand for. -/
def foldSpace (space : List Char) : List Char :=
  if space.any isBreak then foldBreaks (space.filter isBreak) else space

/-! ## Quoted scalars -/

/-- A scalar in single quotes behind its opening quote; two quotes stand for one. -/
def readSingle : Nat → List Char → Cursor → Option (List Char × Cursor)
  | 0, _, _ => none
  | fuel + 1, read, c =>
      if c.atBoundary then none
      else
        match c.rest with
        | [] => none
        | '\'' :: '\'' :: _ => readSingle fuel ('\'' :: read) (c.skip 2)
        | '\'' :: _ => some (read.reverse, c.skip 1)
        | x :: _ =>
            let space := c.rest.takeWhile isSpace
            if space.isEmpty then readSingle fuel (x :: read) (c.skip 1)
            else readSingle fuel ((foldSpace space).reverse ++ read) (c.skip space.length)

/-- The character that a one-letter escape stands for. -/
def escaped? : Char → Option Char
  | '0' => some '\x00'
  | 'a' => some '\x07'
  | 'b' => some '\x08'
  | 't' => some '\t'
  | '\t' => some '\t'
  | 'n' => some '\n'
  | 'v' => some '\x0b'
  | 'f' => some '\x0c'
  | 'r' => some '\r'
  | 'e' => some '\x1b'
  | ' ' => some ' '
  | '"' => some '"'
  | '/' => some '/'
  | '\\' => some '\\'
  | 'N' => some '\u0085'
  | '_' => some '\u00a0'
  | 'L' => some '\u2028'
  | 'P' => some '\u2029'
  | _ => none

/-- The number of hexadecimal digits behind an escape. -/
def hexLength? : Char → Option Nat
  | 'x' => some 2
  | 'u' => some 4
  | 'U' => some 8
  | _ => none

/-- The character with a number, if there is one. -/
def char? (n : Nat) : Option Char := if n.isValidChar then some (Char.ofNat n) else none

/-- The character that an escape stands for, and the length of the escape behind its backslash. -/
def readEscape : List Char → Option (Char × Nat)
  | [] => none
  | e :: rest =>
      match hexLength? e with
      | some n =>
          let digits := rest.take n
          if digits.length < n then none
          else ((readBase 16 digits).bind char?).map (·, n + 1)
      | none => (escaped? e).map (·, 1)

/-- A scalar in double quotes behind its opening quote. An escaped line end stands for nothing, and
the line ends behind it for themselves. -/
def readDouble : Nat → List Char → Cursor → Option (List Char × Cursor)
  | 0, _, _ => none
  | fuel + 1, read, c =>
      if c.atBoundary then none
      else
        match c.rest with
        | [] => none
        | '"' :: _ => some (read.reverse, c.skip 1)
        | '\\' :: rest =>
            if rest.head?.any isBreak then
              let space := (rest.drop 1).takeWhile isSpace
              readDouble fuel ((space.filter isBreak).reverse ++ read) (c.skip (space.length + 2))
            else
              match readEscape rest with
              | none => none
              | some (x, length) => readDouble fuel (x :: read) (c.skip (length + 1))
        | x :: _ =>
            let space := c.rest.takeWhile isSpace
            if space.isEmpty then readDouble fuel (x :: read) (c.skip 1)
            else readDouble fuel ((foldSpace space).reverse ++ read) (c.skip space.length)

/-! ## Plain scalars -/

/-- The characters that begin something other than a plain scalar. -/
def isIndicator (c : Char) : Bool := isFlowMark c || "-?:#&*!|>'\"%@`".toList.contains c

/-- Whether a plain scalar may begin here. A dash may begin one if no blank follows, outside
brackets also a question mark or a colon. -/
def startsPlain (inFlow : Bool) : List Char → Bool
  | [] => false
  | '-' :: rest => !rest.head?.any isGap
  | c :: rest =>
      if c == '?' || c == ':' then !inFlow && !endsWord rest else !isSpace c && !isIndicator c

/-- A word of a plain scalar, up to a blank, a colon with a blank behind it and, in brackets, a
character that belongs to them. There a colon in front of such a character is an error. -/
def takeWord (inFlow : Bool) : List Char → Option (List Char)
  | [] => some []
  | c :: rest =>
      if inFlow && c == ':' && rest.head?.any (fun d => isFlowMark d || d == '?') then none
      else if isSpace c || (c == ':' && endsWord rest) || (inFlow && isFlowMark c) then some []
      else (c :: ·) <$> takeWord inFlow rest

/-- Whether a tab stands in front of column `least` of a line, where indentation is made of blanks
only. -/
def hasEarlyTab (least column : Nat) : List Char → Bool
  | [] => false
  | c :: rest =>
      if isBreak c then hasEarlyTab least 0 rest
      else (c == '\t' && decide (column < least)) || hasEarlyTab least (column + 1) rest

/-- What was read of a plain scalar: its text, and whether it ended behind the end of a line. -/
structure PlainText where
  text : List Char := []
  brokeOff : Bool := false

/-- A plain scalar whose lines are indented by at least `least`, continued behind `space`. In
brackets indentation does not matter, except that tabs do not make it. -/
def readPlain (inFlow : Bool) (least : Nat) :
    Nat → PlainText → List Char → Cursor → Option (PlainText × Cursor)
  | 0, _, _, _ => none
  | fuel + 1, read, space, c =>
      if c.atBoundary || c.rest.head? == some '#' then some (read, c)
      else do
        let word ← takeWord inFlow c.rest
        let read := if word.isEmpty then read else ⟨read.text ++ foldSpace space ++ word, false⟩
        let c := c.skip word.length
        let space := c.rest.takeWhile isSpace
        if space.isEmpty then some (read, c)
        else if hasEarlyTab least 0 (space.dropWhile isGap) then none
        else
          let read := { read with brokeOff := space.any isBreak }
          let c := c.skip space.length
          if !inFlow && decide (c.column < least) then some (read, c)
          else readPlain inFlow least fuel read space c

end QubitMapper.Yaml
