import QubitMapper.Yaml.Scalar

/-!
# YAML tokens

The tokens of a text: scalars, the marks around and between nodes, and the marks that indentation
stands for. A node turns out to be a key when a colon follows it on the same line, no further than
1024 characters behind its beginning; the mark of a key is then put in front of it.
-/

namespace QubitMapper.Yaml

/-- A token of a YAML text. -/
inductive Token where
  | documentStart
  | documentEnd
  /-- The beginning of a sequence by indentation. -/
  | sequenceStart
  /-- The beginning of a mapping by indentation. -/
  | mappingStart
  /-- The end of a node made by indentation. -/
  | blockEnd
  /-- The dash of an item. -/
  | item
  | key
  | value
  | openBracket
  | closeBracket
  | openBrace
  | closeBrace
  | comma
  | scalar (text : String) (quoted : Bool)
  deriving DecidableEq, Repr

/-- A node that is a key if a colon follows. -/
structure KeyCandidate where
  /-- The number of tokens in front of it. -/
  position : Nat
  line : Nat
  column : Nat
  /-- Whether nothing but a key may stand there. -/
  required : Bool

/-- The tokens read so far, and what they leave open. -/
structure Lexer where
  cursor : Cursor
  tokens : Array Token := #[]
  /-- The possible key at the current depth of brackets. -/
  candidate : Option KeyCandidate := none
  /-- The possible keys at the depths around it, the innermost first. -/
  outer : List (Option KeyCandidate) := []
  /-- Whether a key may begin here. -/
  keysAllowed : Bool := true
  /-- The columns of the open nodes made by indentation, the innermost first. -/
  columns : List Nat := []

/-- A step of reading tokens; it fails where the text is no YAML. -/
abbrev Lex := StateT Lexer Option

namespace Lexer

/-- Whether brackets are open. -/
def inFlow (s : Lexer) : Bool := !s.outer.isEmpty

/-- The column from which on a line belongs to the innermost open node. -/
def least (s : Lexer) : Nat :=
  match s.columns with
  | [] => 0
  | column :: _ => column + 1

/-! ## Small steps -/

/-- A token put behind the others. -/
def emit (t : Token) : Lex Unit := modify fun s => { s with tokens := s.tokens.push t }

/-- The cursor moved behind some characters. -/
def advance (n : Nat) : Lex Unit := modify fun s => { s with cursor := s.cursor.skip n }

/-- Whether keys may begin from here on. -/
def allowKeys (allowed : Bool) : Lex Unit := modify ({ · with keysAllowed := allowed })

/-- A node opened by indentation, with its token at a position. Within brackets and inside the
innermost open node nothing is opened. -/
def openBlock (column position : Nat) (t : Token) : Lex Unit :=
  modify fun s =>
    if s.inFlow || decide (column < s.least) then s
    else { s with
      columns := column :: s.columns
      tokens := s.tokens.insertIdxIfInBounds position t }

/-- The nodes closed that a line indented less than their columns does not belong to. -/
def closeBlocks (column : Option Nat) : Lex Unit := do
  let s ← get
  unless s.inFlow do
    let (closed, columns) := s.columns.span fun start => column.all (· < start)
    set { s with
      columns
      tokens := s.tokens ++ Array.replicate closed.length Token.blockEnd }

/-- The possible key given up, unless it has to be one. -/
def dropCandidate : Lex Unit := do
  let s ← get
  if s.candidate.any (·.required) then failure
  set { s with candidate := none }

/-- The node that begins here noted as a possible key. -/
def noteCandidate : Lex Unit := do
  let s ← get
  if s.keysAllowed then
    dropCandidate
    let required := !s.inFlow && s.columns.head? == some s.cursor.column
    let candidate := ⟨s.tokens.size, s.cursor.line, s.cursor.column, required⟩
    modify ({ · with candidate := some candidate })

/-- Whether a possible key is too far back to be one. -/
def isStale (c : Cursor) (k : KeyCandidate) : Bool :=
  k.line < c.line || k.column + 1024 < c.column

/-- A possible key that is too far back given up, unless it has to be a key. Those around open
brackets wait until the brackets are closed. -/
def dropStale : Lex Unit := do
  let s ← get
  if s.candidate.any (isStale s.cursor) then dropCandidate

/-- The cursor moved to the next token, over blanks, comments and line ends, and over a byte order
mark at the front of a line, which takes up a column. Tabs count as blanks where no key may
begin. -/
def skipToToken : Nat → Lex Unit
  | 0 => return
  | fuel + 1 => do
      if (← get).cursor.atOrderMark then advance 1
      let s ← get
      let tabs := s.inFlow || !s.keysAllowed
      let blanks := s.cursor.rest.takeWhile fun c => c == ' ' || (tabs && c == '\t')
      advance blanks.length
      let rest := (← get).cursor.rest
      if rest.head? == some '#' then advance (rest.takeWhile (!isBreak ·)).length
      match (← get).cursor.rest with
      | c :: _ =>
          if isBreak c then
            advance 1
            unless s.inFlow do allowKeys true
            skipToToken fuel
      | [] => return

/-! ## Tokens -/

/-- A marker between documents. -/
def readMarker (t : Token) : Lex Unit := do
  closeBlocks none
  dropCandidate
  allowKeys false
  advance 3
  emit t

/-- An opening bracket or brace, which may begin a key. -/
def readOpening (t : Token) : Lex Unit := do
  noteCandidate
  modify fun s => { s with candidate := none, outer := s.candidate :: s.outer }
  allowKeys true
  advance 1
  emit t

/-- A closing bracket or brace. -/
def readClosing (t : Token) : Lex Unit := do
  dropCandidate
  modify fun s =>
    match s.outer with
    | [] => s
    | candidate :: outer => { s with candidate, outer }
  allowKeys false
  advance 1
  emit t

/-- A comma. -/
def readComma : Lex Unit := do
  dropCandidate
  allowKeys true
  advance 1
  emit .comma

/-- A mark that may open a node by indentation, where a key may begin. -/
def openHere (t : Token) : Lex Unit := do
  let s ← get
  unless s.inFlow do
    if !s.keysAllowed then failure
    openBlock s.cursor.column s.tokens.size t

/-- The dash of an item. -/
def readItem : Lex Unit := do
  openHere .sequenceStart
  dropCandidate
  allowKeys true
  advance 1
  emit .item

/-- The question mark of a key. -/
def readKey : Lex Unit := do
  openHere .mappingStart
  dropCandidate
  allowKeys (!(← get).inFlow)
  advance 1
  emit .key

/-- The colon of a value. -/
def readValue : Lex Unit := do
  match (← get).candidate with
  | some k =>
      modify fun s => { s with
        tokens := s.tokens.insertIdxIfInBounds k.position .key
        candidate := none }
      openBlock k.column k.position .mappingStart
      allowKeys false
  | none =>
      openHere .mappingStart
      allowKeys (!(← get).inFlow)
  advance 1
  emit .value

/-- A scalar in quotes. -/
def readQuoted (fuel : Nat) (double : Bool) : Lex Unit := do
  noteCandidate
  allowKeys false
  advance 1
  let c := (← get).cursor
  let (text, c) ← (if double then readDouble fuel [] c else readSingle fuel [] c : Option _)
  modify ({ · with cursor := c })
  emit (.scalar (String.ofList text) true)

/-- A plain scalar. A key may begin behind it if it ended with a line. -/
def readPlain (fuel : Nat) : Lex Unit := do
  noteCandidate
  allowKeys false
  let s ← get
  let (read, c) ← (Yaml.readPlain s.inFlow s.least fuel {} [] s.cursor : Option _)
  modify ({ · with cursor := c })
  emit (.scalar (String.ofList read.text) false)
  if read.brokeOff then allowKeys true

/-- The next token, and whether there is one. No step of it goes over more than `fuel`
characters. -/
def next (fuel : Nat) : Lex Bool := do
  skipToToken fuel
  dropStale
  closeBlocks (some (← get).cursor.column)
  let s ← get
  let endsAlone := s.inFlow || endsWord (s.cursor.rest.drop 1)
  if s.cursor.atMarker "---" then readMarker .documentStart
  else if s.cursor.atMarker "..." then readMarker .documentEnd
  else
    match s.cursor.rest with
    | [] =>
        closeBlocks none
        dropCandidate
        return false
    | '[' :: _ => readOpening .openBracket
    | '\x7b' :: _ => readOpening .openBrace
    | ']' :: _ => readClosing .closeBracket
    | '\x7d' :: _ => readClosing .closeBrace
    | ',' :: _ => readComma
    | '\'' :: _ => readQuoted fuel false
    | '"' :: _ => readQuoted fuel true
    | c :: rest =>
        if c == '-' && endsWord rest then readItem
        else if c == '?' && endsAlone then readKey
        else if c == ':' && endsAlone then readValue
        else if startsPlain s.inFlow s.cursor.rest then readPlain fuel
        else failure
  return true

/-- All tokens of a text shorter than `fuel`. Each takes at least one character. -/
def all (fuel : Nat) : Nat → Lex Unit
  | 0 => return
  | count + 1 => do
      if ← next fuel then all fuel count

end Lexer

/-- The tokens of a text; nothing if it is no YAML. -/
def tokens (text : List Char) : Option (List Token) :=
  if !text.all isAllowed then none
  else
    let text := unifyLineEnds text
    let fuel := text.length + 1
    ((Lexer.all fuel fuel).run { cursor := Cursor.ofText text }).map (·.2.tokens.toList)

end QubitMapper.Yaml
