import QubitMapper.Yaml.Token

/-!
# Reading YAML

Nodes are made of tokens: a scalar, a sequence or a mapping, by indentation or in brackets. A text
holds one document, which may have no node at all.
-/

namespace QubitMapper.Yaml

/-- Whether the node of a key or a value by indentation is left out, as the next token shows. -/
def lacksBlockNode : List Token → Bool
  | .key :: _ | .value :: _ | .blockEnd :: _ => true
  | _ => false

/-- Whether the node of an item by indentation is left out. -/
def lacksItem : List Token → Bool
  | .item :: _ | .blockEnd :: _ => true
  | _ => false

/-- Whether the node of a key or a value in brackets is left out. -/
def lacksFlowNode (closing : Token) : List Token → Bool
  | t :: _ => t == .value || t == .comma || t == closing
  | [] => false

/-- Whether the node behind a colon in brackets is left out. -/
def lacksFlowValue (closing : Token) : List Token → Bool
  | t :: _ => t == .comma || t == closing
  | [] => false

mutual

/-- A node. In a block it may be made by indentation, and behind a key its items need not be
indented. -/
def readNode (inBlock behindKey : Bool) : Nat → List Token → Option (Yaml × List Token)
  | 0, _ => none
  | fuel + 1, tokens =>
      match tokens with
      | .scalar text quoted :: rest => some (.scalar text quoted, rest)
      | .openBracket :: rest =>
          (readFlowItems fuel rest).map fun (items, rest) => (.sequence items, rest)
      | .openBrace :: rest =>
          (readFlowEntries fuel rest).map fun (entries, rest) => (.mapping entries, rest)
      | .sequenceStart :: rest =>
          if inBlock then (readItems fuel rest).map fun (items, rest) => (.sequence items, rest)
          else none
      | .mappingStart :: rest =>
          if inBlock then
            (readEntries fuel rest).map fun (entries, rest) => (.mapping entries, rest)
          else none
      | .item :: _ =>
          if behindKey then
            (readBareItems fuel tokens).map fun (items, rest) => (.sequence items, rest)
          else none
      | _ => none

/-- The items of an indented sequence. -/
def readItems : Nat → List Token → Option (List Yaml × List Token)
  | 0, _ => none
  | fuel + 1, tokens =>
      match tokens with
      | .item :: rest => do
          let (item, rest) ← if lacksItem rest then some (nothing, rest)
            else readNode true false fuel rest
          let (items, rest) ← readItems fuel rest
          some (item :: items, rest)
      | .blockEnd :: rest => some ([], rest)
      | _ => none

/-- The items of a sequence that is not indented further than the key in front of it. -/
def readBareItems : Nat → List Token → Option (List Yaml × List Token)
  | 0, _ => none
  | fuel + 1, tokens =>
      match tokens with
      | .item :: rest => do
          let (item, rest) ← if lacksItem rest || lacksBlockNode rest then some (nothing, rest)
            else readNode true false fuel rest
          let (items, rest) ← readBareItems fuel rest
          some (item :: items, rest)
      | _ => some ([], tokens)

/-- The entries of an indented mapping. -/
def readEntries : Nat → List Token → Option (List (Yaml × Yaml) × List Token)
  | 0, _ => none
  | fuel + 1, tokens =>
      match tokens with
      | .key :: rest => do
          let (key, rest) ← if lacksBlockNode rest then some (nothing, rest)
            else readNode true true fuel rest
          let (value, rest) ← match rest with
            | .value :: rest =>
                if lacksBlockNode rest then some (nothing, rest) else readNode true true fuel rest
            | _ => some (nothing, rest)
          let (entries, rest) ← readEntries fuel rest
          some ((key, value) :: entries, rest)
      | .blockEnd :: rest => some ([], rest)
      | _ => none

/-- The value behind a key in brackets. -/
def readFlowValue (closing : Token) : Nat → List Token → Option (Yaml × List Token)
  | 0, _ => none
  | fuel + 1, tokens =>
      match tokens with
      | .value :: rest =>
          if lacksFlowValue closing rest then some (nothing, rest)
          else readNode false false fuel rest
      | _ => some (nothing, tokens)

/-- The items of a sequence in brackets. An item with a key is a mapping of one entry. A key without
a node swallows the token behind it. -/
def readFlowItems : Nat → List Token → Option (List Yaml × List Token)
  | 0, _ => none
  | fuel + 1, tokens =>
      match tokens with
      | .closeBracket :: rest => some ([], rest)
      | _ => do
          let (item, rest) ← match tokens with
            | .key :: rest => do
                let (key, rest) ← if lacksFlowNode .closeBracket rest then
                    some (nothing, rest.drop 1)
                  else readNode false false fuel rest
                let (value, rest) ← readFlowValue .closeBracket fuel rest
                some (.mapping [(key, value)], rest)
            | _ => readNode false false fuel tokens
          match rest with
          | .comma :: rest => do
              let (items, rest) ← readFlowItems fuel rest
              some (item :: items, rest)
          | .closeBracket :: rest => some ([item], rest)
          | _ => none

/-- The entries of a mapping in braces. A node without a colon is a key without a value. -/
def readFlowEntries : Nat → List Token → Option (List (Yaml × Yaml) × List Token)
  | 0, _ => none
  | fuel + 1, tokens =>
      match tokens with
      | .closeBrace :: rest => some ([], rest)
      | _ => do
          let (entry, rest) ← match tokens with
            | .key :: rest => do
                let (key, rest) ← if lacksFlowNode .closeBrace rest then some (nothing, rest)
                  else readNode false false fuel rest
                let (value, rest) ← readFlowValue .closeBrace fuel rest
                some ((key, value), rest)
            | _ => do
                let (key, rest) ← readNode false false fuel tokens
                some ((key, nothing), rest)
          match rest with
          | .comma :: rest => do
              let (entries, rest) ← readFlowEntries fuel rest
              some (entry :: entries, rest)
          | .closeBrace :: rest => some ([entry], rest)
          | _ => none

end

/-- The node of a document, which a marker may begin. -/
def readDocument (tokens : List Token) : Option (Yaml × List Token) :=
  let fuel := 2 * tokens.length + 4
  match tokens with
  | [] => some (nothing, [])
  | .documentStart :: rest =>
      match rest with
      | [] | .documentStart :: _ | .documentEnd :: _ => some (nothing, rest)
      | _ => readNode true false fuel rest
  | _ => readNode true false fuel tokens

/-- The only document of a text. -/
def parse (text : String) : Option Yaml := do
  let tokens ← tokens text.toList
  let (y, rest) ← readDocument tokens
  if rest.all (· == .documentEnd) then some y else none

end QubitMapper.Yaml
