import QubitMapper.Decimal.Numeral

/-!
# Reading floats

The free form of a float in settings: a sign if any, digits with a point anywhere among them, an
exponent if any; or a word for infinity or for no number, in any case of letters.
-/

namespace QubitMapper.Decimal

/-- A sign, if there is one, and the text behind it. -/
def splitSign : List Char → Bool × List Char
  | '-' :: rest => (true, rest)
  | '+' :: rest => (false, rest)
  | cs => (false, cs)

/-- A signed run of decimal digits. -/
def readSigned (cs : List Char) : Option Int :=
  let (negative, digits) := splitSign cs
  (Text.readDigits digits).map fun n => if negative then -(n : Int) else n

/-- The numeral behind a sign. -/
def readUnsignedNumeral (negative : Bool) (cs : List Char) : Option Numeral :=
  let whole := cs.takeWhile Char.isDigit
  let rest := cs.dropWhile Char.isDigit
  let (fraction, rest) := match rest with
    | '.' :: rest => (rest.takeWhile Char.isDigit, rest.dropWhile Char.isDigit)
    | _ => ([], rest)
  if whole.isEmpty && fraction.isEmpty then none
  else
    let numeral := fun exponent => ⟨negative, Nat.ofDigitChars 10 whole 0, fraction, exponent⟩
    match rest with
    | [] => some (numeral none)
    | e :: rest => if e.toLower = 'e' then (readSigned rest).map (numeral ∘ some) else none

/-- The float that a text stands for. -/
def readFloat (cs : List Char) : Option Float :=
  let (negative, rest) := splitSign cs
  let word := String.ofList (rest.map Char.toLower)
  let infinity : Float := 1.0 / 0.0
  if word = "inf" ∨ word = "infinity" then some (if negative then -infinity else infinity)
  else if word = "nan" then some (0.0 / 0.0)
  else (readUnsignedNumeral negative rest).map Numeral.nearest

end QubitMapper.Decimal
