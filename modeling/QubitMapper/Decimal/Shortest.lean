import QubitMapper.Decimal.Numeral

/-!
# The shortest digits of a float

A finite float other than zero is `m · 2 ^ q`. The reals that round to it form an interval around
it. Its *shortest decimal* is the multiple `c · 10 ^ k` in that interval with the largest `k`; of
two such multiples it is the nearer one. A `Layout` says which one it is when both are equally near,
and how the digits are written.
-/

namespace QubitMapper.Decimal

/-- The size of a finite float, `significand · 2 ^ exponent`, and whether the float below it is
only half as far away as the float above it. -/
structure Binary where
  significand : Nat
  exponent : Int
  narrowBelow : Bool
  deriving DecidableEq, Repr

/-- The size of a float, taken from its bits; the sign is left out. -/
def Binary.ofFloat (x : Float) : Binary :=
  let bits : Nat := x.toBits.toNat
  let stored : Nat := bits / Nat.pow 2 52 % Nat.pow 2 11
  let low : Nat := bits % Nat.pow 2 52
  if stored = 0 then ⟨low, -1074, false⟩
  else ⟨low + Nat.pow 2 52, (stored : Int) - 1075, decide (low = 0 ∧ 1 < stored)⟩

/-- Whether the sign bit of a float is set. -/
def signBit (x : Float) : Bool := decide (Nat.pow 2 63 ≤ x.toBits.toNat)

/-- A decimal `coefficient · 10 ^ scale`. -/
structure Scaled where
  coefficient : Nat
  scale : Int
  deriving DecidableEq, Repr

/-- The interval of reals that round to a float. The bounds and the float itself are multiples of
`unit / parts`; the bounds belong to the interval when `closed` holds. -/
structure Rounding where
  below : Nat
  centre : Nat
  above : Nat
  unit : Nat
  parts : Nat
  closed : Bool

/-- The reals that round to `b`. -/
def Binary.rounding (b : Binary) : Rounding where
  below := 4 * b.significand - if b.narrowBelow then 1 else 2
  centre := 4 * b.significand
  above := 4 * b.significand + 2
  unit := Nat.pow 2 (b.exponent - 2).toNat
  parts := Nat.pow 2 (2 - b.exponent).toNat
  closed := b.significand % 2 == 0

/-- Which of two neighbouring multiples a float halfway between them is rounded to. -/
inductive Tie where
  | even
  | up
  deriving DecidableEq, Repr

/-- Whether the lower one of two neighbours is taken. -/
def Tie.takesLower (low : Nat) : Tie → Bool
  | even => low % 2 == 0
  | up => false

namespace Rounding

/-- A bound of the interval over a common denominator with the multiples of `10 ^ scale`. -/
private def weigh (r : Rounding) (scale : Int) (bound : Nat) : Nat :=
  bound * r.unit * Nat.pow 10 (-scale).toNat

/-- The step between multiples of `10 ^ scale` over the same denominator. -/
private def step (r : Rounding) (scale : Int) : Nat := r.parts * Nat.pow 10 scale.toNat

/-- Whether `coefficient · 10 ^ scale` rounds to the float. -/
def holds (r : Rounding) (scale : Int) (coefficient : Nat) : Bool :=
  let point := coefficient * r.step scale
  if r.closed then decide (r.weigh scale r.below ≤ point ∧ point ≤ r.weigh scale r.above)
  else decide (r.weigh scale r.below < point ∧ point < r.weigh scale r.above)

/-- The multiple of `10 ^ scale` that rounds to the float and is nearest to it, if there is one.
Only the two neighbours of the float can be that multiple. -/
def nearestMultiple (r : Rounding) (tie : Tie) (scale : Int) : Option Nat :=
  let step := r.step scale
  let centre := r.weigh scale r.centre
  let low := centre / step
  match r.holds scale low, r.holds scale (low + 1) with
  | false, false => none
  | true, false => some low
  | false, true => some (low + 1)
  | true, true =>
      let twice := 2 * centre
      let middle := (2 * low + 1) * step
      if twice < middle ∨ (twice = middle ∧ tie.takesLower low) then some low
      else some (low + 1)

/-- The first scale, going down from `scale` at most `fuel` times, with a multiple that rounds to
the float. -/
def search (r : Rounding) (tie : Tie) : Nat → Int → Scaled
  | 0, scale => ⟨r.weigh scale r.centre / r.step scale, scale⟩
  | fuel + 1, scale =>
      match r.nearestMultiple tie scale with
      | some c => ⟨c, scale⟩
      | none => r.search tie fuel (scale - 1)

/-- A scale above every multiple that can round to the float. -/
def topScale (r : Rounding) : Int :=
  let size := r.centre * r.unit
  if r.parts ≤ size then (Nat.toDigits 10 (size / r.parts)).length + 1
  else 2 - ((Nat.toDigits 10 (r.parts / size)).length : Int)

end Rounding

/-- The shortest decimal that rounds to the size of a finite float. Twenty scales are enough,
because 17 digits tell any two floats apart. -/
def shortest (tie : Tie) (x : Float) : Scaled :=
  let b := Binary.ofFloat x
  if b.significand = 0 then ⟨0, 0⟩
  else
    let r := b.rounding
    r.search tie 20 r.topScale

/-! ## Writing the digits -/

/-- How the digits of a float are written. -/
structure Layout where
  /-- The powers of ten of the first digit that are written without an exponent. -/
  positional : Int → Bool
  /-- Whether a whole number keeps a point and a zero after it. -/
  keepsPoint : Bool
  /-- Which of two equally near decimals is written. -/
  tie : Tie

/-- The numeral of a decimal in a layout. -/
def Layout.numeral (l : Layout) (negative : Bool) (d : Scaled) : Numeral :=
  let digits := Nat.toDigits 10 d.coefficient
  let point : Int := digits.length + d.scale
  if l.positional (point - 1) then
    if point ≤ 0 then ⟨negative, 0, List.replicate (-point).toNat '0' ++ digits, none⟩
    else if 0 ≤ d.scale then
      ⟨negative, d.coefficient * Nat.pow 10 d.scale.toNat, if l.keepsPoint then ['0'] else [], none⟩
    else
      ⟨negative, Nat.ofDigitChars 10 (digits.take point.toNat) 0, digits.drop point.toNat, none⟩
  else
    ⟨negative, Nat.ofDigitChars 10 (digits.take 1) 0, digits.drop 1, some (point - 1)⟩

/-- The numeral of a finite float in a layout. -/
def Layout.ofFloat (l : Layout) (x : Float) : Numeral := l.numeral (signBit x) (shortest l.tie x)

/-- Numbers in data have a point or an exponent; an exponent is used below `1e-5` and from
`1e16`. Ties go to the even decimal. -/
def dataLayout : Layout := ⟨fun e => decide (-5 ≤ e ∧ e < 16), true, .even⟩

/-- Numbers in messages never have an exponent, and whole numbers have no point. Ties go away from
zero. -/
def messageLayout : Layout := ⟨fun _ => true, false, .up⟩

/-- The text of a float in a message. -/
def messageText (x : Float) : String :=
  if x.isNaN then "NaN"
  else if x.isInf then if signBit x then "-inf" else "inf"
  else String.ofList (messageLayout.ofFloat x).render

end QubitMapper.Decimal
