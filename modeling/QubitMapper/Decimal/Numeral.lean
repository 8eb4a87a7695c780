import QubitMapper.Text.Unsigned

/-!
# Decimal numerals

A numeral is the written form of a number: a sign, whole digits, the digits after the point and a
power of ten. Two rules give it a floating-point value. `nearest` rounds the exact value once.
`scaled` keeps the leading digits that fit into 64 bits and multiplies or divides them by a power
of ten, which is exact enough for short numerals and cheap for long ones.
-/

namespace QubitMapper.Decimal

/-- A written number: `-12.050e-7` has the whole part 12, the fraction `050` and the exponent -7. -/
structure Numeral where
  negative : Bool
  whole : Nat
  fraction : List Char
  exponent : Option Int
  deriving DecidableEq, Repr

namespace Numeral

/-- The numeral of a natural number. -/
def ofNat (n : Nat) : Numeral := ⟨false, n, [], none⟩

/-- The numeral of an integer. -/
def ofInt (n : Int) : Numeral := ⟨n < 0, n.natAbs, [], none⟩

/-- The characters of a numeral. A positive exponent is written with its sign. -/
def render (n : Numeral) : List Char :=
  (if n.negative then ['-'] else []) ++ Nat.toDigits 10 n.whole ++
    (if n.fraction.isEmpty then [] else '.' :: n.fraction) ++
    match n.exponent with
    | none => []
    | some e => 'e' :: (if e < 0 then '-' else '+') :: Nat.toDigits 10 e.natAbs

/-- The value of a numeral that is a plain natural number: no sign, point or exponent. -/
def toNat? (n : Numeral) : Option Nat :=
  if !n.negative && n.fraction.isEmpty && n.exponent.isNone then some n.whole else none

/-! ## The value rounded once -/

/-- The float nearest to the exact value of the numeral; infinite when that is out of range. -/
def nearest (n : Numeral) : Float :=
  let digits := Nat.ofDigitChars 10 n.fraction n.whole
  let scale : Int := n.exponent.getD 0 - n.fraction.length
  let leading : Int := (Nat.toDigits 10 digits).length + scale
  let size : Float :=
    if digits = 0 ∨ leading < -330 then 0.0
    else if leading > 310 then 1.0 / 0.0
    else Float.ofScientific digits (scale < 0) scale.natAbs
  if n.negative then -size else size

/-! ## The value from a 64-bit significand -/

/-- The longest leading part of a number that fits into 64 bits, and how many digits were cut. -/
def clip (n : Nat) : Nat × Nat :=
  if n < Text.limit64 then (n, 0)
  else
    let (kept, cut) := clip (n / 10)
    (kept, cut + 1)
  termination_by n
  decreasing_by simp only [Text.limit64, UInt64.size] at *; omega

/-- A number continued by decimal digits while it fits into 64 bits, and how many were used. -/
def extend (n : Nat) : List Char → Nat × Nat
  | [] => (n, 0)
  | c :: rest =>
      let next := 10 * n + (c.toNat - '0'.toNat)
      if next < Text.limit64 then
        let (kept, used) := extend next rest
        (kept, used + 1)
      else (n, 0)

/-- The largest power of ten that a float can hold is the 308th. -/
def greatestPower : Nat := 308

/-- The float nearest to the `n`-th power of ten. -/
def powerOfTen (n : Nat) : Float := Float.ofScientific 1 false n

/-- A float divided by the `n`-th power of ten, in steps that a float can hold. -/
def scaleDown (x : Float) (n : Nat) : Float :=
  if n ≤ greatestPower then x / powerOfTen n
  else if x == 0.0 then x
  else scaleDown (x / powerOfTen greatestPower) (n - greatestPower)
  termination_by n
  decreasing_by simp only [greatestPower] at *; omega

/-- A float multiplied by the `n`-th power of ten, unless the product is out of range. -/
def scaleUp (x : Float) (n : Nat) : Option Float :=
  if n ≤ greatestPower then
    let y := x * powerOfTen n
    if y.isInf then none else some y
  else if x == 0.0 then some x
  else none

/-- The value of a numeral from its 64-bit significand; nothing when it is out of range. -/
def scaled (n : Numeral) : Option Float :=
  let (kept, cut) := clip n.whole
  let (significand, used) := extend kept n.fraction
  let scale : Int := n.exponent.getD 0 + cut - used
  let x := significand.toUInt64.toFloat
  let size := if scale < 0 then some (scaleDown x scale.natAbs) else scaleUp x scale.natAbs
  size.map fun y => if n.negative then -y else y

end Numeral

end QubitMapper.Decimal
