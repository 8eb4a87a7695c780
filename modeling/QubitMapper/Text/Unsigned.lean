/-!
# Unsigned decimal numerals

Reading an unsigned number from a text: an optional plus sign and at least one decimal digit,
leading zeros allowed, the value below a given limit.

## Main results

* `readUnsigned_repr`: a number below the limit is read back from its decimal digits.
-/

namespace QubitMapper.Text

/-- The number of values of a 32-bit unsigned integer. -/
def limit32 : Nat := UInt32.size

/-- The number of values of a 64-bit unsigned integer. -/
def limit64 : Nat := UInt64.size

/-- The value of a nonempty run of decimal digits. -/
def readDigits (cs : List Char) : Option Nat :=
  if !cs.isEmpty && cs.all Char.isDigit then some (Nat.ofDigitChars 10 cs 0) else none

/-- The value of an unsigned numeral, if it is below `limit`. -/
def readUnsigned (limit : Nat) (cs : List Char) : Option Nat :=
  let digits := match cs with
    | '+' :: rest => rest
    | _ => cs
  (readDigits digits).filter (· < limit)

/-! ## Reading back what was printed -/

theorem readDigits_toDigits (n : Nat) : readDigits (Nat.toDigits 10 n) = some n := by
  have hne : (Nat.toDigits 10 n).isEmpty = false := by
    simp [List.isEmpty_eq_false_iff, Nat.toDigits_ne_nil]
  have hall : (Nat.toDigits 10 n).all Char.isDigit = true := by
    rw [List.all_eq_true]
    intro c hc
    exact Nat.isDigit_of_mem_toDigits (by decide) (by decide) hc
  simp [readDigits, hne, hall, Nat.ofDigitChars_toDigits (b := 10) (n := n) (by decide) (by decide)]

/-- A number below the limit is read back from its decimal digits. -/
theorem readUnsigned_repr {limit n : Nat} (h : n < limit) :
    readUnsigned limit (Nat.repr n).toList = some n := by
  have hplus : ∀ r, Nat.toDigits 10 n ≠ '+' :: r := by
    intro r hr
    have : Char.isDigit '+' = true :=
      Nat.isDigit_of_mem_toDigits (b := 10) (n := n) (by decide) (by decide) (by simp [hr])
    exact absurd this (by decide)
  have hsign : readUnsigned limit (Nat.toDigits 10 n) =
      (readDigits (Nat.toDigits 10 n)).filter (· < limit) := by
    unfold readUnsigned
    split
    · exact absurd ‹_› (hplus _)
    · rfl
  rw [Nat.repr, String.toList_ofList, hsign, readDigits_toDigits]
  simp [Option.filter, h]

end QubitMapper.Text
