/-!
# Blank characters

Texts are read as lists of characters. A character is *blank* when it has the Unicode property
`White_Space`; trimming removes blanks from the two ends of a text, and the words of a text are
its maximal runs of other characters.

## Main results

* `trim_trim`: trimming twice is trimming once.
-/

namespace QubitMapper.Text

/-- The code points with the property `White_Space`, in ascending order. -/
def blankCodes : List Nat :=
  [0x9, 0xA, 0xB, 0xC, 0xD, 0x20, 0x85, 0xA0, 0x1680, 0x2000, 0x2001, 0x2002, 0x2003, 0x2004,
    0x2005, 0x2006, 0x2007, 0x2008, 0x2009, 0x200A, 0x2028, 0x2029, 0x202F, 0x205F, 0x3000]

/-- Whether a character has the property `White_Space`. -/
def isBlank (c : Char) : Bool := blankCodes.contains c.toNat

/-- Every character that core calls whitespace is blank. -/
theorem isBlank_of_isWhitespace {c : Char} (h : c.isWhitespace = true) : isBlank c = true := by
  simp only [Char.isWhitespace, Bool.or_eq_true, decide_eq_true_eq] at h
  rcases h with ((h | h) | h) | h <;> subst h <;> decide

/-- A text without the blanks at its front. -/
def trimStart (cs : List Char) : List Char := cs.dropWhile isBlank

/-- A text without the blanks at its back. -/
def trimEnd (cs : List Char) : List Char := (cs.reverse.dropWhile isBlank).reverse

/-- A text without the blanks at its two ends. -/
def trim (cs : List Char) : List Char := trimEnd (trimStart cs)

/-- The maximal runs of characters that are not blank, in order. -/
def words (cs : List Char) : List (List Char) := (cs.splitOnP isBlank).filter (!·.isEmpty)

/-! ## Trimming once is enough -/

private theorem dropWhile_of_head {cs : List Char}
    (h : ∀ c r, cs = c :: r → isBlank c = false) : cs.dropWhile isBlank = cs := by
  cases cs with
  | nil => rfl
  | cons c r => simp [h c r rfl]

private theorem head_dropWhile {cs : List Char} {c : Char} {r : List Char}
    (h : cs.dropWhile isBlank = c :: r) : isBlank c = false := by
  induction cs with
  | nil => simp at h
  | cons d s ih =>
      rw [List.dropWhile_cons] at h
      split at h
      · exact ih h
      · rename_i hd
        cases h
        simpa using hd

theorem trimStart_trimStart (cs : List Char) : trimStart (trimStart cs) = trimStart cs :=
  dropWhile_of_head fun _ _ h => head_dropWhile h

theorem trimEnd_trimEnd (cs : List Char) : trimEnd (trimEnd cs) = trimEnd cs := by
  have h := trimStart_trimStart cs.reverse
  simp only [trimStart] at h
  simp [trimEnd, h]

/-- What is left at the front of a text does not change when its back is trimmed. -/
theorem trimStart_trimEnd {cs : List Char} (h : trimStart cs = cs) :
    trimStart (trimEnd cs) = trimEnd cs := by
  apply dropWhile_of_head
  intro c r hcr
  have hsuffix : (cs.reverse.dropWhile isBlank) <:+ cs.reverse := List.dropWhile_suffix _
  have hprefix : trimEnd cs <+: cs := by
    rw [← List.reverse_suffix]
    simpa [trimEnd] using hsuffix
  obtain ⟨t, ht⟩ := hprefix
  rw [hcr] at ht
  cases cs with
  | nil => simp at ht
  | cons d s =>
      have hd : d = c := by
        simp only [List.cons_append, List.cons.injEq] at ht
        exact ht.1.symm
      subst hd
      exact head_dropWhile h

/-- Trimming twice is trimming once. -/
theorem trim_trim (cs : List Char) : trim (trim cs) = trim cs := by
  have h : trimStart (trim cs) = trim cs := trimStart_trimEnd (trimStart_trimStart cs)
  show trimEnd (trimStart (trim cs)) = trim cs
  rw [h]
  exact trimEnd_trimEnd _

end QubitMapper.Text
