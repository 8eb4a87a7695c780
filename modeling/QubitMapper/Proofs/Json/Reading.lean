import QubitMapper.Json.Printer
import QubitMapper.Json.Reader

/-!
# Texts of documents are read back

A document is told from its text. Each part is read back in front of any text that cannot be taken
for more of it, which only numbers need: what follows them must not start like the rest of a number,
and in a document it never does. The fuel of the reader is measured by the length of the text.

## Main results

* `Json.spells_escape`: every character is escaped to what is read as that character.
* `Json.readNumber_render`: numerals are read back digit by digit.
* `Json.Written.parse`: documents whose numerals are written with digits are read back, whichever
  blanks are put between their parts.
-/

namespace QubitMapper

namespace Decimal

/-- The digits of a number other than zero do not start with a zero. -/
theorem head?_toDigits {n : Nat} (h : 0 < n) : (Nat.toDigits 10 n).head? ≠ some '0' := by
  induction n using Nat.strongRecOn with
  | ind n ih =>
      rw [Nat.toDigits_eq_if (by decide)]
      split
      · next hlt =>
          have hdigit : ∀ d < 10, 0 < d → [d.digitChar].head? ≠ some '0' := by decide
          exact hdigit n hlt h
      · next hge =>
          rw [List.head?_append, Option.or_of_isSome (by simp [Nat.toDigits_ne_nil])]
          exact ih (n / 10) (by omega) (by omega)

theorem isDigit_of_mem_toDigits {n : Nat} : ∀ c ∈ Nat.toDigits 10 n, c.isDigit = true :=
  fun _ => Nat.isDigit_of_mem_toDigits (by decide) (by decide)

theorem toDigits_eq_cons (n : Nat) : ∃ d ds, Nat.toDigits 10 n = d :: ds ∧ d.isDigit = true := by
  cases hdigits : Nat.toDigits 10 n with
  | nil => exact absurd hdigits Nat.toDigits_ne_nil
  | cons d ds => exact ⟨d, ds, rfl, isDigit_of_mem_toDigits d (hdigits ▸ List.mem_cons_self)⟩

namespace Numeral

/-- The fraction consists of digits, as in all numerals that are read or made from floats. -/
def Written (n : Numeral) : Prop := ∀ c ∈ n.fraction, c.isDigit = true

/-- The fraction as it is printed. -/
def fractionPart (n : Numeral) : List Char := if n.fraction.isEmpty then [] else '.' :: n.fraction

/-- The exponent as it is printed. -/
def exponentPart (n : Numeral) : List Char :=
  match n.exponent with
  | none => []
  | some e => 'e' :: (if e < 0 then '-' else '+') :: Nat.toDigits 10 e.natAbs

theorem render_eq (n : Numeral) : n.render = (if n.negative then ['-'] else []) ++
    (Nat.toDigits 10 n.whole ++ (n.fractionPart ++ n.exponentPart)) := by
  cases hexponent : n.exponent <;> simp [render, fractionPart, exponentPart, hexponent]

end Numeral

/-- The numeral of a float is written with digits, in every layout. -/
theorem Layout.numeral_written (l : Layout) (negative : Bool) (d : Scaled) :
    (l.numeral negative d).Written := by
  intro c hc
  unfold Layout.numeral at hc
  simp only at hc
  split at hc
  · split at hc
    · rcases List.mem_append.mp hc with hc | hc
      · rw [List.eq_of_mem_replicate hc]
        rfl
      · exact isDigit_of_mem_toDigits c hc
    · split at hc
      · cases hkeeps : l.keepsPoint with
        | false =>
            rw [hkeeps] at hc
            cases hc
        | true =>
            rw [hkeeps] at hc
            rw [List.mem_singleton.mp hc]
            rfl
      · exact isDigit_of_mem_toDigits c (List.mem_of_mem_drop hc)
  · exact isDigit_of_mem_toDigits c (List.mem_of_mem_drop hc)

end Decimal

namespace Json

/-- The text does not start with a character that has the property. -/
def Avoids (p : Char → Bool) (cs : List Char) : Prop := ∀ c rest, cs = c :: rest → p c = false

section Avoids

variable {p q : Char → Bool} {c : Char} {cs ds : List Char}

theorem avoids_nil : Avoids p [] := by
  intro c rest h
  cases h

theorem avoids_cons (h : p c = false) : Avoids p (c :: cs) := by
  intro c' rest heq
  cases heq
  exact h

theorem Avoids.mono (h : Avoids q cs) (hpq : ∀ c, p c = true → q c = true) : Avoids p cs := by
  intro c rest heq
  have hq := h c rest heq
  cases hp : p c with
  | false => rfl
  | true => rw [hpq c hp] at hq; cases hq

/-- A run of characters with the property is told apart from a text that avoids it. -/
theorem Avoids.span (hcs : Avoids p cs) (hds : ∀ c ∈ ds, p c = true) :
    (ds ++ cs).takeWhile p = ds ∧ (ds ++ cs).dropWhile p = cs := by
  rw [List.takeWhile_append_of_pos hds, List.dropWhile_append_of_pos hds]
  cases cs with
  | nil => simp
  | cons c rest => simp [hcs c rest rfl]

end Avoids

/-! ## Numbers -/

/-- Whether a character could continue a number. -/
def isNumeric (c : Char) : Bool := c.isDigit || c == '.' || c == 'e' || c == 'E'

/-- The fraction of a numeral is read back. -/
theorem readFraction_part {n : Decimal.Numeral} (hn : n.Written) {cs : List Char}
    (hdigit : Avoids Char.isDigit cs) (hpoint : Avoids (· == '.') cs) :
    readFraction (n.fractionPart ++ cs) = some (n.fraction, cs) := by
  unfold Decimal.Numeral.fractionPart
  cases hfraction : n.fraction with
  | nil =>
      cases cs with
      | nil => rfl
      | cons c rest =>
          have hc : c ≠ '.' := by simpa using hpoint c rest rfl
          simp [readFraction, hc]
  | cons d ds =>
      have hdigits : ∀ c ∈ d :: ds, c.isDigit = true := by
        rw [← hfraction]
        exact hn
      obtain ⟨htake, hdrop⟩ := hdigit.span hdigits
      show readFraction ('.' :: (d :: ds ++ cs)) = _
      rw [readFraction, htake, hdrop]
      rfl

theorem readExponentDigits_toDigits (negative : Bool) (size : Nat) {cs : List Char}
    (hcs : Avoids Char.isDigit cs) :
    readExponentDigits negative (Nat.toDigits 10 size ++ cs) =
      some (some (if negative then -(size : Int) else size), cs) := by
  obtain ⟨htake, hdrop⟩ := hcs.span (Decimal.isDigit_of_mem_toDigits (n := size))
  unfold readExponentDigits
  rw [htake, hdrop]
  simp [Nat.toDigits_ne_nil, Nat.ofDigitChars_ten_toDigits]

/-- The exponent of a numeral is read back; its sign is always printed. -/
theorem readExponent_part (n : Decimal.Numeral) {cs : List Char} (hcs : Avoids isNumeric cs) :
    readExponent (n.exponentPart ++ cs) = some (n.exponent, cs) := by
  have hdigit : Avoids Char.isDigit cs := hcs.mono fun c hc => by simp [isNumeric, hc]
  unfold Decimal.Numeral.exponentPart
  cases n.exponent with
  | none =>
      cases cs with
      | nil => rfl
      | cons c rest =>
          have hc := hcs c rest rfl
          simp only [isNumeric, Bool.or_eq_false_iff] at hc
          simp [readExponent, hc]
  | some e =>
      by_cases hneg : e < 0
      · have hsize : -(e.natAbs : Int) = e := by omega
        simp only [hneg, if_true, List.cons_append]
        show readExponentDigits true _ = _
        rw [readExponentDigits_toDigits _ _ hdigit, if_pos rfl, hsize]
      · have hsize : (e.natAbs : Int) = e := by omega
        simp only [hneg, if_false, List.cons_append]
        show readExponentDigits false _ = _
        rw [readExponentDigits_toDigits _ _ hdigit, if_neg (by decide), hsize]

/-- A numeral is read back behind its sign. -/
theorem readNumber_render {n : Decimal.Numeral} (hn : n.Written) {cs : List Char}
    (hcs : Avoids isNumeric cs) :
    readNumber n.negative
      (Nat.toDigits 10 n.whole ++ (n.fractionPart ++ (n.exponentPart ++ cs))) =
      some (.number n, cs) := by
  -- The exponent starts with a letter and the fraction with a point, so neither is taken for more
  -- of the digits in front.
  have hexponent : ∀ p : Char → Bool, p 'e' = false → (∀ c, p c = true → isNumeric c = true) →
      Avoids p (n.exponentPart ++ cs) := by
    intro p hp hmono
    unfold Decimal.Numeral.exponentPart
    cases n.exponent with
    | none => exact hcs.mono hmono
    | some e => exact avoids_cons hp
  have hdigit := hexponent Char.isDigit (by decide) fun c hc => by simp [isNumeric, hc]
  have hpoint := hexponent (· == '.') (by decide) fun c hc => by simp_all [isNumeric]
  have hfraction : Avoids Char.isDigit (n.fractionPart ++ (n.exponentPart ++ cs)) := by
    unfold Decimal.Numeral.fractionPart
    split
    · exact hdigit
    · exact avoids_cons (by decide)
  obtain ⟨htake, hdrop⟩ := hfraction.span (Decimal.isDigit_of_mem_toDigits (n := n.whole))
  -- No digit is missing, and a zero in front stands alone.
  have hzero : ((Nat.toDigits 10 n.whole).isEmpty ||
      (decide ((Nat.toDigits 10 n.whole).length > 1) &&
        (Nat.toDigits 10 n.whole).head? == some '0')) = false := by
    rcases Nat.eq_zero_or_pos n.whole with h | h
    · rw [h]
      rfl
    · simp [Nat.toDigits_ne_nil, Decimal.head?_toDigits h]
  unfold readNumber
  simp only [htake, hdrop, hzero, Bool.false_eq_true, if_false, readFraction_part hn hdigit hpoint,
    readExponent_part n hcs, bind, Option.bind_some, Nat.ofDigitChars_ten_toDigits]

/-! ## Strings -/

/-- In front of any pieces, the characters `word` are read as one piece, which stands for `c`. -/
def Spells (c : Char) (word : List Char) : Prop :=
  ∃ p : Piece, (∀ cs ps rest, readPieces cs = some (ps, rest) →
      readPieces (word ++ cs) = some (p :: ps, rest)) ∧
    ∀ ps, joinPieces (p :: ps) = (joinPieces ps).map (c :: ·)

/-- A control character is read back from its two digits. -/
theorem hexQuad?_hexChar :
    ∀ n < 0x20, hexQuad? '0' '0' (hexChar (n / 16)) (hexChar n) = some n := by
  decide

theorem spells_escaped {c e : Char} (he : escaped? e = some c) : Spells c ['\\', e] := by
  have hu : e ≠ 'u' := by
    rintro rfl
    simp [escaped?] at he
  refine ⟨.char c, fun cs ps rest h => ?_, fun _ => rfl⟩
  show readPieces ('\\' :: e :: cs) = _
  rw [readPieces]
  · simp [he, h]
  · intro _ _ _ _ _ heq
    exact absurd heq hu

theorem spells_plain {c : Char} (hplain : 0x20 ≤ c.toNat) (hquote : c ≠ '"') (hslash : c ≠ '\\') :
    Spells c [c] := by
  refine ⟨.char c, fun cs ps rest h => ?_, fun _ => rfl⟩
  show readPieces (c :: cs) = _
  rw [readPieces]
  · simp [Nat.not_lt.mpr hplain, hslash, h]
  · exact hquote
  · intro _ _ _ _ _ heq
    exact absurd heq hslash
  · intro _ _ heq
    exact absurd heq hslash

theorem spells_unit {c : Char} (hcontrol : c.toNat < 0x20) :
    Spells c ['\\', 'u', '0', '0', hexChar (c.toNat / 16), hexChar c.toNat] := by
  refine ⟨.unit c.toNat, fun cs ps rest h => ?_, fun ps => ?_⟩
  · show readPieces ('\\' :: 'u' :: '0' :: '0' :: _ :: _ :: cs) = _
    rw [readPieces, hexQuad?_hexChar _ hcontrol, h]
    rfl
  · -- A control character is far below the surrogates.
    conv => lhs; unfold joinPieces
    rw [if_neg (by omega), if_neg (by omega), Char.ofNat_toNat]

/-- Every character is escaped to what spells it. -/
theorem spells_escape (c : Char) : Spells c (escape c) := by
  unfold escape
  split
  · next h => exact spells_escaped (by rw [h]; rfl)
  split
  · next h => exact spells_escaped (by rw [h]; rfl)
  split
  · next hquote hslash hplain => exact spells_plain hplain hquote hslash
  split
  · next h => exact spells_escaped (h ▸ rfl)
  split
  · next h => exact spells_escaped (h ▸ rfl)
  split
  · next h => exact spells_escaped (h ▸ rfl)
  split
  · next h => exact spells_escaped (h ▸ rfl)
  split
  · next h => exact spells_escaped (h ▸ rfl)
  · next hplain _ _ _ _ _ => exact spells_unit (Nat.lt_of_not_le hplain)

/-- The pieces of an escaped text stand for that text. -/
theorem readPieces_text (s rest : List Char) : ∃ ps,
    readPieces (s.flatMap escape ++ '"' :: rest) = some (ps, rest) ∧ joinPieces ps = some s := by
  induction s with
  | nil => exact ⟨[], rfl, rfl⟩
  | cons c s ih =>
      obtain ⟨ps, hread, hjoin⟩ := ih
      obtain ⟨p, hpiece, hstands⟩ := spells_escape c
      refine ⟨p :: ps, ?_, ?_⟩
      · rw [List.flatMap_cons, List.append_assoc]
        exact hpiece _ _ _ hread
      · rw [hstands, hjoin, Option.map_some]

/-- A string literal is read back, whether it names a text or not. -/
theorem readString_quote (s : Option String) (rest : List Char) : ∃ body,
    quote s = '"' :: body ∧ readString (body ++ rest) = some (s, rest) := by
  cases s with
  | none =>
      refine ⟨['\\', 'u', 'd', '8', '0', '0', '"'], by decide, ?_⟩
      show (readPieces ('\\' :: 'u' :: 'd' :: '8' :: '0' :: '0' :: '"' :: rest)).map _ = _
      rw [readPieces, show hexQuad? 'd' '8' '0' '0' = some 0xD800 by decide, readPieces]
      rfl
  | some s =>
      obtain ⟨ps, hread, hjoin⟩ := readPieces_text s.toList rest
      refine ⟨s.toList.flatMap escape ++ ['"'], rfl, ?_⟩
      rw [List.append_assoc]
      show (readPieces (s.toList.flatMap escape ++ '"' :: rest)).map _ = _
      rw [hread]
      simp [hjoin]

/-! ## Documents -/

/-- A document whose numerals are written with digits. -/
inductive Written : Json → Prop where
  | null : Written .null
  | bool (b : Bool) : Written (.bool b)
  | number {n : Decimal.Numeral} (h : n.Written) : Written (.number n)
  | string (text : Option String) : Written (.string text)
  | array {items : List Json} (h : ∀ j ∈ items, Written j) : Written (.array items)
  | object {members : List (Option String × Json)} (h : ∀ m ∈ members, Written m.2) :
      Written (.object members)

/-- Parts are set apart by nothing but characters that may stand between tokens. -/
structure Spacing.Blank (w : Spacing) : Prop where
  lead : ∀ level, ∀ c ∈ w.lead level, isSpace c = true
  gap : ∀ c ∈ w.gap, isSpace c = true

theorem Spacing.blank_compact : Spacing.compact.Blank where
  lead _ _ hc := by cases hc
  gap _ hc := by cases hc

theorem Spacing.blank_pretty : Spacing.pretty.Blank where
  lead level c hc := by
    rcases List.mem_cons.mp hc with rfl | hc
    · rfl
    · rw [List.eq_of_mem_replicate hc]
      rfl
  gap c hc := by
    rw [List.mem_singleton.mp hc]
    rfl

section Space

variable {blanks cs : List Char}

theorem isNumeric_of_isSpace {c : Char} (hc : isSpace c = true) : isNumeric c = false := by
  simp only [isSpace, Bool.or_eq_true, beq_iff_eq] at hc
  rcases hc with ((rfl | rfl) | rfl) | rfl <;> decide

theorem isSpace_of_isDigit {c : Char} (hc : c.isDigit = true) : isSpace c = false := by
  cases hspace : isSpace c with
  | false => rfl
  | true =>
      have hnumeric := isNumeric_of_isSpace hspace
      simp [isNumeric, hc] at hnumeric

/-- Blanks in front are skipped. -/
theorem skipSpace_append (hblanks : ∀ c ∈ blanks, isSpace c = true) :
    skipSpace (blanks ++ cs) = skipSpace cs :=
  List.dropWhile_append_of_pos hblanks

theorem skipSpace_cons {c : Char} (hc : isSpace c = false) : skipSpace (c :: cs) = c :: cs :=
  List.dropWhile_cons_of_neg (by simp [hc])

theorem skipSpace_append_cons {c : Char} (hblanks : ∀ c ∈ blanks, isSpace c = true)
    (hc : isSpace c = false) : skipSpace (blanks ++ c :: cs) = c :: cs := by
  rw [skipSpace_append hblanks, skipSpace_cons hc]

/-- A value is read behind blanks as without them. -/
theorem readValue_append (hblanks : ∀ c ∈ blanks, isSpace c = true) (fuel : Nat) :
    readValue fuel (blanks ++ cs) = readValue fuel cs := by
  cases fuel with
  | zero => rw [readValue, readValue]
  | succ fuel => rw [readValue, readValue, skipSpace_append hblanks]

theorem Avoids.numeric_append (hblanks : ∀ c ∈ blanks, isSpace c = true)
    (hcs : Avoids isNumeric cs) : Avoids isNumeric (blanks ++ cs) := by
  cases blanks with
  | nil => exact hcs
  | cons c rest =>
      exact avoids_cons (isNumeric_of_isSpace (hblanks c List.mem_cons_self))

end Space

/-! ## Reading what was printed -/

/-- What starts with a digit is a number. -/
theorem readValue_digit {d : Char} {cs : List Char} (hd : d.isDigit = true) (fuel : Nat) :
    readValue (fuel + 1) (d :: cs) = readNumber false (d :: cs) := by
  rw [readValue, skipSpace_cons (isSpace_of_isDigit hd)]
  split
  · contradiction
  · next heq => cases heq; exact absurd hd (by decide)
  · next heq => cases heq; exact absurd hd (by decide)
  · next heq => cases heq; exact absurd hd (by decide)
  · next heq => cases heq; exact absurd hd (by decide)
  · next heq =>
      cases heq
      rw [if_pos hd]

theorem readValue_array {cs : List Char} (hcs : Avoids (· == ']') (skipSpace cs)) (fuel : Nat) :
    readValue (fuel + 1) ('[' :: cs) =
      (readItems fuel cs).map fun (items, rest) => (.array items, rest) := by
  rw [readValue, skipSpace_cons (by decide)]
  simp only
  split
  · next heq => exact absurd (hcs _ _ heq) (by decide)
  · rfl

theorem readValue_object {cs : List Char} (hcs : Avoids (· == '}') (skipSpace cs)) (fuel : Nat) :
    readValue (fuel + 1) ('{' :: cs) =
      (readMembers fuel cs).map fun (members, rest) => (.object members, rest) := by
  rw [readValue, skipSpace_cons (by decide)]
  simp only
  split
  · next heq => exact absurd (hcs _ _ heq) (by decide)
  · rfl

/-- The document is read back at every level, in front of any text that ends a number. -/
def ReadBack (w : Spacing) (j : Json) : Prop :=
  ∀ level fuel cs, 2 * (render w level j).length ≤ fuel → Avoids isNumeric cs →
    readValue (fuel + 1) (render w level j ++ cs) = some (j, cs)

theorem readBack_number {w : Spacing} {n : Decimal.Numeral} (hn : n.Written) :
    ReadBack w (.number n) := by
  intro level fuel cs _ hcs
  have hread := readNumber_render hn hcs
  rw [render, Decimal.Numeral.render_eq]
  cases hsign : n.negative with
  | true =>
      rw [hsign] at hread
      simp only [if_true, List.append_assoc, List.cons_append, List.nil_append]
      rw [readValue, skipSpace_cons (by decide)]
      exact hread
  | false =>
      rw [hsign] at hread
      simp only [Bool.false_eq_true, if_false, List.append_assoc, List.nil_append]
      obtain ⟨d, ds, hdigits, hd⟩ := Decimal.toDigits_eq_cons n.whole
      rw [hdigits] at hread ⊢
      rw [List.cons_append, readValue_digit hd]
      exact hread

theorem readBack_string {w : Spacing} (text : Option String) : ReadBack w (.string text) := by
  intro level fuel cs _ _
  obtain ⟨body, hquote, hread⟩ := readString_quote text cs
  rw [render, hquote, List.cons_append, readValue, skipSpace_cons (by decide)]
  simp only
  rw [hread, Option.map_some]

section Parts

variable {w : Spacing}

/-- No document starts with a blank or a closing bracket. -/
theorem render_head (w : Spacing) (level : Nat) (j : Json) :
    ∃ c cs, render w level j = c :: cs ∧ isSpace c = false ∧ c ≠ ']' := by
  cases j with
  | null => exact ⟨_, _, rfl, by decide, by decide⟩
  | bool b => cases b <;> exact ⟨_, _, rfl, by decide, by decide⟩
  | number n =>
      rw [render, Decimal.Numeral.render_eq]
      cases n.negative with
      | true => exact ⟨_, _, rfl, by decide, by decide⟩
      | false =>
          obtain ⟨d, ds, hdigits, hd⟩ := Decimal.toDigits_eq_cons n.whole
          rw [hdigits]
          refine ⟨d, _, rfl, isSpace_of_isDigit hd, ?_⟩
          rintro rfl
          exact absurd hd (by decide)
  | string text => cases text <;> exact ⟨_, _, rfl, by decide, by decide⟩
  | array items => cases items <;> exact ⟨_, _, rfl, by decide, by decide⟩
  | object members =>
      cases members with
      | nil => exact ⟨_, _, rfl, by decide, by decide⟩
      | cons m rest => exact ⟨_, _, rfl, by decide, by decide⟩

/-- What follows an item does not continue a number. -/
theorem avoids_renderItems (hw : w.Blank) (items : List Json) (level outer : Nat)
    (cs : List Char) :
    Avoids isNumeric (renderItems w level items ++ (w.lead outer ++ ']' :: cs)) := by
  cases items with
  | nil =>
      rw [renderItems, List.nil_append]
      exact Avoids.numeric_append (hw.lead outer) (avoids_cons (by decide))
  | cons j rest =>
      rw [renderItems]
      exact avoids_cons (by decide)

/-- Items that are read back one by one are read back in a row. An item takes a unit of fuel for
itself and one for the row, which its own characters and the comma behind it pay for. -/
theorem readItems_render (hw : w.Blank) (items : List Json) :
    ∀ (j : Json) (level outer fuel : Nat) (cs : List Char), (∀ i ∈ j :: items, ReadBack w i) →
      2 * ((render w level j).length + (renderItems w level items).length) + 2 ≤ fuel →
      readItems fuel (w.lead level ++ (render w level j ++
        (renderItems w level items ++ (w.lead outer ++ ']' :: cs)))) = some (j :: items, cs) := by
  induction items with
  | nil =>
      intro j level outer fuel cs hread hfuel
      obtain ⟨fuel, rfl⟩ : ∃ f, fuel = f + 2 := ⟨fuel - 2, by omega⟩
      have hitem := hread j List.mem_cons_self level fuel _ (by omega)
        (avoids_renderItems hw [] level outer cs)
      have hclose : skipSpace (w.lead outer ++ ']' :: cs) = ']' :: cs :=
        skipSpace_append_cons (hw.lead outer) (by decide)
      rw [readItems, readValue_append (hw.lead level), hitem]
      simp only [bind, Option.bind_some, renderItems, List.nil_append, hclose]
  | cons j' rest ih =>
      intro j level outer fuel cs hread hfuel
      obtain ⟨fuel, rfl⟩ : ∃ f, fuel = f + 2 := ⟨fuel - 2, by omega⟩
      have hitem := hread j List.mem_cons_self level fuel _ (by omega)
        (avoids_renderItems hw (j' :: rest) level outer cs)
      simp only [renderItems, List.length_append, List.length_cons] at hfuel
      have hrest := ih j' level outer (fuel + 1) cs (fun i hi => hread i (List.mem_cons_of_mem _ hi))
        (by omega)
      have hcomma (cs : List Char) : skipSpace (',' :: cs) = ',' :: cs :=
        skipSpace_cons (by decide)
      rw [readItems, readValue_append (hw.lead level), hitem]
      simp only [bind, Option.bind_some, renderItems, List.cons_append, List.append_assoc, hcomma,
        hrest]

/-- What follows a member does not continue a number. -/
theorem avoids_renderMembers (hw : w.Blank) (members : List (Option String × Json))
    (level outer : Nat) (cs : List Char) :
    Avoids isNumeric (renderMembers w level members ++ (w.lead outer ++ '}' :: cs)) := by
  cases members with
  | nil =>
      rw [renderMembers, List.nil_append]
      exact Avoids.numeric_append (hw.lead outer) (avoids_cons (by decide))
  | cons m rest =>
      rw [renderMembers]
      exact avoids_cons (by decide)

/-- The key of a member is read back, with the colon behind it. -/
theorem readKey_quote {blanks : List Char} (hblanks : ∀ c ∈ blanks, isSpace c = true)
    (key : Option String) (cs : List Char) :
    readKey (blanks ++ (quote key ++ ':' :: cs)) = some (key, cs) := by
  obtain ⟨body, hquote, hread⟩ := readString_quote key (':' :: cs)
  rw [hquote, List.cons_append]
  unfold readKey
  rw [skipSpace_append_cons hblanks (by decide)]
  have hcolon : skipSpace (':' :: cs) = ':' :: cs := skipSpace_cons (by decide)
  simp only [hread, bind, Option.bind_some, hcolon]

/-- Members whose values are read back one by one are read back in a row. -/
theorem readMembers_render (hw : w.Blank) (members : List (Option String × Json)) :
    ∀ (key : Option String) (j : Json) (level outer fuel : Nat) (cs : List Char),
      (∀ m ∈ (key, j) :: members, ReadBack w m.2) →
      2 * ((render w level j).length + (renderMembers w level members).length) + 2 ≤ fuel →
      readMembers fuel (w.lead level ++ (quote key ++ ':' :: (w.gap ++ (render w level j ++
        (renderMembers w level members ++ (w.lead outer ++ '}' :: cs)))))) =
          some ((key, j) :: members, cs) := by
  induction members with
  | nil =>
      intro key j level outer fuel cs hread hfuel
      obtain ⟨fuel, rfl⟩ : ∃ f, fuel = f + 2 := ⟨fuel - 2, by omega⟩
      have hj : ReadBack w j := hread (key, j) List.mem_cons_self
      have hvalue := hj level fuel _ (by omega)
        (avoids_renderMembers hw [] level outer cs)
      have hclose : skipSpace (w.lead outer ++ '}' :: cs) = '}' :: cs :=
        skipSpace_append_cons (hw.lead outer) (by decide)
      rw [readMembers, readKey_quote (hw.lead level)]
      simp only [bind, Option.bind_some]
      rw [readValue_append hw.gap, hvalue]
      simp only [Option.bind_some, renderMembers, List.nil_append, hclose]
  | cons m rest ih =>
      intro key j level outer fuel cs hread hfuel
      obtain ⟨key', j'⟩ := m
      obtain ⟨fuel, rfl⟩ : ∃ f, fuel = f + 2 := ⟨fuel - 2, by omega⟩
      have hj : ReadBack w j := hread (key, j) List.mem_cons_self
      have hvalue := hj level fuel _ (by omega)
        (avoids_renderMembers hw ((key', j') :: rest) level outer cs)
      simp only [renderMembers, List.length_append, List.length_cons] at hfuel
      have hrest := ih key' j' level outer (fuel + 1) cs
        (fun i hi => hread i (List.mem_cons_of_mem _ hi)) (by omega)
      have hcomma (cs : List Char) : skipSpace (',' :: cs) = ',' :: cs :=
        skipSpace_cons (by decide)
      rw [readMembers, readKey_quote (hw.lead level)]
      simp only [bind, Option.bind_some]
      rw [readValue_append hw.gap, hvalue]
      simp only [Option.bind_some, renderMembers, List.cons_append, List.append_assoc, hcomma,
        hrest]

theorem readBack_array (hw : w.Blank) {items : List Json} (h : ∀ i ∈ items, ReadBack w i) :
    ReadBack w (.array items) := by
  intro level fuel cs hfuel _
  cases items with
  | nil => rfl
  | cons j rest =>
      simp only [render, List.length_append, List.length_cons, List.length_nil] at hfuel
      have hread := readItems_render hw rest j (level + 1) level fuel cs h (by omega)
      simp only [render, List.cons_append, List.append_assoc, List.nil_append]
      rw [readValue_array, hread, Option.map_some]
      -- The first item is not taken for the closing bracket.
      obtain ⟨c, cs', hhead, hspace, hc⟩ := render_head w (level + 1) j
      rw [hhead, List.cons_append, skipSpace_append_cons (hw.lead _) hspace]
      exact avoids_cons (by simpa using hc)

theorem readBack_object (hw : w.Blank) {members : List (Option String × Json)}
    (h : ∀ m ∈ members, ReadBack w m.2) : ReadBack w (.object members) := by
  intro level fuel cs hfuel _
  cases members with
  | nil => rfl
  | cons m rest =>
      obtain ⟨key, j⟩ := m
      simp only [render, List.length_append, List.length_cons, List.length_nil] at hfuel
      have hread := readMembers_render hw rest key j (level + 1) level fuel cs h (by omega)
      simp only [render, List.cons_append, List.append_assoc, List.nil_append]
      rw [readValue_object, hread, Option.map_some]
      obtain ⟨body, hquote, -⟩ := readString_quote key []
      rw [hquote, List.cons_append, skipSpace_append_cons (hw.lead _) (by decide)]
      exact avoids_cons (by decide)

end Parts

/-- Every document whose numerals are written with digits is read back. -/
theorem Written.readBack {w : Spacing} (hw : w.Blank) {j : Json} (hj : j.Written) :
    ReadBack w j := by
  induction hj with
  | null =>
      intro level fuel cs _ _
      rfl
  | bool b =>
      intro level fuel cs _ _
      cases b <;> rfl
  | number hn => exact readBack_number hn
  | string text => exact readBack_string text
  | array _ ih => exact readBack_array hw ih
  | object _ ih => exact readBack_object hw ih

/-- The text of a document is read back, however its parts are set apart. -/
theorem Written.parse {w : Spacing} (hw : w.Blank) {j : Json} (hj : j.Written) :
    parse (String.ofList (render w 0 j)) = some j := by
  have hread := hj.readBack hw 0 _ [] (Nat.le_refl _) avoids_nil
  rw [List.append_nil] at hread
  unfold Json.parse
  rw [String.toList_ofList]
  simp only [hread, bind, Option.bind_some]
  rfl

end Json

end QubitMapper
