import Mathlib.Data.List.TakeWhile
import QubitMapper.Text.Blank
import QubitMapper.Text.Unsigned

/-!
# Texts without their readers

A trimmed text is what stands between the blanks around a text, the words of a text are what the
blanks in it separate, and a number is read from a numeral. Here each of these is said without the
function that works it out.

## Main results

* `around_trim`, `Around.trim_eq`: a trimmed text has blanks around it, and they are all it loses.
* `words_eq_pair_iff`: the texts of two words.
* `readUnsigned_eq_some_iff`: the texts of a number.
-/

namespace QubitMapper.Text

variable {c : Char} {core cs front back xs ys w : List Char} {ws : List (List Char)}

/-- A text of blanks. -/
def Blanks (cs : List Char) : Prop := ∀ c ∈ cs, isBlank c = true

/-- A text with blanks around it. -/
def Around (core cs : List Char) : Prop :=
  ∃ front back, Blanks front ∧ Blanks back ∧ cs = front ++ core ++ back

/-- A nonempty text without blanks. -/
def Word (w : List Char) : Prop := w ≠ [] ∧ ∀ c ∈ w, isBlank c = false

theorem Blanks.nil : Blanks [] := fun _ h => nomatch h

theorem Blanks.append (hx : Blanks xs) (hy : Blanks ys) : Blanks (xs ++ ys) :=
  fun c hc => (List.mem_append.mp hc).elim (hx c) (hy c)

theorem Around.refl (cs : List Char) : Around cs cs :=
  ⟨[], [], .nil, .nil, by simp⟩

theorem Around.blanks (h : Around core cs) (hcore : Blanks core) : Blanks cs := by
  obtain ⟨front, back, hfront, hback, rfl⟩ := h
  exact (hfront.append hcore).append hback

theorem Around.append (h : Around core cs) (hback : Blanks back) : Around core (cs ++ back) := by
  obtain ⟨front, back', hfront, hback', rfl⟩ := h
  exact ⟨front, back' ++ back, hfront, hback'.append hback, by simp⟩

/-- A character that is not blank is in a text if it is between the blanks around it. -/
theorem Around.mem_iff (h : Around core cs) (hc : isBlank c = false) : c ∈ cs ↔ c ∈ core := by
  obtain ⟨front, back, hfront, hback, rfl⟩ := h
  have hnot : ∀ {bs}, Blanks bs → c ∉ bs := fun hbs hmem => by simp [hbs c hmem] at hc
  simp [hnot hfront, hnot hback]

/-! ## First occurrences -/

theorem takeWhile_append_cons (h : c ∉ xs) : (xs ++ c :: ys).takeWhile (· != c) = xs := by
  have hxs : ∀ d ∈ xs, (d != c) = true := fun d hd => bne_iff_ne.mpr (ne_of_mem_of_not_mem hd h)
  rw [List.takeWhile_append_of_pos hxs]
  simp

theorem dropWhile_append_cons (h : c ∉ xs) : (xs ++ c :: ys).dropWhile (· != c) = c :: ys := by
  have hxs : ∀ d ∈ xs, (d != c) = true := fun d hd => bne_iff_ne.mpr (ne_of_mem_of_not_mem hd h)
  rw [List.dropWhile_append_of_pos hxs]
  simp

/-- A text is split at the first occurrence of a character in one way. -/
theorem append_cons_inj {xs' ys' : List Char} (h : c ∉ xs) (h' : c ∉ xs')
    (heq : xs ++ c :: ys = xs' ++ c :: ys') : xs = xs' ∧ ys = ys' := by
  have htake := congrArg (List.takeWhile (· != c)) heq
  have hdrop := congrArg (List.dropWhile (· != c)) heq
  rw [takeWhile_append_cons h, takeWhile_append_cons h'] at htake
  rw [dropWhile_append_cons h, dropWhile_append_cons h'] at hdrop
  exact ⟨htake, (List.cons.inj hdrop).2⟩

/-! ## Trimming -/

theorem trimStart_append (h : Blanks front) : trimStart (front ++ cs) = trimStart cs :=
  List.dropWhile_append_of_pos h

theorem trimEnd_append (h : Blanks back) : trimEnd (cs ++ back) = trimEnd cs := by
  unfold trimEnd
  rw [List.reverse_append, List.dropWhile_append_of_pos fun c hc => h c (List.mem_reverse.mp hc)]

/-- What trimming takes away at the front. -/
theorem exists_trimStart (cs : List Char) : ∃ front, Blanks front ∧ cs = front ++ trimStart cs :=
  ⟨cs.takeWhile isBlank, fun _ => List.mem_takeWhile_imp, List.takeWhile_append_dropWhile.symm⟩

/-- What trimming takes away at the back. -/
theorem exists_trimEnd (cs : List Char) : ∃ back, Blanks back ∧ cs = trimEnd cs ++ back := by
  refine ⟨(cs.reverse.takeWhile isBlank).reverse,
    fun c hc => List.mem_takeWhile_imp (List.mem_reverse.mp hc), ?_⟩
  rw [trimEnd, ← List.reverse_append, List.takeWhile_append_dropWhile, List.reverse_reverse]

theorem around_trim (cs : List Char) : Around (trim cs) cs := by
  obtain ⟨front, hfront, hcs⟩ := exists_trimStart cs
  obtain ⟨back, hback, hrest⟩ := exists_trimEnd (trimStart cs)
  refine ⟨front, back, hfront, hback, ?_⟩
  rw [List.append_assoc, trim, ← hrest, ← hcs]

theorem trimEnd_blanks (h : Blanks cs) : trimEnd cs = [] := by
  have hempty : trimEnd ([] ++ cs) = trimEnd [] := trimEnd_append h
  rw [← List.nil_append cs, hempty]
  rfl

theorem trim_blanks (h : Blanks cs) : trim cs = [] := by
  rw [trim, trimStart, List.dropWhile_eq_nil_iff.mpr h, trimEnd_blanks .nil]

/-- Blanks around a text do not change what is left of it. -/
theorem Around.trim_eq (h : Around core cs) : trim cs = trim core := by
  obtain ⟨front, back, hfront, hback, rfl⟩ := h
  rw [trim, List.append_assoc, trimStart_append hfront, trim]
  by_cases hcore : trimStart core = []
  · have hblanks : Blanks core := List.dropWhile_eq_nil_iff.mp hcore
    rw [hcore, trimStart, List.dropWhile_eq_nil_iff.mpr (hblanks.append hback)]
  · have hstart : trimStart (core ++ back) = trimStart core ++ back := by
      rw [trimStart, List.dropWhile_append, if_neg (by simpa [trimStart] using hcore), trimStart]
    rw [hstart, trimEnd_append hback]

theorem trim_eq_nil_iff : trim cs = [] ↔ Blanks cs := by
  refine ⟨fun h => ?_, trim_blanks⟩
  have haround := around_trim cs
  rw [h] at haround
  exact haround.blanks .nil

/-- A text without blanks is left as it is. -/
theorem trim_eq_self (h : ∀ c ∈ cs, isBlank c = false) : trim cs = cs := by
  have hstart : ∀ {ys : List Char}, (∀ c ∈ ys, isBlank c = false) → ys.dropWhile isBlank = ys := by
    intro ys hys
    cases ys with
    | nil => rfl
    | cons c r => simp [hys c (by simp)]
  rw [trim, trimStart, hstart h, trimEnd, hstart (by simpa using h), List.reverse_reverse]

theorem trimStart_append_cons (hc : isBlank c = false) :
    trimStart (xs ++ c :: ys) = trimStart xs ++ c :: ys := by
  rw [trimStart, List.dropWhile_append]
  split
  · rename_i hempty
    simp [trimStart, List.isEmpty_iff.mp hempty, hc]
  · rfl

theorem trimEnd_append_cons (hc : isBlank c = false) :
    trimEnd (xs ++ c :: ys) = xs ++ c :: trimEnd ys := by
  have hfront : trimStart (ys.reverse ++ c :: xs.reverse) =
      trimStart ys.reverse ++ c :: xs.reverse := trimStart_append_cons hc
  unfold trimStart at hfront
  simp [trimEnd, hfront]

/-- Both sides of a character that is not blank are trimmed on their own. -/
theorem trim_append_cons (hc : isBlank c = false) :
    trim (xs ++ c :: ys) = trimStart xs ++ c :: trimEnd ys := by
  rw [trim, trimStart_append_cons hc, trimEnd_append_cons hc]

theorem trim_trimStart (cs : List Char) : trim (trimStart cs) = trim cs := by
  rw [trim, trimStart_trimStart, trim]

theorem trim_trimEnd (cs : List Char) : trim (trimEnd cs) = trim cs := by
  obtain ⟨back, hback, hcs⟩ := exists_trimEnd cs
  exact (Around.trim_eq ⟨[], back, .nil, hback, by simpa using hcs⟩).symm

private theorem map_trim_splitOn_trimStart (hc : isBlank c = false) (cs : List Char) :
    ((trimStart cs).splitOn c).map trim = (cs.splitOn c).map trim := by
  have hsub : trimStart cs ⊆ cs := (List.dropWhile_suffix _).subset
  by_cases hmem : c ∈ cs
  · obtain ⟨xs, ys, rfl, hxs⟩ := List.eq_append_cons_of_mem hmem
    have hxs' : c ∉ trimStart xs := fun h => hxs ((List.dropWhile_suffix _).subset h)
    rw [trimStart_append_cons hc, List.splitOn_append_cons_self_of_not_mem hxs',
      List.splitOn_append_cons_self_of_not_mem hxs, List.map_cons, List.map_cons, trim_trimStart]
  · rw [List.splitOn_eq_singleton fun h => hmem (hsub h), List.splitOn_eq_singleton hmem,
      List.map_singleton, List.map_singleton, trim_trimStart]

-- what follows the first separator is a shorter text with the same end
private theorem map_trim_splitOn_trimEnd (hc : isBlank c = false) (cs : List Char) :
    ((trimEnd cs).splitOn c).map trim = (cs.splitOn c).map trim := by
  induction hn : cs.length using Nat.strongRecOn generalizing cs with
  | ind n ih =>
      by_cases hmem : c ∈ cs
      · obtain ⟨xs, ys, rfl, hxs⟩ := List.eq_append_cons_of_mem hmem
        have hlt : ys.length < n := by
          rw [List.length_append, List.length_cons] at hn
          omega
        rw [trimEnd_append_cons hc, List.splitOn_append_cons_self_of_not_mem hxs,
          List.splitOn_append_cons_self_of_not_mem hxs, List.map_cons, List.map_cons,
          ih _ hlt ys rfl]
      · obtain ⟨back, -, hcs⟩ := exists_trimEnd cs
        have hmem' : c ∉ trimEnd cs := fun h => hmem (hcs ▸ List.mem_append_left back h)
        rw [List.splitOn_eq_singleton hmem', List.splitOn_eq_singleton hmem, List.map_singleton,
          List.map_singleton, trim_trimEnd]

/-- What stands between separators that are not blank is the same in a trimmed text, but for blanks
around it. -/
theorem map_trim_splitOn (hc : isBlank c = false) (cs : List Char) :
    ((trim cs).splitOn c).map trim = (cs.splitOn c).map trim := by
  rw [trim, map_trim_splitOn_trimEnd hc, map_trim_splitOn_trimStart hc]

/-! ## Letter case -/

theorem isBlank_eq_false_of_ascii (hlow : 32 < c.toNat) (hhigh : c.toNat < 127) :
    isBlank c = false := by
  have hlist : ∀ n ∈ blankCodes, n ≤ 32 ∨ 127 ≤ n := by decide
  by_contra h
  have hmem := hlist c.toNat (by simpa [isBlank] using h)
  omega

/-- Case does not matter for being blank. -/
theorem isBlank_toLower (c : Char) : isBlank c.toLower = isBlank c := by
  by_cases hupper : c.val ≥ 'A'.val ∧ c.val ≤ 'Z'.val
  · have hlow : 65 ≤ c.toNat := UInt32.le_iff_toNat_le.mp hupper.1
    have hhigh : c.toNat ≤ 90 := UInt32.le_iff_toNat_le.mp hupper.2
    have hlower : c.toLower.toNat = c.toNat + 32 := by
      have hchar : c.toLower = _ := dif_pos hupper
      rw [hchar]
      show (c.val + 32).toNat = c.val.toNat + 32
      rw [UInt32.toNat_add]
      exact Nat.mod_eq_of_lt (by have : c.val.toNat ≤ 90 := hhigh; simp; omega)
    rw [isBlank_eq_false_of_ascii (by omega) (by omega),
      isBlank_eq_false_of_ascii (by omega) (by omega)]
  · have hchar : c.toLower = c := dif_neg hupper
    rw [hchar]

/-- Trimming and lowering the case commute. -/
theorem trim_map_toLower (cs : List Char) :
    trim (cs.map Char.toLower) = (trim cs).map Char.toLower := by
  have hcomp : isBlank ∘ Char.toLower = isBlank := funext isBlank_toLower
  simp only [trim, trimStart, trimEnd, List.dropWhile_map, ← List.map_reverse, hcomp]

/-- The characters of a name, whatever its letter case. -/
theorem not_mem_of_map_toLower {name : String} (h : w.map Char.toLower = name.toList)
    (hc : c.toLower ∉ name.toList) : c ∉ w := by
  intro hmem
  rw [← h] at hc
  exact hc (List.mem_map_of_mem hmem)

/-! ## Words -/

theorem words_of_word (h : Word w) : words w = [w] := by
  rw [words, List.splitOnP_eq_singleton h.2]
  simp [h.1]

/-- A text is split at a blank. -/
theorem words_append_cons (hc : isBlank c = true) :
    words (xs ++ c :: ys) = words xs ++ words ys := by
  rw [words, List.splitOnP_append_cons xs ys hc, List.filter_append, words, words]

theorem words_nil : words [] = [] := rfl

theorem words_cons (hc : isBlank c = true) : words (c :: cs) = words cs := by
  rw [← List.nil_append (c :: cs), words_append_cons hc, words_nil, List.nil_append]

theorem words_blanks_append (h : Blanks front) : words (front ++ cs) = words cs := by
  induction front with
  | nil => rfl
  | cons c front ih =>
      rw [List.cons_append, words_cons (h c (by simp)), ih fun d hd => h d (by simp [hd])]

theorem words_blanks (h : Blanks cs) : words cs = [] := by
  rw [← List.append_nil cs, words_blanks_append h, words_nil]

theorem words_append_blanks (h : Blanks back) : words (cs ++ back) = words cs := by
  cases back with
  | nil => rw [List.append_nil]
  | cons b r =>
      have hr : Blanks r := fun c hc => h c (by simp [hc])
      rw [words_append_cons (h b (by simp)), words_blanks hr, List.append_nil]

/-- Trimming leaves the words. -/
theorem words_trim (cs : List Char) : words (trim cs) = words cs := by
  obtain ⟨front, back, hfront, hback, hcs⟩ := around_trim cs
  calc words (trim cs)
      = words (front ++ trim cs ++ back) := by
        rw [words_append_blanks hback, words_blanks_append hfront]
    _ = words cs := by rw [← hcs]

/-- A text up to its first blank. -/
theorem exists_unblank (cs : List Char) : ∃ front rest, cs = front ++ rest ∧
    (∀ c ∈ front, isBlank c = false) ∧ ∀ c r, rest = c :: r → isBlank c = true := by
  refine ⟨cs.takeWhile (!isBlank ·), cs.dropWhile (!isBlank ·),
    List.takeWhile_append_dropWhile.symm, fun c hc => by simpa using List.mem_takeWhile_imp hc, ?_⟩
  intro c r hrest
  have hnot := List.head?_dropWhile_not (!isBlank ·) cs
  rw [hrest] at hnot
  simpa using hnot

/-- The word that a text begins with, and what follows it. -/
theorem exists_word_of_cons (hc : isBlank c = false) (cs : List Char) :
    ∃ w rest, c :: cs = w ++ rest ∧ Word w ∧ words (c :: cs) = w :: words rest ∧
      ∀ c r, rest = c :: r → isBlank c = true := by
  obtain ⟨w, rest, hsplit, hall, hhead⟩ := exists_unblank (c :: cs)
  have hword : Word w := by
    refine ⟨?_, hall⟩
    rintro rfl
    simp [hhead c cs hsplit.symm] at hc
  refine ⟨w, rest, hsplit, hword, ?_, hhead⟩
  rw [hsplit]
  cases rest with
  | nil => rw [List.append_nil, words_of_word hword, words_nil]
  | cons b r =>
      have hb := hhead b r rfl
      rw [words_append_cons hb, words_cons hb, words_of_word hword, List.singleton_append]

theorem words_eq_nil_iff : words cs = [] ↔ Blanks cs := by
  refine ⟨fun h => ?_, words_blanks⟩
  induction cs with
  | nil => exact .nil
  | cons c cs ih =>
      cases hc : isBlank c with
      | true =>
          rw [words_cons hc] at h
          simpa [Blanks, hc] using ih h
      | false =>
          obtain ⟨w, rest, -, -, hwords, -⟩ := exists_word_of_cons hc cs
          simp [hwords] at h

/-- The first word of a text with the blanks before it, and what follows it. -/
theorem exists_of_words_eq_cons (h : words cs = w :: ws) :
    ∃ front rest, Blanks front ∧ cs = front ++ w ++ rest ∧ Word w ∧ words rest = ws ∧
      ∀ c r, rest = c :: r → isBlank c = true := by
  induction cs with
  | nil => cases h
  | cons c cs ih =>
      cases hc : isBlank c with
      | true =>
          rw [words_cons hc] at h
          obtain ⟨front, rest, hfront, rfl, hword, hrest, hhead⟩ := ih h
          exact ⟨c :: front, rest, by simpa [Blanks, hc] using hfront, by simp, hword, hrest, hhead⟩
      | false =>
          obtain ⟨word, rest, hsplit, hword, hwords, hhead⟩ := exists_word_of_cons hc cs
          rw [hwords] at h
          obtain ⟨rfl, rfl⟩ := List.cons.inj h
          exact ⟨[], rest, .nil, by simpa using hsplit, hword, rfl, hhead⟩

/-- Two words with blanks between and around them. -/
theorem words_eq_pair_iff {v : List Char} : words cs = [v, w] ↔
    Word v ∧ Word w ∧ ∃ gap, gap ≠ [] ∧ Blanks gap ∧ Around (v ++ gap ++ w) cs := by
  constructor
  · intro h
    obtain ⟨front, rest, hfront, rfl, hv, hrest, hhead⟩ := exists_of_words_eq_cons h
    obtain ⟨gap, back, hgap, rfl, hw, hback, -⟩ := exists_of_words_eq_cons hrest
    refine ⟨hv, hw, gap, ?_, hgap, front, back, hfront, words_eq_nil_iff.mp hback, by simp⟩
    rintro rfl
    obtain ⟨c, r, rfl⟩ := List.exists_cons_of_ne_nil hw.1
    simpa [hw.2 c (by simp)] using hhead c (r ++ back) rfl
  · rintro ⟨hv, hw, gap, hne, hgap, front, back, hfront, hback, rfl⟩
    obtain ⟨b, r, rfl⟩ := List.exists_cons_of_ne_nil hne
    have hr : Blanks r := fun c hc => hgap c (by simp [hc])
    calc words (front ++ (v ++ b :: r ++ w) ++ back)
        = words (v ++ b :: (r ++ w)) := by
          rw [words_append_blanks hback, words_blanks_append hfront, List.append_assoc,
            List.cons_append]
      _ = words v ++ words (r ++ w) := words_append_cons (hgap b (by simp))
      _ = [v, w] := by
          rw [words_blanks_append hr, words_of_word hv, words_of_word hw, List.singleton_append]

/-! ## Numerals -/

/-- A numeral of a number below the limit: decimal digits, leading zeros allowed, and a plus sign
before them or none. -/
def Numeral (limit n : Nat) (cs : List Char) : Prop :=
  n < limit ∧ ∃ digits, (cs = digits ∨ cs = '+' :: digits) ∧ digits ≠ [] ∧
    (∀ c ∈ digits, c.isDigit = true) ∧ n = Nat.ofDigitChars 10 digits 0

theorem readDigits_eq_some_iff {n : Nat} : readDigits cs = some n ↔
    cs ≠ [] ∧ (∀ c ∈ cs, c.isDigit = true) ∧ n = Nat.ofDigitChars 10 cs 0 := by
  have hcond : (!cs.isEmpty && cs.all Char.isDigit) = true ↔
      cs ≠ [] ∧ ∀ c ∈ cs, c.isDigit = true := by simp
  unfold readDigits
  split
  · rename_i hdigits
    obtain ⟨hne, hall⟩ := hcond.mp hdigits
    rw [Option.some.injEq]
    exact ⟨fun h => ⟨hne, hall, h.symm⟩, fun h => h.2.2.symm⟩
  · rename_i hdigits
    constructor
    · intro h
      cases h
    · rintro ⟨hne, hall, -⟩
      exact absurd (hcond.mpr ⟨hne, hall⟩) hdigits

/-- A number is read from its numerals. -/
theorem readUnsigned_eq_some_iff {limit n : Nat} :
    readUnsigned limit cs = some n ↔ Numeral limit n cs := by
  unfold readUnsigned
  simp only [Option.filter_eq_some_iff, decide_eq_true_eq, readDigits_eq_some_iff]
  split
  · rename_i rest
    constructor
    · rintro ⟨hdigits, hlt⟩
      exact ⟨hlt, rest, .inr rfl, hdigits⟩
    · rintro ⟨hlt, digits, rfl | heq, hne, hall, hvalue⟩
      · exact absurd (hall '+' (by simp)) (by decide)
      · cases heq
        exact ⟨⟨hne, hall, hvalue⟩, hlt⟩
  · rename_i hplus
    constructor
    · rintro ⟨hdigits, hlt⟩
      exact ⟨hlt, cs, .inl rfl, hdigits⟩
    · rintro ⟨hlt, digits, rfl | rfl, hne, hall, hvalue⟩
      · exact ⟨⟨hne, hall, hvalue⟩, hlt⟩
      · exact absurd rfl (hplus digits)

/-- A numeral is a word of digits and signs. -/
theorem Numeral.mem {limit n : Nat} (h : Numeral limit n cs) (hc : c ∈ cs) :
    c = '+' ∨ c.isDigit = true := by
  obtain ⟨-, digits, rfl | rfl, -, hall, -⟩ := h
  · exact .inr (hall c hc)
  · exact (List.mem_cons.mp hc).imp_right (hall c)

theorem Numeral.not_mem {limit n : Nat} (h : Numeral limit n cs) (hplus : c ≠ '+')
    (hdigit : c.isDigit = false) : c ∉ cs := by
  intro hc
  rcases h.mem hc with rfl | hmem
  · exact hplus rfl
  · simp [hdigit] at hmem

theorem Numeral.word {limit n : Nat} (h : Numeral limit n cs) : Word cs := by
  refine ⟨?_, fun c hc => ?_⟩
  · obtain ⟨-, digits, rfl | rfl, hne, -, -⟩ := h
    · exact hne
    · exact List.cons_ne_nil _ _
  · rcases h.mem hc with rfl | hdigit
    · rfl
    · obtain ⟨hlow, hhigh⟩ : 48 ≤ c.toNat ∧ c.toNat ≤ 57 := by
        simpa [Char.isDigit, UInt32.le_iff_toNat_le] using hdigit
      exact isBlank_eq_false_of_ascii (by omega) (by omega)

end QubitMapper.Text
