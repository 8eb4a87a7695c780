import QubitMapper.Device.Description
import QubitMapper.Proofs.Outcome
import QubitMapper.Proofs.Text

/-!
# The format of device descriptions

The format is given by the texts of a line, with all that is free in them: the blanks, the letter
case of the headers, the comments and the ends of the lines. The reader reads each of these texts
back, and no others.

## Main results

* `Description.readLine_eq_ok_iff`: what is read from a line is what the line says.
* `Description.exists_parse_eq_badLine`: the line that is reported is the first that says nothing.
* `Description.exists_describes`: the format has room for all numbers below its limits.
* `Device.parse_reads_format`: descriptions stand for the device with their edges, and what is not a
  description is rejected.
-/

namespace QubitMapper

namespace Description

open Text

variable {body raw key value cs : List Char} {rows : List (List Char)} {l : Line}
  {lines : List Line} {n : Nat}

/-! ## The texts of a line -/

/-- A line is a body and a comment, or a body alone. -/
def Uncommented (body raw : List Char) : Prop :=
  raw = body ∨ ∃ comment, raw = body ++ '#' :: comment

/-- A header: its name in any letter case, a colon, and a number below the limit. -/
def Header (name : String) (limit n : Nat) (body : List Char) : Prop :=
  ∃ key word value numeral, body = key ++ ':' :: value ∧ Around word key ∧
    word.map Char.toLower = name.toList ∧ Around numeral value ∧ Numeral limit n numeral

/-- The bodies of a line. -/
def Line.Spelled : Line → List Char → Prop
  | .blank, body => Blanks body
  | .nodes n, body => Header "number of nodes" limit32 n body
  | .edges n, body => Header "number of edges" limit64 n body
  | .edge a b, body => ∃ first gap second, Numeral limit32 a first ∧ Numeral limit32 b second ∧
      gap ≠ [] ∧ Blanks gap ∧ Around (first ++ gap ++ second) body

/-- The texts of a line. -/
def Line.Written (l : Line) (raw : List Char) : Prop :=
  ∃ body, Uncommented body raw ∧ l.Spelled body

/-- The lines of a text, without their ends. -/
def rowsOf (text : String) : List (List Char) := text.toList.splitOn '\n'

/-- A text has rows, each ended by a line feed or by a carriage return and a line feed. The last one
need not be ended. -/
inductive Rows : List (List Char) → List Char → Prop
  | nil : Rows [] []
  | unended {row : List Char} : '\n' ∉ row → Rows [row] row
  | feed {row cs : List Char} {rows : List (List Char)} :
      '\n' ∉ row → Rows rows cs → Rows (row :: rows) (row ++ '\n' :: cs)
  | returnFeed {row cs : List Char} {rows : List (List Char)} :
      '\n' ∉ row → Rows rows cs → Rows (row :: rows) (row ++ '\r' :: '\n' :: cs)

/-- A text describes a device: its lines are the header with the number of nodes, the header with
the number of edges or not, the edges, and blank ones, in any order. -/
def Describes (count : Nat) (listed : List (Nat × Nat)) (text : String) : Prop :=
  ∃ lines rows, Rows rows text.toList ∧ List.Forall₂ Line.Written lines rows ∧
    lines.filterMap Line.nodes? = [count] ∧ lines.filterMap Line.edge? = listed ∧
    (lines.filterMap Line.edges? = [] ∨ lines.filterMap Line.edges? = [listed.length])

/-! ## Headers -/

/-- A body with a colon is a header if its name is before the first colon and its number behind. -/
theorem header_iff {name : String} {limit : Nat} (hkey : ':' ∉ key) (hcolon : ':' ∉ name.toList)
    (hname : trim name.toList = name.toList) : Header name limit n (key ++ ':' :: value) ↔
      (trim key).map Char.toLower = name.toList ∧ readUnsigned limit (trim value) = some n := by
  constructor
  · rintro ⟨key', word, value', numeral, hbody, hword, hlower, hnumeral, hnumber⟩
    have hcolon' : ':' ∉ key' := by
      rw [hword.mem_iff (by decide)]
      exact not_mem_of_map_toLower hlower hcolon
    obtain ⟨rfl, rfl⟩ := append_cons_inj hkey hcolon' hbody
    constructor
    · rw [hword.trim_eq, ← trim_map_toLower, hlower, hname]
    · rw [hnumeral.trim_eq, trim_eq_self hnumber.word.2, readUnsigned_eq_some_iff]
      exact hnumber
  · rintro ⟨hlower, hnumber⟩
    exact ⟨key, trim key, value, trim value, rfl, around_trim key, hlower, around_trim value,
      readUnsigned_eq_some_iff.mp hnumber⟩

theorem Header.append {name : String} {limit : Nat} (h : Header name limit n body)
    (hback : Blanks cs) : Header name limit n (body ++ cs) := by
  obtain ⟨key, word, value, numeral, rfl, hword, hlower, hvalue, hnumber⟩ := h
  exact ⟨key, word, value ++ cs, numeral, by simp, hword, hlower, hvalue.append hback, hnumber⟩

theorem Header.colon_mem {name : String} {limit : Nat} (h : Header name limit n body) :
    ':' ∈ body := by
  obtain ⟨key, word, value, numeral, rfl, -⟩ := h
  simp

/-- What an edge line does not hold: anything but digits, signs and blanks. -/
theorem Line.Spelled.not_mem_edge {a b : Nat} {c : Char} (h : (Line.edge a b).Spelled body)
    (hplus : c ≠ '+') (hdigit : c.isDigit = false) (hblank : isBlank c = false) : c ∉ body := by
  obtain ⟨first, gap, second, hfirst, hsecond, -, hgap, haround⟩ := h
  have hnot : c ∉ gap := fun hmem => by simp [hgap c hmem] at hblank
  rw [haround.mem_iff hblank]
  simp [hnot, hfirst.not_mem hplus hdigit, hsecond.not_mem hplus hdigit]

/-- What a body with a colon says. -/
theorem spelled_append_cons_iff (hkey : ':' ∉ key) : l.Spelled (key ++ ':' :: value) ↔
    (∃ n, l = .nodes n ∧ (trim key).map Char.toLower = "number of nodes".toList ∧
      readUnsigned limit32 (trim value) = some n) ∨
    ∃ n, l = .edges n ∧ (trim key).map Char.toLower = "number of edges".toList ∧
      readUnsigned limit64 (trim value) = some n := by
  have hmem : ':' ∈ key ++ ':' :: value := by simp
  cases l with
  | blank =>
      have hnot : ¬ Line.blank.Spelled (key ++ ':' :: value) := fun h => by
        simpa using (show isBlank ':' = false by decide).symm.trans (h ':' hmem)
      simp [hnot]
  | nodes n =>
      have hheader : Header "number of nodes" limit32 n (key ++ ':' :: value) ↔ _ :=
        header_iff hkey (by decide) (by decide)
      simpa [Line.Spelled] using hheader
  | edges n =>
      have hheader : Header "number of edges" limit64 n (key ++ ':' :: value) ↔ _ :=
        header_iff hkey (by decide) (by decide)
      simpa [Line.Spelled] using hheader
  | edge a b =>
      have hnot : ¬ (Line.edge a b).Spelled (key ++ ':' :: value) := fun h =>
        h.not_mem_edge (by decide) (by decide) (by decide) hmem
      simp [hnot]

theorem counted_eq_ok_iff (make : Nat → Line) (problem : LineProblem) (count : Option Nat) :
    (match count with
      | some n => Except.ok (make n)
      | none => Except.error problem) = .ok l ↔ ∃ n, l = make n ∧ count = some n := by
  cases count with
  | none => simp
  | some n => simp [eq_comm]

/-- A line with a colon says what its header says. -/
theorem readHeader_eq_ok_iff (hkey : ':' ∉ key) :
    readHeader key value = .ok l ↔ l.Spelled (key ++ ':' :: value) := by
  rw [spelled_append_cons_iff hkey]
  simp only [readHeader]
  split
  · rename_i hnodes
    have hedges : ("number of nodes".toList = "number of edges".toList) = False :=
      eq_false (by decide)
    refine (counted_eq_ok_iff .nodes .badNodeCount _).trans ?_
    simp only [hnodes, hedges, true_and, false_and, and_false, exists_false, or_false]
  · rename_i hnodes
    split
    · rename_i hedges
      refine (counted_eq_ok_iff .edges .badEdgeCount _).trans ?_
      rw [hedges] at hnodes ⊢
      simp only [hnodes, true_and, false_and, and_false, exists_false, false_or]
    · rename_i hedges
      simp only [hnodes, hedges, false_and, and_false, exists_false, or_false, reduceCtorEq]

/-! ## Lines -/

theorem Line.Spelled.not_mem (h : l.Spelled body) : '#' ∉ body := by
  have hheader : ∀ {name limit n}, '#' ∉ name.toList → Header name limit n body → '#' ∉ body := by
    rintro name limit n hname ⟨key, word, value, numeral, rfl, hword, hlower, hnumeral, hnumber⟩
    have hkey : '#' ∉ key := by
      rw [hword.mem_iff (by decide)]
      exact not_mem_of_map_toLower hlower hname
    have hvalue : '#' ∉ value := by
      rw [hnumeral.mem_iff (by decide)]
      exact hnumber.not_mem (by decide) (by decide)
    simp [hkey, hvalue]
  cases l with
  | blank => exact fun hmem => absurd (h _ hmem) (by decide)
  | nodes n => exact hheader (by decide) h
  | edges n => exact hheader (by decide) h
  | edge a b => exact h.not_mem_edge (by decide) (by decide) (by decide)

/-- The text before the comment. -/
theorem takeWhile_eq_of_uncommented (h : Uncommented body raw) (hbody : '#' ∉ body) :
    raw.takeWhile (· != '#') = body := by
  obtain rfl | ⟨comment, rfl⟩ := h
  · exact List.takeWhile_eq_self_iff.mpr fun c hc => bne_iff_ne.mpr (ne_of_mem_of_not_mem hc hbody)
  · exact takeWhile_append_cons hbody

theorem uncommented_takeWhile (raw : List Char) :
    Uncommented (raw.takeWhile (· != '#')) raw := by
  by_cases hmem : '#' ∈ raw
  · obtain ⟨body, comment, rfl, hbody⟩ := List.eq_append_cons_of_mem hmem
    rw [takeWhile_append_cons hbody]
    exact .inr ⟨comment, rfl⟩
  · left
    exact (List.takeWhile_eq_self_iff.mpr fun c hc =>
      bne_iff_ne.mpr (ne_of_mem_of_not_mem hc hmem)).symm

/-- The texts of a line are told by what is before the comment. -/
theorem written_iff : l.Written raw ↔ l.Spelled (raw.takeWhile (· != '#')) := by
  constructor
  · rintro ⟨body, hraw, hspelled⟩
    rwa [takeWhile_eq_of_uncommented hraw hspelled.not_mem]
  · exact fun h => ⟨_, uncommented_takeWhile raw, h⟩

/-- What a body says that is not blank and has no colon. -/
theorem readEdge_eq_ok_iff (hcolon : ':' ∉ body) (hblank : ¬ Blanks body) :
    readEdge body = .ok l ↔ l.Spelled body := by
  constructor
  · intro h
    unfold readEdge at h
    split at h
    · rename_i first second hwords
      split at h
      · rename_i a b hfirst hsecond
        cases h
        obtain ⟨-, -, gap, hne, hgap, haround⟩ := words_eq_pair_iff.mp hwords
        exact ⟨first, gap, second, readUnsigned_eq_some_iff.mp hfirst,
          readUnsigned_eq_some_iff.mp hsecond, hne, hgap, haround⟩
      · cases h
    · cases h
  · intro h
    cases l with
    | blank => exact absurd h hblank
    | nodes n => exact absurd (Header.colon_mem h) hcolon
    | edges n => exact absurd (Header.colon_mem h) hcolon
    | edge a b =>
        obtain ⟨first, gap, second, hfirst, hsecond, hne, hgap, haround⟩ := h
        have hwords : words body = [first, second] :=
          words_eq_pair_iff.mpr ⟨hfirst.word, hsecond.word, gap, hne, hgap, haround⟩
        simp only [readEdge, hwords, readUnsigned_eq_some_iff.mpr hfirst,
          readUnsigned_eq_some_iff.mpr hsecond]

theorem spelled_iff_of_blanks (h : Blanks body) : l.Spelled body ↔ l = .blank := by
  have hcolon : ':' ∉ body := fun hmem => absurd (h ':' hmem) (by decide)
  constructor
  · intro hspelled
    cases l with
    | blank => rfl
    | nodes n => exact absurd (Header.colon_mem hspelled) hcolon
    | edges n => exact absurd (Header.colon_mem hspelled) hcolon
    | edge a b =>
        obtain ⟨first, gap, second, hfirst, -, -, -, haround⟩ := hspelled
        obtain ⟨c, r, rfl⟩ := List.exists_cons_of_ne_nil hfirst.word.1
        have hc := hfirst.word.2 c (by simp)
        have hmem : c ∈ body := (haround.mem_iff hc).mpr (by simp)
        simp [h c hmem] at hc
  · rintro rfl
    exact h

/-- A line is read as what it says. -/
theorem readLine_eq_ok_iff : readLine raw = .ok l ↔ l.Written raw := by
  rw [written_iff]
  simp only [readLine]
  generalize raw.takeWhile (· != '#') = body
  have hempty : (trim body).isEmpty = true ↔ Blanks body := by
    rw [List.isEmpty_iff, trim_eq_nil_iff]
  by_cases hblank : Blanks body
  · rw [if_pos (hempty.mpr hblank), spelled_iff_of_blanks hblank, Except.ok.injEq, eq_comm]
  · rw [if_neg (mt hempty.mp hblank)]
    by_cases hmem : ':' ∈ body
    · obtain ⟨key, value, rfl, hkey⟩ := List.eq_append_cons_of_mem hmem
      have hstart : ':' ∉ trimStart key := fun hcolon =>
        hkey ((List.dropWhile_suffix _).subset hcolon)
      rw [trim_append_cons (by decide), if_pos (by simp), takeWhile_append_cons hstart,
        dropWhile_append_cons hstart, List.drop_one, List.tail_cons, ← readHeader_eq_ok_iff hkey]
      simp only [readHeader, trim_trimStart, trim_trimEnd]
    · have hnot : ':' ∉ trim body := by
        rwa [← (around_trim body).mem_iff (by decide)]
      rw [if_neg (by simpa using hnot), ← readEdge_eq_ok_iff hmem hblank, readEdge, readEdge,
        words_trim]

/-- A line says one thing. -/
theorem Line.written_leftUnique : Relator.LeftUnique Line.Written := by
  intro l raw l' h h'
  rw [← readLine_eq_ok_iff] at h h'
  rw [h] at h'
  exact Except.ok.inj h'

/-- A line can end in a blank more. -/
theorem Line.Written.append (h : l.Written raw) (hback : Blanks cs) : l.Written (raw ++ cs) := by
  have hspelled : ∀ {body}, l.Spelled body → l.Spelled (body ++ cs) := by
    intro body hbody
    cases l with
    | blank => exact Blanks.append hbody hback
    | nodes n => exact Header.append hbody hback
    | edges n => exact Header.append hbody hback
    | edge a b =>
        obtain ⟨first, gap, second, hfirst, hsecond, hne, hgap, haround⟩ := hbody
        exact ⟨first, gap, second, hfirst, hsecond, hne, hgap, haround.append hback⟩
  obtain ⟨body, rfl | ⟨comment, rfl⟩, hbody⟩ := h
  · exact ⟨raw ++ cs, .inl rfl, hspelled hbody⟩
  · exact ⟨body, .inr ⟨comment ++ cs, by simp⟩, hbody⟩

/-! ## Texts -/

theorem readLines_cons_ok (first : Nat) (h : readLine raw = .ok l) :
    readLines first (raw :: rows) = (readLines (first + 1) rows).map (l :: ·) := by
  rw [readLines, h]
  rfl

theorem readLines_cons_error (first : Nat) {problem : LineProblem}
    (h : readLine raw = .error problem) :
    readLines first (raw :: rows) = .error (.badLine first problem) := by
  rw [readLines, h]

/-- The lines of a text are read if each of them says something. -/
theorem readLines_eq_ok_iff (first : Nat) :
    readLines first rows = .ok lines ↔ List.Forall₂ Line.Written lines rows := by
  induction rows generalizing first lines with
  | nil => rw [readLines, Except.ok.injEq, List.forall₂_nil_right_iff, eq_comm]
  | cons raw rows ih =>
      cases hline : readLine raw with
      | error problem =>
          have hnot : ¬ List.Forall₂ Line.Written lines (raw :: rows) := by
            rintro (_ | ⟨hwritten, -⟩)
            rw [readLine_eq_ok_iff.mpr hwritten] at hline
            cases hline
          simp [readLines_cons_error first hline, hnot]
      | ok line =>
          rw [readLines_cons_ok first hline]
          constructor
          · intro h
            cases hrest : readLines (first + 1) rows with
            | error e => simp [hrest, Except.map] at h
            | ok rest =>
                rw [hrest] at h
                cases h
                exact .cons (readLine_eq_ok_iff.mp hline) ((ih _).mp hrest)
          · rintro (_ | ⟨hwritten, hrest⟩)
            rw [readLine_eq_ok_iff.mpr hwritten, Except.ok.injEq] at hline
            rw [(ih _).mpr hrest, hline]
            rfl

/-- Else the first line is reported that says nothing. -/
theorem readLines_eq_error_iff (first : Nat) {e : DeviceError} :
    readLines first rows = .error e ↔ ∃ before raw after problem, rows = before ++ raw :: after ∧
      (∀ row ∈ before, ∃ l : Line, l.Written row) ∧ readLine raw = .error problem ∧
      e = .badLine (first + before.length) problem := by
  induction rows generalizing first with
  | nil => simp [readLines]
  | cons raw rows ih =>
      cases hline : readLine raw with
      | error problem =>
          rw [readLines_cons_error first hline, Except.error.injEq]
          constructor
          · rintro rfl
            exact ⟨[], raw, rows, problem, rfl, by simp, hline, rfl⟩
          · rintro ⟨before, raw', after, problem', hrows, hbefore, hline', rfl⟩
            cases before with
            | nil =>
                cases hrows
                rw [hline, Except.error.injEq] at hline'
                rw [hline', List.length_nil, Nat.add_zero]
            | cons row before =>
                cases hrows
                obtain ⟨l, hwritten⟩ := hbefore raw (by simp)
                rw [readLine_eq_ok_iff.mpr hwritten] at hline
                cases hline
      | ok line =>
          have hrest : readLines first (raw :: rows) = .error e ↔
              readLines (first + 1) rows = .error e := by
            rw [readLines_cons_ok first hline]
            cases readLines (first + 1) rows <;> simp [Except.map]
          rw [hrest, ih]
          constructor
          · rintro ⟨before, raw', after, problem, rfl, hbefore, hline', rfl⟩
            refine ⟨raw :: before, raw', after, problem, rfl, ?_, hline', ?_⟩
            · exact List.forall_mem_cons.mpr ⟨⟨line, readLine_eq_ok_iff.mp hline⟩, hbefore⟩
            · rw [List.length_cons, Nat.add_right_comm, Nat.add_assoc]
          · rintro ⟨before, raw', after, problem, hrows, hbefore, hline', rfl⟩
            cases before with
            | nil =>
                cases hrows
                rw [hline] at hline'
                cases hline'
            | cons row before =>
                cases hrows
                refine ⟨before, raw', after, problem, rfl,
                  fun row hrow => hbefore row (List.mem_cons_of_mem _ hrow), hline', ?_⟩
                rw [List.length_cons, Nat.add_right_comm, Nat.add_assoc]

/-- The lines between line feeds are the rows of a text, and a blank one if the last row is ended,
with one blank more where a carriage return is before the line feed. -/
theorem Rows.written (h : Rows rows cs) (hlines : List.Forall₂ Line.Written lines rows) :
    ∃ lines', List.Forall₂ Line.Written lines' (cs.splitOn '\n') ∧
      (lines' = lines ∨ lines' = lines ++ [.blank]) := by
  induction h generalizing lines with
  | nil =>
      cases hlines
      exact ⟨[.blank], .cons ⟨[], .inl rfl, .nil⟩ .nil, .inr rfl⟩
  | unended hrow =>
      rw [List.splitOn_eq_singleton hrow]
      exact ⟨lines, hlines, .inl rfl⟩
  | feed hrow _ ih =>
      cases hlines with
      | cons hwritten hrest =>
          obtain ⟨rest, hread, hsame⟩ := ih hrest
          rw [List.splitOn_append_cons_self_of_not_mem hrow]
          exact ⟨_ :: rest, .cons hwritten hread, by simpa using hsame⟩
  | @returnFeed row cs rows hrow _ ih =>
      cases hlines with
      | cons hwritten hrest =>
          obtain ⟨rest, hread, hsame⟩ := ih hrest
          have hreturn : Blanks ['\r'] := by simp [Blanks, isBlank, blankCodes]
          have hsplit : row ++ '\r' :: '\n' :: cs = (row ++ ['\r']) ++ '\n' :: cs := by simp
          rw [hsplit, List.splitOn_append_cons_self_of_not_mem (by simpa using hrow)]
          exact ⟨_ :: rest, .cons (hwritten.append hreturn) hread, by simpa using hsame⟩

/-- Blank lines do not count. -/
theorem build_append_blank (lines : List Line) : build (lines ++ [.blank]) = build lines := by
  have hnodes : [Line.blank].filterMap Line.nodes? = [] := rfl
  have hedges : [Line.blank].filterMap Line.edges? = [] := rfl
  have hedge : [Line.blank].filterMap Line.edge? = [] := rfl
  simp only [build, List.filterMap_append, hnodes, hedges, hedge, List.append_nil]

/-- The lines that stand for a device. Of a repeated header the last one counts. -/
theorem build_eq_ok_iff {d : Device} : build lines = .ok d ↔
    ∃ count, (lines.filterMap Line.nodes?).getLast? = some count ∧
      (∀ m, (lines.filterMap Line.edges?).getLast? = some m →
        m = (lines.filterMap Line.edge?).length) ∧
      Device.ofEdges count (lines.filterMap Line.edge?) = .ok d := by
  unfold build
  cases hnodes : (lines.filterMap Line.nodes?).getLast? with
  | none => simp
  | some count =>
      cases hedges : (lines.filterMap Line.edges?).getLast? with
      | none => simp
      | some declared =>
          by_cases hcount : declared = (lines.filterMap Line.edge?).length
          · simp [hcount]
          · simp [hcount]

theorem parse_eq_bind (text : String) :
    Device.parse text = readLines 1 (rowsOf text) >>= build := rfl

/-- The texts that are accepted, and the devices they stand for. -/
theorem parse_eq_ok_iff {text : String} {d : Device} : Device.parse text = .ok d ↔
    ∃ lines, List.Forall₂ Line.Written lines (rowsOf text) ∧ build lines = .ok d := by
  rw [parse_eq_bind, Except.bind_eq_ok]
  simp only [readLines_eq_ok_iff]

/-- A description stands for the device with its edges. -/
theorem Describes.parse_eq {count : Nat} {listed : List (Nat × Nat)} {text : String}
    (h : Describes count listed text) : Device.parse text = Device.ofEdges count listed := by
  obtain ⟨lines, rows, hrows, hlines, hnodes, hlisted, hedges⟩ := h
  obtain ⟨lines', hread, hsame⟩ := hrows.written hlines
  have hbuild : build lines' = build lines := by
    obtain rfl | rfl := hsame
    · rfl
    · exact build_append_blank lines
  have hparse : Device.parse text = build lines' := by
    rw [parse_eq_bind, rowsOf, (readLines_eq_ok_iff 1).mpr hread]
    rfl
  rw [hparse, hbuild, build, hnodes, hlisted]
  obtain hnone | hsome := hedges
  · rw [hnone]
    rfl
  · rw [hsome]
    exact if_pos rfl

theorem Rows.ended (h : ∀ row ∈ rows, '\n' ∉ row) : Rows rows (rows.flatMap (· ++ ['\n'])) := by
  induction rows with
  | nil => exact .nil
  | cons row rows ih =>
      rw [List.forall_mem_cons] at h
      have hcons : (row :: rows).flatMap (· ++ ['\n']) =
          row ++ '\n' :: rows.flatMap (· ++ ['\n']) := by simp
      rw [hcons]
      exact .feed h.1 (ih h.2)

/-- There is a description for all numbers that the format has room for. -/
theorem exists_describes {count : Nat} {listed : List (Nat × Nat)} (hcount : count < limit32)
    (hlisted : ∀ e ∈ listed, e.1 < limit32 ∧ e.2 < limit32) :
    ∃ text, Describes count listed text := by
  have hnumeral : ∀ {n}, n < limit32 → Numeral limit32 n (Nat.repr n).toList := fun hn =>
    readUnsigned_eq_some_iff.mp (readUnsigned_repr hn)
  have hfeed : ∀ {n}, n < limit32 → '\n' ∉ (Nat.repr n).toList := fun hn =>
    (hnumeral hn).not_mem (by decide) (by decide)
  let header : List Char := "Number of nodes".toList ++ ':' :: (Nat.repr count).toList
  let row (e : Nat × Nat) : List Char := (Nat.repr e.1).toList ++ [' '] ++ (Nat.repr e.2).toList
  let edges := listed.map fun e => Line.edge e.1 e.2
  have hheader : (Line.nodes count).Written header :=
    ⟨header, .inl rfl, _, _, _, _, rfl, .refl _, by decide, .refl _, hnumeral hcount⟩
  have hedges : List.Forall₂ Line.Written edges (listed.map row) := by
    rw [List.forall₂_map_left_iff, List.forall₂_map_right_iff, List.forall₂_same]
    exact fun e he => ⟨row e, .inl rfl, _, [' '], _, hnumeral (hlisted e he).1,
      hnumeral (hlisted e he).2, by simp, by simp [Blanks, isBlank, blankCodes], .refl _⟩
  have hrows : ∀ r ∈ header :: listed.map row, '\n' ∉ r := by
    refine List.forall_mem_cons.mpr ⟨?_, List.forall_mem_map.mpr fun e he => ?_⟩
    · simpa [header] using hfeed hcount
    · simp only [row, List.mem_append, not_or]
      exact ⟨⟨hfeed (hlisted e he).1, by decide⟩, hfeed (hlisted e he).2⟩
  have hnodes : edges.filterMap Line.nodes? = [] := by
    rw [List.filterMap_map, List.filterMap_eq_nil_iff]
    exact fun _ _ => rfl
  have hcounts : edges.filterMap Line.edges? = [] := by
    rw [List.filterMap_map, List.filterMap_eq_nil_iff]
    exact fun _ _ => rfl
  have hlist : edges.filterMap Line.edge? = listed := by
    rw [List.filterMap_map]
    exact List.filterMap_some
  refine ⟨String.ofList ((header :: listed.map row).flatMap (· ++ ['\n'])), .nodes count :: edges,
    header :: listed.map row, ?_, .cons hheader hedges, ?_, ?_, .inl ?_⟩
  · rw [String.toList_ofList]
    exact Rows.ended hrows
  · rw [List.filterMap_cons, hnodes]
    rfl
  · rw [List.filterMap_cons, hlist]
    rfl
  · rw [List.filterMap_cons, hcounts]
    rfl

/-- A line that says nothing is reported, the first one if there are several. -/
theorem exists_parse_eq_badLine {text : String} {row : List Char} (hrow : row ∈ rowsOf text)
    (hnot : ∀ l : Line, ¬ l.Written row) : ∃ before raw after problem,
      rowsOf text = before ++ raw :: after ∧ (∀ row ∈ before, ∃ l : Line, l.Written row) ∧
      readLine raw = .error problem ∧
      Device.parse text = .error (.badLine (1 + before.length) problem) := by
  cases hread : readLines 1 (rowsOf text) with
  | ok lines =>
      obtain ⟨l, -, hwritten⟩ := forall₂_mem_right ((readLines_eq_ok_iff 1).mp hread) hrow
      exact absurd hwritten (hnot l)
  | error e =>
      obtain ⟨before, raw, after, problem, hrows, hbefore, hline, rfl⟩ :=
        (readLines_eq_error_iff 1).mp hread
      refine ⟨before, raw, after, problem, hrows, hbefore, hline, ?_⟩
      rw [parse_eq_bind, hread]
      rfl

end Description

/-! ## Descriptions -/

open Description

/-- A description of a device stands for the device with the listed edges, if there is one. A text
is rejected if a line of it says nothing, and if no line of it is a header with the number of nodes.
Where every line says something it is rejected if the last header with the number of edges has
another number than there are edges. -/
theorem Device.parse_reads_format :
    (∀ (count : Nat) (listed : List (Nat × Nat)) (text : String), Describes count listed text →
      Device.parse text = Device.ofEdges count listed) ∧
    (∀ text : String, (∀ row ∈ rowsOf text, ∀ n, ¬ (Line.nodes n).Written row) →
      ∃ e, Device.parse text = .error e) ∧
    (∀ (text : String) (lines : List Line) (m : Nat),
      List.Forall₂ Line.Written lines (rowsOf text) →
      (lines.filterMap Line.edges?).getLast? = some m → m ≠ (lines.filterMap Line.edge?).length →
        ∃ e, Device.parse text = .error e) ∧
    ∀ (text : String), ∀ row ∈ rowsOf text, (∀ l : Line, ¬ l.Written row) →
      ∃ e, Device.parse text = .error e := by
  refine ⟨fun _ _ _ h => h.parse_eq, fun text hnodes => ?_, fun text lines m hlines hm hne => ?_,
    fun text row hrow hnot => ?_⟩
  · cases hparse : Device.parse text with
    | error e => exact ⟨e, rfl⟩
    | ok d =>
        obtain ⟨lines, hlines, hbuild⟩ := parse_eq_ok_iff.mp hparse
        obtain ⟨count, hcount, -⟩ := build_eq_ok_iff.mp hbuild
        obtain ⟨line, hline, hcount⟩ := List.mem_filterMap.mp (List.mem_of_getLast? hcount)
        obtain ⟨row, hrow, hwritten⟩ := forall₂_mem_left hlines hline
        cases line <;> cases hcount
        exact absurd hwritten (hnodes row hrow count)
  · cases hparse : Device.parse text with
    | error e => exact ⟨e, rfl⟩
    | ok d =>
        obtain ⟨lines', hlines', hbuild⟩ := parse_eq_ok_iff.mp hparse
        obtain ⟨count, -, hcount, -⟩ := build_eq_ok_iff.mp hbuild
        obtain rfl := List.left_unique_forall₂' Line.written_leftUnique hlines hlines'
        exact absurd (hcount m hm) hne
  · obtain ⟨before, raw, after, problem, -, -, -, hparse⟩ := exists_parse_eq_badLine hrow hnot
    exact ⟨_, hparse⟩

/-- Headers after an edge, in capitals and with a comment, and rows that end in several ways. -/
theorem Device.parse_reads_format_threeRows :
    Device.parse "0\t1 # NUMBER: one\r\nNUMBER of edges: +01\n\n Number Of Nodes :2" =
      Device.ofEdges 2 [(0, 1)] ∧
    (∃ e, Device.parse "0 1" = .error e) ∧
    (∃ e, Device.parse "Number of nodes: 2\nNumber of edges: 2\n0 1" = .error e) ∧
    ∃ e, Device.parse "Number of nodes: 2\n0 x" = .error e := by
  refine ⟨?_, ?_, ?_, ?_⟩
  · refine Device.parse_reads_format.1 2 [(0, 1)] _ ⟨[.edge 0 1, .edges 1, .blank, .nodes 2],
      ["0\t1 # NUMBER: one".toList, "NUMBER of edges: +01".toList, [],
        " Number Of Nodes :2".toList], ?_, ?_, rfl, rfl, .inr rfl⟩
    · exact .returnFeed (by decide) (.feed (by decide) (.feed (by decide) (.unended (by decide))))
    · exact (readLines_eq_ok_iff 1).mp (by decide +kernel)
  · refine Device.parse_reads_format.2.1 _ fun row hrow n hn => ?_
    have hone : ∀ row ∈ rowsOf "0 1", readLine row = .ok (.edge 0 1) := by decide +kernel
    have hedge := hone row hrow
    rw [readLine_eq_ok_iff.mpr hn] at hedge
    cases hedge
  · refine Device.parse_reads_format.2.2.1 _ [.nodes 2, .edges 2, .edge 0 1] 2 ?_ rfl (by decide)
    exact (readLines_eq_ok_iff 1).mp (by decide +kernel)
  · refine Device.parse_reads_format.2.2.2 _ "0 x".toList (by decide +kernel) fun l hl => ?_
    have hnot : readLine "0 x".toList = .error .badEndpoint := by decide +kernel
    rw [readLine_eq_ok_iff.mpr hl] at hnot
    cases hnot

/-- A repeated header is read over: the number of edges that the first one gives is not checked. -/
theorem Device.parse_overlooks_count :
    List.Forall₂ Line.Written [.nodes 2, .edges 2, .edges 1, .edge 0 1, .blank]
        (rowsOf "Number of nodes: 2\nNumber of edges: 2\nNumber of edges: 1\n0 1\n") ∧
      ∃ d, Device.parse "Number of nodes: 2\nNumber of edges: 2\nNumber of edges: 1\n0 1\n" =
        .ok d := by
  have hread : readLines 1
      (rowsOf "Number of nodes: 2\nNumber of edges: 2\nNumber of edges: 1\n0 1\n") =
        .ok [.nodes 2, .edges 2, .edges 1, .edge 0 1, .blank] := by decide +kernel
  refine ⟨(readLines_eq_ok_iff 1).mp hread, ?_⟩
  rw [parse_eq_bind, hread]
  exact ⟨_, rfl⟩

end QubitMapper
