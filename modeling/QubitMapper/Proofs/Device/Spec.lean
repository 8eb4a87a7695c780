import QubitMapper.Device.Spec
import QubitMapper.Proofs.Outcome
import QubitMapper.Proofs.Text

/-!
# The texts of specifications

A specification has many texts: its name in any letter case, its dimensions with a plus sign, with
leading zeros or without, and blanks around the whole and around its parts. Which texts these are is
said here without the reader. The reader reads each of them back, and no others; the one that is
printed is among them.

## Main results

* `Spec.parse_eq_ok_iff`: what is read from a text is what the text stands for.
* `Spec.sized_withDimensions`: dimensions that can be read can be printed.
* `Spec.text_reads_back`: the printed text of what has been read stands for the same.
-/

namespace QubitMapper.Spec

open Text

variable {cs head inner word : List Char} {args raw : Option (List Char)} {name : String}
  {dims : List Nat} {n : Nat} {spec : Spec}

/-! ## The texts of a specification -/

/-- A name in any letter case, with blanks around it. -/
def Named (name : String) (cs : List Char) : Prop :=
  ∃ word, Around word cs ∧ word.map Char.toLower = name.toList

/-- A name, and the text between the parentheses behind it if there are any. -/
def Called (name : String) : Option (List Char) → List Char → Prop
  | none, cs => Named name cs
  | some inner, cs => ∃ head, Named name head ∧ Around (head ++ '(' :: (inner ++ [')'])) cs

/-- A dimension, with blanks around it. -/
def Dimension (n : Nat) (cs : List Char) : Prop :=
  ∃ numeral, Around numeral cs ∧ Numeral limit32 n numeral

/-- Dimensions with commas between them. Without dimensions the parentheses may be there or not. -/
def Listed (dims : List Nat) : Option (List Char) → Prop
  | none => dims = []
  | some inner => dims = [] ∧ Blanks inner ∨
      dims ≠ [] ∧ ∃ items, inner = [','].intercalate items ∧ List.Forall₂ Dimension dims items

/-- A name with dimensions. -/
def Sized (name : String) (dims : List Nat) (cs : List Char) : Prop :=
  ∃ args, Called name args cs ∧ Listed dims args

/-- The texts of a specification. A file name is not empty and has no blanks at its ends; it may
have parentheses, commas and blanks in it. -/
inductive Written : Spec → List Char → Prop
  | path {dims : List Nat} {cs : List Char} (hlength : dims.length ≤ 1)
      (hsized : Sized "path" dims cs) : Written (.path dims[0]?) cs
  | ring {dims : List Nat} {cs : List Char} (hlength : dims.length ≤ 1)
      (hsized : Sized "ring" dims cs) : Written (.ring dims[0]?) cs
  | star {dims : List Nat} {cs : List Char} (hlength : dims.length ≤ 2)
      (hsized : Sized "star" dims cs) : Written (.star dims[0]? dims[1]?) cs
  | grid {dims : List Nat} {cs : List Char} (hlength : dims.length ≤ 2)
      (hsized : Sized "grid" dims cs) : Written (.grid dims[0]? dims[1]?) cs
  | file {name : String} {inner cs : List Char} (hne : name.toList ≠ [])
      (htrim : trim name.toList = name.toList) (hinner : Around name.toList inner)
      (hcalled : Called "file" (some inner) cs) : Written (.file name) cs

/-! ## Calls -/

theorem named_iff (hname : trim name.toList = name.toList) :
    Named name cs ↔ (trim cs).map Char.toLower = name.toList := by
  constructor
  · rintro ⟨word, hword, hlower⟩
    rw [hword.trim_eq, ← trim_map_toLower, hlower, hname]
  · exact fun h => ⟨trim cs, around_trim cs, h⟩

theorem Named.not_mem (h : Named name cs) (hopen : '(' ∉ name.toList) : '(' ∉ cs := by
  obtain ⟨word, hword, hlower⟩ := h
  rw [hword.mem_iff (by decide)]
  exact not_mem_of_map_toLower hlower hopen

/-- A text is split at its first opening parenthesis, if a closing one is at its end. -/
theorem splitCall_eq_ok_iff : splitCall cs = .ok (word, args) ↔
    '(' ∉ cs ∧ word = cs ∧ args = none ∨
      ∃ head inner, '(' ∉ head ∧ cs = head ++ '(' :: (inner ++ [')']) ∧ word = trim head ∧
        args = some (trim inner) := by
  by_cases hmem : '(' ∈ cs
  · obtain ⟨head, rest, rfl, hhead⟩ := List.eq_append_cons_of_mem hmem
    have hsplit : splitCall (head ++ '(' :: rest) = if rest.getLast? = some ')' then
        .ok (trim head, some (trim rest.dropLast)) else .error .unclosed := by
      rw [splitCall, List.contains_eq_mem, decide_eq_true hmem, if_pos rfl,
        takeWhile_append_cons hhead, dropWhile_append_cons hhead, List.drop_one, List.tail_cons]
    rw [hsplit]
    constructor
    · intro h
      split at h
      · rename_i hlast
        obtain ⟨inner, rfl⟩ := List.getLast?_eq_some_iff.mp hlast
        cases h
        exact .inr ⟨head, inner, hhead, rfl, rfl, by rw [List.dropLast_concat]⟩
      · cases h
    · rintro (⟨hnot, -⟩ | ⟨head', inner, hhead', heq, rfl, rfl⟩)
      · exact absurd hmem hnot
      · obtain ⟨rfl, rfl⟩ := append_cons_inj hhead hhead' heq
        rw [if_pos List.getLast?_concat, List.dropLast_concat]
  · rw [splitCall, List.contains_eq_mem, decide_eq_false hmem, if_neg (by decide), Except.ok.injEq,
      Prod.mk.injEq]
    constructor
    · rintro ⟨rfl, rfl⟩
      exact .inl ⟨hmem, rfl, rfl⟩
    · rintro (⟨-, rfl, rfl⟩ | ⟨head, inner, -, rfl, -⟩)
      · exact ⟨rfl, rfl⟩
      · exact absurd (List.mem_append_right head List.mem_cons_self) hmem

/-- A text that is trimmed first is split into the name and what is between the parentheses. -/
theorem called_iff (hopen : '(' ∉ name.toList) (hname : trim name.toList = name.toList) :
    (∃ word, splitCall (trim cs) = .ok (word, args) ∧ word.map Char.toLower = name.toList) ↔
      ∃ raw, Called name raw cs ∧ raw.map trim = args := by
  constructor
  · rintro ⟨word, hsplit, hlower⟩
    rcases splitCall_eq_ok_iff.mp hsplit with ⟨-, rfl, rfl⟩ | ⟨head, inner, -, hcs, rfl, rfl⟩
    · exact ⟨none, (named_iff hname).mpr hlower, rfl⟩
    · exact ⟨some inner, ⟨head, (named_iff hname).mpr hlower, hcs ▸ around_trim cs⟩, rfl⟩
  · rintro ⟨raw, hcalled, rfl⟩
    cases raw with
    | none =>
        have hnot : '(' ∉ trim cs := by
          rw [← (around_trim cs).mem_iff (by decide)]
          exact Named.not_mem hcalled hopen
        exact ⟨trim cs, splitCall_eq_ok_iff.mpr (.inl ⟨hnot, rfl, rfl⟩),
          (named_iff hname).mp hcalled⟩
    | some inner =>
        obtain ⟨head, hnamed, haround⟩ := hcalled
        have htrim : trim cs = trimStart head ++ '(' :: (inner ++ [')']) := by
          rw [haround.trim_eq, trim_append_cons (by decide), trimEnd_append_cons (by decide),
            trimEnd_blanks .nil]
        have hnot : '(' ∉ trimStart head := fun h =>
          hnamed.not_mem hopen ((List.dropWhile_suffix _).subset h)
        refine ⟨trim head, splitCall_eq_ok_iff.mpr
          (.inr ⟨_, inner, hnot, htrim, (trim_trimStart head).symm, rfl⟩),
          (named_iff hname).mp hnamed⟩

/-! ## Dimensions -/

theorem readDimension_eq_ok_iff : readDimension cs = .ok n ↔ Dimension n cs := by
  have hread : readDimension cs = .ok n ↔ readUnsigned limit32 (trim cs) = some n := by
    unfold readDimension
    cases readUnsigned limit32 (trim cs) <;> simp
  rw [hread, readUnsigned_eq_some_iff]
  constructor
  · exact fun h => ⟨trim cs, around_trim cs, h⟩
  · rintro ⟨numeral, haround, hnumeral⟩
    rwa [haround.trim_eq, trim_eq_self hnumeral.word.2]

theorem readDimension_trim (cs : List Char) : readDimension (trim cs) = readDimension cs := by
  rw [readDimension, readDimension, trim_trim]

theorem Dimension.not_mem (h : Dimension n cs) : ',' ∉ cs := by
  obtain ⟨numeral, haround, hnumeral⟩ := h
  rw [haround.mem_iff (by decide)]
  exact hnumeral.not_mem (by decide) (by decide)

/-- Texts between commas are dimensions. -/
theorem mapM_readDimension_eq_ok_iff : (inner.splitOn ',').mapM readDimension = .ok dims ↔
    dims ≠ [] ∧ ∃ items, inner = [','].intercalate items ∧ List.Forall₂ Dimension dims items := by
  have hall : ∀ items : List (List Char), items.mapM readDimension = .ok dims ↔
      List.Forall₂ Dimension dims items := by
    intro items
    simp only [mapM_eq_ok_iff, readDimension_eq_ok_iff]
    exact ⟨List.Forall₂.flip, List.Forall₂.flip⟩
  rw [hall]
  constructor
  · intro h
    refine ⟨?_, inner.splitOn ',', (List.intercalate_splitOn ',').symm, h⟩
    rintro rfl
    exact List.splitOn_ne_nil _ _ (List.forall₂_nil_left_iff.mp h)
  · rintro ⟨hne, items, rfl, hitems⟩
    have hcommas : ∀ item ∈ items, ',' ∉ item := by
      intro item hitem
      obtain ⟨n, -, hn⟩ := forall₂_mem_right hitems hitem
      exact hn.not_mem
    have hsome : items ≠ [] := by
      rintro rfl
      exact hne (List.forall₂_nil_right_iff.mp hitems)
    rwa [List.splitOn_intercalate ',' hcommas hsome]

/-- Blanks list no dimensions. -/
theorem mapM_readDimension_blanks (h : Blanks inner) :
    (inner.splitOn ',').mapM readDimension ≠ .ok dims := by
  have hcomma : ',' ∉ inner := fun hmem => absurd (h ',' hmem) (by decide)
  rw [List.splitOn_eq_singleton hcomma, ne_eq, mapM_eq_ok_iff]
  rintro (_ | ⟨hread, -⟩)
  obtain ⟨numeral, haround, hnumeral⟩ := readDimension_eq_ok_iff.mp hread
  have htrim := haround.trim_eq
  rw [trim_blanks h, trim_eq_self hnumeral.word.2] at htrim
  exact hnumeral.word.1 htrim.symm

/-- Dimensions are read from the texts that list them. -/
theorem readDimensions_eq_ok_iff : readDimensions (raw.map trim) = .ok dims ↔ Listed dims raw := by
  cases raw with
  | none => simp [readDimensions, Listed, eq_comm]
  | some inner =>
      rw [Option.map_some, Listed, ← mapM_readDimension_eq_ok_iff]
      by_cases hblanks : Blanks inner
      · rw [trim_blanks hblanks]
        simp [readDimensions, hblanks, mapM_readDimension_blanks hblanks, eq_comm]
      · have hread : readDimensions (some (trim inner)) =
            ((trim inner).splitOn ',').mapM readDimension := by
          obtain ⟨c, r, hcons⟩ := List.exists_cons_of_ne_nil (mt trim_eq_nil_iff.mp hblanks)
          rw [hcons]
          rfl
        have hitems : ((trim inner).splitOn ',').mapM readDimension =
            (inner.splitOn ',').mapM readDimension := by
          have htrim : readDimension ∘ trim = readDimension := funext readDimension_trim
          have hmap := congrArg (List.mapM readDimension)
            (map_trim_splitOn (c := ',') (by decide) inner)
          simpa only [List.mapM_map, htrim] using hmap
        rw [hread, hitems]
        simp [hblanks]

/-! ## Reading -/

/-- At most two dimensions go with a name, and only one with that of a path or a ring. -/
theorem ofDimensions_eq_ok_iff : ofDimensions name dims = .ok spec ↔
    name = "path" ∧ dims.length ≤ 1 ∧ spec = .path dims[0]? ∨
    name = "ring" ∧ dims.length ≤ 1 ∧ spec = .ring dims[0]? ∨
    name = "star" ∧ dims.length ≤ 2 ∧ spec = .star dims[0]? dims[1]? ∨
    name = "grid" ∧ dims.length ≤ 2 ∧ spec = .grid dims[0]? dims[1]? := by
  have hsecond : dims[1]?.isSome = true ↔ ¬ dims.length ≤ 1 := by simp
  constructor
  · intro h
    unfold ofDimensions at h
    split at h
    · cases h
    · rename_i hlength
      have htwo : dims.length ≤ 2 := Nat.not_lt.mp hlength
      dsimp only at h
      split at h
      · split at h
        · cases h
        · rename_i hone
          cases h
          exact .inl ⟨rfl, not_not.mp (mt hsecond.mpr hone), rfl⟩
      · split at h
        · cases h
        · rename_i hone
          cases h
          exact .inr (.inl ⟨rfl, not_not.mp (mt hsecond.mpr hone), rfl⟩)
      · cases h
        exact .inr (.inr (.inl ⟨rfl, htwo, rfl⟩))
      · cases h
        exact .inr (.inr (.inr ⟨rfl, htwo, rfl⟩))
      · cases h
  · rintro (⟨rfl, hlength, rfl⟩ | ⟨rfl, hlength, rfl⟩ | ⟨rfl, hlength, rfl⟩ | ⟨rfl, hlength, rfl⟩)
    · rw [ofDimensions, if_neg (by omega)]
      exact if_neg fun h => hsecond.mp h hlength
    · rw [ofDimensions, if_neg (by omega)]
      exact if_neg fun h => hsecond.mp h hlength
    · rw [ofDimensions, if_neg (by omega)]
      rfl
    · rw [ofDimensions, if_neg (by omega)]
      rfl

/-- Dimensions behind a name that is not that of a file. -/
theorem read_sized (hopen : '(' ∉ name.toList) (hname : trim name.toList = name.toList)
    (hfile : name ≠ "file") (h : Sized name dims cs) :
    read (trim cs) = ofDimensions name dims := by
  obtain ⟨raw, hcalled, hlisted⟩ := h
  obtain ⟨word, hsplit, hlower⟩ := (called_iff hopen hname).mpr ⟨raw, hcalled, rfl⟩
  unfold read
  rw [hsplit]
  show (if String.ofList (word.map Char.toLower) = "file" then _ else _ : Except _ _) = _
  rw [hlower, String.ofList_toList, if_neg hfile, readDimensions_eq_ok_iff.mpr hlisted]
  rfl

/-- What is read has a name with dimensions or with a file name. -/
theorem written_of_read (h : read (trim cs) = .ok spec) : spec.Written cs := by
  unfold read at h
  obtain ⟨⟨word, args⟩, hsplit, h⟩ := Except.bind_eq_ok.mp h
  have hcall : ∀ {name : String}, String.ofList (word.map Char.toLower) = name →
      '(' ∉ name.toList → trim name.toList = name.toList →
        ∃ raw, Called name raw cs ∧ raw.map trim = args := by
    rintro name rfl hopen hname
    exact (called_iff hopen hname).mp ⟨word, hsplit, String.toList_ofList.symm⟩
  dsimp only at h
  split at h
  · rename_i hfile
    obtain ⟨raw, hcalled, rfl⟩ := hcall hfile (by decide) (by decide)
    split at h
    · rename_i c r hargs
      cases h
      obtain ⟨inner, rfl, hinner⟩ := Option.map_eq_some_iff.mp hargs
      have htext : (String.ofList (c :: r)).toList = trim inner := by
        rw [String.toList_ofList, hinner]
      refine .file ?_ ?_ ?_ hcalled
      · simp
      · rw [htext, trim_trim]
      · rw [htext]
        exact around_trim inner
    · cases h
  · obtain ⟨dims, hdims, h⟩ := Except.bind_eq_ok.mp h
    have hsized : ∀ {name : String}, String.ofList (word.map Char.toLower) = name →
        '(' ∉ name.toList → trim name.toList = name.toList → Sized name dims cs := by
      intro name hword hopen hname
      obtain ⟨raw, hcalled, rfl⟩ := hcall hword hopen hname
      exact ⟨raw, hcalled, readDimensions_eq_ok_iff.mp hdims⟩
    rcases ofDimensions_eq_ok_iff.mp h with ⟨hword, hlength, rfl⟩ | ⟨hword, hlength, rfl⟩ |
      ⟨hword, hlength, rfl⟩ | ⟨hword, hlength, rfl⟩
    · exact .path hlength (hsized hword (by decide) (by decide))
    · exact .ring hlength (hsized hword (by decide) (by decide))
    · exact .star hlength (hsized hword (by decide) (by decide))
    · exact .grid hlength (hsized hword (by decide) (by decide))

/-- A specification is read from each of its texts. -/
theorem Written.read_eq (h : spec.Written cs) : read (trim cs) = .ok spec := by
  cases h with
  | path hlength hsized =>
      rw [read_sized (by decide) (by decide) (by decide) hsized, ofDimensions_eq_ok_iff]
      exact .inl ⟨rfl, hlength, rfl⟩
  | ring hlength hsized =>
      rw [read_sized (by decide) (by decide) (by decide) hsized, ofDimensions_eq_ok_iff]
      exact .inr (.inl ⟨rfl, hlength, rfl⟩)
  | star hlength hsized =>
      rw [read_sized (by decide) (by decide) (by decide) hsized, ofDimensions_eq_ok_iff]
      exact .inr (.inr (.inl ⟨rfl, hlength, rfl⟩))
  | grid hlength hsized =>
      rw [read_sized (by decide) (by decide) (by decide) hsized, ofDimensions_eq_ok_iff]
      exact .inr (.inr (.inr ⟨rfl, hlength, rfl⟩))
  | @file name inner _ hne htrim hinner hcalled =>
      obtain ⟨word, hsplit, hlower⟩ :=
        (called_iff (by decide) (by decide)).mpr ⟨some inner, hcalled, rfl⟩
      obtain ⟨c, r, hname⟩ := List.exists_cons_of_ne_nil hne
      rw [Option.map_some, hinner.trim_eq, htrim, hname] at hsplit
      unfold read
      rw [hsplit]
      show (if String.ofList (word.map Char.toLower) = "file" then _ else _ : Except _ _) = _
      rw [hlower, String.ofList_toList, if_pos rfl]
      show Except.ok (Spec.file (String.ofList (c :: r))) = _
      rw [← hname, String.ofList_toList]

/-- A text is read as what it stands for. -/
theorem parse_eq_ok_iff {s : String} : parse s = .ok spec ↔ spec.Written s.toList := by
  rw [parse, Except.mapError_eq_ok]
  exact ⟨written_of_read, Written.read_eq⟩

/-! ## Printing -/

theorem Listed.lt (h : Listed dims args) : ∀ n ∈ dims, n < limit32 := by
  intro n hn
  cases args with
  | none =>
      cases h
      cases hn
  | some inner =>
      obtain ⟨rfl, -⟩ | ⟨-, items, -, hitems⟩ := h
      · cases hn
      · obtain ⟨item, -, numeral, -, hnumeral⟩ := forall₂_mem_left hitems hn
        exact hnumeral.1

/-- A number below the limit is a dimension as it is printed, with blanks in front or without. -/
theorem dimension_repr (hn : n < limit32) {front : List Char} (hfront : Blanks front) :
    Dimension n (front ++ (Nat.repr n).toList) :=
  ⟨_, ⟨front, [], hfront, .nil, by simp⟩, readUnsigned_eq_some_iff.mp (readUnsigned_repr hn)⟩

/-- Up to two dimensions can be printed behind a name in lower case. -/
theorem sized_withDimensions (hlower : name.toList.map Char.toLower = name.toList)
    (hlength : dims.length ≤ 2) (hlt : ∀ n ∈ dims, n < limit32) :
    Sized name dims (withDimensions name dims[0]? dims[1]?).toList := by
  have hnamed : Named name name.toList := ⟨name.toList, .refl _, hlower⟩
  match dims, hlength, hlt with
  | [], _, _ => exact ⟨none, hnamed, rfl⟩
  | [a], _, hlt =>
      have ha : Dimension a (Nat.repr a).toList := dimension_repr (hlt a (by simp)) .nil
      refine ⟨some (Nat.repr a).toList, ⟨name.toList, hnamed, ?_⟩,
        .inr ⟨by simp, [_], ?_, .cons ha .nil⟩⟩
      · simp [withDimensions, toString, Around.refl]
      · simp
  | [a, b], _, hlt =>
      have ha : Dimension a (Nat.repr a).toList := dimension_repr (hlt a (by simp)) .nil
      have hblank : Blanks [' '] := by simp [Blanks, isBlank, blankCodes]
      have hb : Dimension b ([' '] ++ (Nat.repr b).toList) :=
        dimension_repr (hlt b (by simp)) hblank
      refine ⟨some ((Nat.repr a).toList ++ ',' :: ' ' :: (Nat.repr b).toList),
        ⟨name.toList, hnamed, ?_⟩, .inr ⟨by simp, [_, _], ?_, .cons ha (.cons hb .nil)⟩⟩
      · simp [withDimensions, toString, Around.refl]
      · simp

/-- What has a text has the one that is printed. -/
theorem Written.text (h : spec.Written cs) : spec.Written spec.text.toList := by
  have hsized : ∀ {name : String} {dims : List Nat}, Sized name dims cs → dims.length ≤ 2 →
      name.toList.map Char.toLower = name.toList →
        Sized name dims (withDimensions name dims[0]? dims[1]?).toList :=
    fun ⟨_, _, hlisted⟩ hlength hlower => sized_withDimensions hlower hlength hlisted.lt
  have hsingle : ∀ {name : String} {dims : List Nat}, Sized name dims cs → dims.length ≤ 1 →
      name.toList.map Char.toLower = name.toList →
        Sized name dims (withDimensions name dims[0]? none).toList := by
    intro name dims h hlength hlower
    have hnone : dims[1]? = none := List.getElem?_eq_none hlength
    exact hnone ▸ hsized h (Nat.le_succ_of_le hlength) hlower
  cases h with
  | path hlength h => exact .path hlength (hsingle h hlength (by decide))
  | ring hlength h => exact .ring hlength (hsingle h hlength (by decide))
  | star hlength h => exact .star hlength (hsized h hlength (by decide))
  | grid hlength h => exact .grid hlength (hsized h hlength (by decide))
  | @file name inner _ hne htrim _ _ =>
      have hcalled : Called "file" (some name.toList) (Spec.file name).text.toList := by
        refine ⟨"file".toList, ⟨_, .refl _, by decide⟩, ?_⟩
        simp [Spec.text, toString, Around.refl]
      exact .file hne htrim (.refl _) hcalled

/-- A text is read as a specification if it is one of its texts. The specification that has been
read can be printed, and the printed text is read as the same specification, which is printed the
same way. -/
theorem text_reads_back :
    (∀ (s : String) (spec : Spec), parse s = .ok spec ↔ spec.Written s.toList) ∧
    ∀ (s : String) (spec : Spec), parse s = .ok spec →
      ∃ again, parse spec.text = .ok again ∧ again = spec ∧ again.text = spec.text := by
  refine ⟨fun _ _ => parse_eq_ok_iff, fun s spec h => ⟨spec, ?_, rfl, rfl⟩⟩
  exact parse_eq_ok_iff.mpr (parse_eq_ok_iff.mp h).text

/-- Capitals, signs and blanks in dimensions, and a file name with parentheses, a comma and a blank
in it. -/
theorem text_reads_back_awkward :
    parse "\tGRID ( +03 ,\u2003004 )\n" = .ok (.grid (some 3) (some 4)) ∧
      (Spec.grid (some 3) (some 4)).text = "grid(3, 4)" ∧
      (∃ again, parse "grid(3, 4)" = .ok again ∧ again = .grid (some 3) (some 4) ∧
        again.text = "grid(3, 4)") ∧
    parse "File( (a, é)).txt )" = .ok (.file "(a, é)).txt") ∧
      (Spec.file "(a, é)).txt").text = "file((a, é)).txt)" ∧
      ∃ again, parse "file((a, é)).txt)" = .ok again ∧ again = .file "(a, é)).txt" ∧
        again.text = "file((a, é)).txt)" := by
  have hgrid : parse "\tGRID ( +03 ,\u2003004 )\n" = .ok (.grid (some 3) (some 4)) := by
    decide +kernel
  have hfile : parse "File( (a, é)).txt )" = .ok (.file "(a, é)).txt") := by decide +kernel
  have htext : (Spec.grid (some 3) (some 4)).text = "grid(3, 4)" := by decide +kernel
  have hname : (Spec.file "(a, é)).txt").text = "file((a, é)).txt)" := by decide +kernel
  refine ⟨hgrid, htext, ?_, hfile, hname, ?_⟩
  · rw [← htext]
    exact text_reads_back.2 _ _ hgrid
  · rw [← hname]
    exact text_reads_back.2 _ _ hfile

end QubitMapper.Spec
