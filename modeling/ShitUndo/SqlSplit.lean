import ShitUndo.Text
import ShitUndo.Lib.Scanner

/-!
# Splitting a script into statements

`split_statements` (`db/stmt.rs`): a script is cut at semicolons, except inside quotes, comments
and dollar quotes. The loop is a `Scanner`; its decisions look ahead by one character, and at a
dollar sign by a whole tag.

* `splitStatements_covers`: the pieces of any script, with semicolons and white space around them,
  are the script.
-/

namespace ShitUndo

open List Nat

/-! ## Dollar quotes -/

/-- The tag of a dollar quote. -/
@[ext] structure DollarTag where
  chars : List Char
  isTag : ∀ c ∈ chars, isWordChar c = true
deriving DecidableEq

/-- `$$`. -/
def DollarTag.empty : DollarTag := ⟨[], by simp⟩

/-- A tag with one more letter in front. -/
def DollarTag.cons (c : Char) (h : isWordChar c = true) (tag : DollarTag) : DollarTag :=
  ⟨c :: tag.chars, forall_mem_cons.mpr ⟨h, tag.isTag⟩⟩

/-- What may stand at a position of a tag: no digit in front. -/
def tagCharOk (first : Bool) (c : Char) : Bool :=
  if first then c.isAlpha || c == '_' else isWordChar c

theorem isWordChar_of_tagCharOk {first : Bool} {c : Char} (h : tagCharOk first c = true) :
    isWordChar c = true := by
  cases first with
  | false => exact h
  | true =>
    simp only [tagCharOk, if_true, Bool.or_eq_true] at h
    simp only [isWordChar, Char.isAlphanum, Bool.or_eq_true]
    tauto

/-- `read_dollar_open`, from behind the `$`: letters up to the next `$`. -/
def readDollarOpen (first : Bool) : List Char → Option DollarTag
  | [] => none
  | c :: rest =>
    if c = '$' then some .empty
    else if h : tagCharOk first c = true then
      (readDollarOpen false rest).map (.cons c (isWordChar_of_tagCharOk h))
    else none

/-- `match_dollar_tag`, from behind the `$`: the tag and another `$`. -/
def matchDollarTag (tag : DollarTag) (rest : List Char) : Bool :=
  (tag.chars ++ ['$']).isPrefixOf rest

/-! ## The loop -/

/-- The flags of the loop, of which at most one is set. -/
inductive SplitMode where
  | plain
  | lineComment
  | blockComment
  | dollar (tag : DollarTag)
  | single
  | double
deriving DecidableEq

/-- One turn of the loop outside of quotes and comments. -/
def plainTurn (c : Char) (rest : List Char) : Option (Nat × SplitMode) :=
  if c = '\'' then some (0, .single)
  else if c = '"' then some (0, .double)
  else if c = '-' ∧ rest.head? = some '-' then some (0, .lineComment)
  else if c = '/' ∧ rest.head? = some '*' then some (1, .blockComment)
  else if c = ';' then none
  else some (0, .plain)

/-- One turn of the loop: how many characters are copied after `c`, and the flags then. -/
def splitTurn (mode : SplitMode) (c : Char) (rest : List Char) : Option (Nat × SplitMode) :=
  match mode with
  | .lineComment => some (0, if c = '\n' then .plain else .lineComment)
  | .blockComment =>
    if c = '*' ∧ rest.head? = some '/' then some (1, .plain) else some (0, .blockComment)
  | .dollar tag =>
    if c = '$' ∧ matchDollarTag tag rest = true then some (tag.chars.length + 1, .plain)
    else some (0, .dollar tag)
  | .single =>
    if c = '\'' then
      -- a doubled quote is a quote inside the literal
      if rest.head? = some '\'' then some (1, .single) else some (0, .plain)
    else some (0, .single)
  | .double => some (0, if c = '"' then .plain else .double)
  | .plain =>
    if c = '$' then
      match readDollarOpen true rest with
      | some tag => some (tag.chars.length + 1, .dollar tag)
      | none => plainTurn c rest
    else plainTurn c rest

variable {rest : List Char}

theorem length_le_of_readDollarOpen {first : Bool} {tag : DollarTag}
    (h : readDollarOpen first rest = some tag) : tag.chars.length + 1 ≤ rest.length := by
  induction rest generalizing first tag with
  | nil => simp [readDollarOpen] at h
  | cons c rest ih =>
    rw [readDollarOpen] at h
    by_cases hdollar : c = '$'
    · rw [if_pos hdollar] at h
      cases h
      simp [DollarTag.empty]
    rw [if_neg hdollar] at h
    by_cases hok : tagCharOk first c = true
    · rw [dif_pos hok] at h
      obtain ⟨tag', htag', rfl⟩ := Option.map_eq_some_iff.mp h
      have := ih htag'
      simp only [DollarTag.cons, length_cons]
      omega
    · rw [dif_neg hok] at h
      cases h

theorem length_le_of_matchDollarTag {tag : DollarTag} (h : matchDollarTag tag rest = true) :
    tag.chars.length + 1 ≤ rest.length := by
  have hpre := isPrefixOf_iff_prefix.mp h
  simpa using hpre.length_le

theorem length_pos_of_head? {d : Char} (h : rest.head? = some d) : 1 ≤ rest.length := by
  cases rest with
  | nil => cases h
  | cons c rest => simp

theorem plainTurn_le {c : Char} {n : Nat} {mode : SplitMode}
    (h : plainTurn c rest = some (n, mode)) :
    n ≤ rest.length := by
  unfold plainTurn at h
  split_ifs at h with h₁ h₂ h₃ h₄
  all_goals cases h
  all_goals first | exact zero_le _ | exact length_pos_of_head? h₄.2

theorem splitTurn_le {mode mode' : SplitMode} {c : Char} {n : Nat}
    (h : splitTurn mode c rest = some (n, mode')) : n ≤ rest.length := by
  cases mode with
  | lineComment | double =>
    cases h
    exact zero_le _
  | blockComment =>
    rw [splitTurn] at h
    split_ifs at h with hend
    · cases h
      exact length_pos_of_head? hend.2
    · cases h
      exact zero_le _
  | dollar tag =>
    rw [splitTurn] at h
    split_ifs at h with hend
    · cases h
      exact length_le_of_matchDollarTag hend.2
    · cases h
      exact zero_le _
  | single =>
    rw [splitTurn] at h
    split_ifs at h with hquote hdouble
    · cases h
      exact length_pos_of_head? hdouble
    · cases h
      exact zero_le _
    · cases h
      exact zero_le _
  | plain =>
    rw [splitTurn] at h
    split_ifs at h with hdollar
    · cases hopen : readDollarOpen true rest with
      | none =>
        rw [hopen] at h
        exact plainTurn_le h
      | some tag =>
        rw [hopen] at h
        cases h
        exact length_le_of_readDollarOpen hopen
    · exact plainTurn_le h

/-- What a buffer adds to the result: itself, trimmed, unless that is nothing. -/
def flushStatement (buf : List Char) : List (List Char) :=
  if trim buf = [] then [] else [trim buf]

/-- The loop of `split_statements`. -/
def splitScanner : Scanner Char SplitMode (List Char) where
  start := .plain
  turn := splitTurn
  turn_le := splitTurn_le
  flush := flushStatement

def splitStatements (script : String) : List String :=
  (splitScanner.pieces script.toList).map String.ofList

/-! ## Look-ahead -/

/-- No look-ahead of the loop reads past one of these. -/
def IsStop (c : Char) : Prop := c = ';' ∨ isWhiteSpace c = true

section Lookahead

variable {x d c : Char} {xs tail : List Char}

section

variable (hx : IsStop x)

include hx

theorem IsStop.isWordChar : isWordChar x = false := by
  rcases hx with rfl | hx
  · decide
  · exact isWordChar_of_isWhiteSpace hx

theorem IsStop.ne (hd : ¬ IsStop d) : x ≠ d := by
  rintro rfl
  exact hd hx

instance : DecidablePred IsStop := fun c =>
  inferInstanceAs (Decidable (c = ';' ∨ isWhiteSpace c = true))

theorem head?_append_stop (hd : ¬ IsStop d) :
    (xs ++ x :: tail).head? = some d ↔ xs.head? = some d := by
  cases xs with
  | nil => simp [hx.ne hd]
  | cons c rest => rfl

theorem readDollarOpen_append (first : Bool) :
    readDollarOpen first (xs ++ x :: tail) = readDollarOpen first xs := by
  induction xs generalizing first with
  | nil =>
    have hok : ¬ tagCharOk first x = true := by
      intro hok
      exact Bool.noConfusion ((isWordChar_of_tagCharOk hok).symm.trans hx.isWordChar)
    have hdollar : x ≠ '$' := hx.ne (by decide)
    simp [readDollarOpen, hdollar, hok]
  | cons c rest ih => simp only [cons_append, readDollarOpen, ih]

omit hx in
theorem prefix_append_stop {tag : List Char} (hx : x ∉ tag) :
    tag <+: xs ++ x :: tail ↔ tag <+: xs := by
  induction tag generalizing xs with
  | nil => simp
  | cons a tag ih =>
    rw [mem_cons, not_or] at hx
    cases xs with
    | nil => simp [Ne.symm hx.1]
    | cons b rest => simp [cons_prefix_cons, ih hx.2]

theorem matchDollarTag_append (tag : DollarTag) :
    matchDollarTag tag (xs ++ x :: tail) = matchDollarTag tag xs := by
  have hmem : x ∉ tag.chars ++ ['$'] := by
    intro hmem
    rcases mem_append.mp hmem with hmem | hmem
    · exact Bool.noConfusion ((tag.isTag x hmem).symm.trans hx.isWordChar)
    · exact hx.ne (by decide) (mem_singleton.mp hmem)
  rw [matchDollarTag, matchDollarTag, Bool.eq_iff_iff, isPrefixOf_iff_prefix,
    isPrefixOf_iff_prefix, prefix_append_stop hmem]

theorem plainTurn_append : plainTurn c (xs ++ x :: tail) = plainTurn c xs := by
  simp only [plainTurn, head?_append_stop hx (d := '-') (by decide),
    head?_append_stop hx (d := '*') (by decide)]

theorem splitTurn_append (mode : SplitMode) :
    splitTurn mode c (xs ++ x :: tail) = splitTurn mode c xs := by
  cases mode with
  | lineComment => rfl
  | double => rfl
  | blockComment => simp only [splitTurn, head?_append_stop hx (d := '/') (by decide)]
  | single => simp only [splitTurn, head?_append_stop hx (d := '\'') (by decide)]
  | dollar tag => simp only [splitTurn, matchDollarTag_append hx]
  | plain => simp only [splitTurn, readDollarOpen_append hx, plainTurn_append hx]

end

theorem plainTurn_eq_none : plainTurn c xs = none ↔ c = ';' := by
  unfold plainTurn
  constructor
  · intro h
    split_ifs at h with h₁ h₂ h₃ h₄ h₅
    exact h₅
  · rintro rfl
    rfl

theorem splitTurn_eq_none {mode : SplitMode} :
    splitTurn mode c xs = none ↔ mode = .plain ∧ c = ';' := by
  cases mode with
  | lineComment | double => simp [splitTurn]
  | blockComment | single | dollar tag =>
    rw [splitTurn]
    split_ifs <;> simp
  | plain =>
    rw [splitTurn]
    split_ifs with hdollar
    · subst hdollar
      cases readDollarOpen true xs with
      | none => simp [plainTurn_eq_none]
      | some tag => simp
    · simp [plainTurn_eq_none]

theorem splitScanner_separator : splitScanner.turn .plain ';' tail = none := rfl

/-- **Look-ahead ends at a semicolon and at white space.** -/
theorem splitScanner_stops : splitScanner.Stops IsStop where
  local_turn := fun hx => splitTurn_append hx _
  of_separator := fun h => .inl (splitTurn_eq_none.mp h).2

end Lookahead

/-! ## Statements joined -/

/-- A script that is one statement: it comes back as it is, and ends outside of any quote, comment
or dollar quote. -/
structure IsStatement (stmt : String) : Prop where
  single : splitStatements stmt = [stmt]
  closed : (splitScanner.advance splitScanner.init 0 stmt.toList).mode = .plain

theorem splitStatements_eq_iff {script : String} {stmts : List String} :
    splitStatements script = stmts ↔
      splitScanner.pieces script.toList = stmts.map String.toList := by
  constructor
  · rintro rfl
    simp [splitStatements]
  · intro h
    simp [splitStatements, h]

/-- **Statements joined by semicolons are found again.** -/
theorem splitStatements_join {stmts : List String} (hall : ∀ s ∈ stmts, IsStatement s) :
    splitStatements (";".intercalate stmts) = stmts := by
  rw [splitStatements_eq_iff, String.toList_intercalate]
  induction stmts with
  | nil => decide
  | cons s rest ih =>
    have hs := hall s mem_cons_self
    have hsingle := splitStatements_eq_iff.mp hs.single
    cases rest with
    | nil => simpa [intercalate] using hsingle
    | cons s' rest =>
      have hrest := ih fun s hs => hall s (mem_cons_of_mem _ hs)
      have htext : [';'].intercalate ((s :: s' :: rest).map String.toList) =
          s.toList ++ ';' :: [';'].intercalate ((s' :: rest).map String.toList) := by
        simp [intercalate]
      rw [show ";".toList = [';'] from rfl] at hrest ⊢
      rw [htext, splitScanner_stops.pieces_separator hs.closed splitScanner_separator, hsingle,
        hrest]
      rfl

/-! ## Any script -/

section AnyScript

variable {script text tail : List Char} {mode : SplitMode} {piece gap : List Char}
  {pieces : List (List Char)}

/-- Every script is text without a separator, or such text up to a semicolon and a shorter
script. -/
theorem split_induction {P : List Char → Prop}
    (last : ∀ {text mode}, splitScanner.endMode .plain 0 text = some mode → P text)
    (next : ∀ {text tail}, splitScanner.endMode .plain 0 text = some .plain → P tail →
      P (text ++ ';' :: tail)) (script : List Char) : P script := by
  induction hlen : script.length using Nat.strong_induction_on generalizing script with
  | _ n ih =>
    rcases splitScanner_stops.endMode_cases (m := .plain) (zero_le script.length) with
      ⟨mode, hend⟩ | ⟨text, x, tail, mode, rfl, -, hend, hsep⟩
    · exact last hend
    · obtain ⟨rfl, rfl⟩ := splitTurn_eq_none.mp hsep
      refine next hend (ih tail.length ?_ tail rfl)
      rw [← hlen, length_append, length_cons]
      omega

theorem pieces_next (hend : splitScanner.endMode .plain 0 text = some .plain) :
    splitScanner.pieces (text ++ ';' :: tail) = flushStatement text ++ splitScanner.pieces tail :=
  splitScanner_stops.pieces_append hend splitScanner_separator

theorem endMode_blank {before : List Char} (hblank : Blank before) :
    splitScanner.endMode .plain 0 (before ++ text) = splitScanner.endMode .plain 0 text := by
  induction before with
  | nil => rfl
  | cons w rest ih =>
    have hw : IsStop w := .inr (hblank w mem_cons_self)
    have hplain : splitTurn .plain w (rest ++ text) = some (0, .plain) := by
      have hsemi : w ≠ ';' := by
        rintro rfl
        exact absurd (hblank ';' mem_cons_self) (by decide)
      rw [splitTurn, if_neg (hw.ne (by decide)), plainTurn, if_neg (hw.ne (by decide)),
        if_neg (hw.ne (by decide)), if_neg fun h => hw.ne (by decide) h.1,
        if_neg fun h => hw.ne (by decide) h.1, if_neg hsemi]
    rw [cons_append, Scanner.endMode_copy hplain]
    exact ih fun c hc => hblank c (mem_cons_of_mem _ hc)

theorem endMode_trim (hend : splitScanner.endMode .plain 0 text = some mode) :
    ∃ mode', splitScanner.endMode .plain 0 (trim text) = some mode' := by
  obtain ⟨before, after, hbefore, hafter, htext⟩ := exists_trim text
  rw [htext, endMode_blank hbefore] at hend
  cases after with
  | nil => exact ⟨mode, by simpa using hend⟩
  | cons w rest =>
    have hw : IsStop w := .inr (hafter w mem_cons_self)
    rw [splitScanner_stops.endMode_append hw (zero_le _)] at hend
    obtain ⟨mode', hmode', -⟩ := Option.bind_eq_some_iff.mp hend
    exact ⟨mode', hmode'⟩

/-- A piece is not empty, is trimmed, and is one piece. -/
def IsPiece (piece : List Char) : Prop :=
  piece ≠ [] ∧ trim piece = piece ∧ splitScanner.pieces piece = [piece]

theorem isPiece_of_mem_flush (hend : splitScanner.endMode .plain 0 text = some mode)
    (hmem : piece ∈ flushStatement text) : IsPiece piece := by
  unfold flushStatement at hmem
  split_ifs at hmem with hempty
  · cases hmem
  obtain rfl := mem_singleton.mp hmem
  obtain ⟨mode', hend'⟩ := endMode_trim hend
  have hflush : flushStatement (trim text) = [trim text] := by
    rw [flushStatement, trim_trim, if_neg hempty]
  exact ⟨hempty, trim_trim text, (Scanner.pieces_of_endMode hend').trans hflush⟩

theorem isPiece_of_mem_pieces (hmem : piece ∈ splitScanner.pieces script) : IsPiece piece := by
  induction script using split_induction with
  | last hend =>
    rw [Scanner.pieces_of_endMode hend] at hmem
    exact isPiece_of_mem_flush hend hmem
  | next hend ih =>
    rw [pieces_next hend] at hmem
    rcases mem_append.mp hmem with hmem | hmem
    · exact isPiece_of_mem_flush hend hmem
    · exact ih hmem

/-! ## Nothing is lost -/

/-- Semicolons and white space. -/
def IsGap (gap : List Char) : Prop := ∀ c ∈ gap, IsStop c

/-- A text is pieces with gaps around them, and a semicolon between each two. -/
inductive CutInto : List Char → List (List Char) → Prop
  | gap {gap : List Char} (hgap : IsGap gap) : CutInto gap []
  | last {before piece after : List Char} (hbefore : IsGap before) (hafter : IsGap after) :
      CutInto (before ++ (piece ++ after)) [piece]
  | next {before piece after tail : List Char} {pieces : List (List Char)}
      (hbefore : IsGap before) (hafter : IsGap after) (htail : CutInto tail pieces) :
      CutInto (before ++ (piece ++ (after ++ ';' :: tail))) (piece :: pieces)

theorem Blank.isGap (hblank : Blank text) : IsGap text := fun c hc => .inr (hblank c hc)

theorem IsGap.append (hgap : IsGap gap) (htext : IsGap text) : IsGap (gap ++ text) := by
  intro c hc
  rcases mem_append.mp hc with hc | hc
  · exact hgap c hc
  · exact htext c hc

theorem CutInto.append_left (hgap : IsGap gap) (hcovers : CutInto text pieces) :
    CutInto (gap ++ text) pieces := by
  cases hcovers with
  | gap htext => exact .gap (hgap.append htext)
  | last hbefore hafter =>
    rw [← append_assoc]
    exact .last (hgap.append hbefore) hafter
  | next hbefore hafter htail =>
    rw [← append_assoc]
    exact .next (hgap.append hbefore) hafter htail

theorem trim_eq_nil (hempty : trim text = []) : Blank text := by
  obtain ⟨before, after, hbefore, hafter, htext⟩ := exists_trim text
  rw [hempty, nil_append] at htext
  intro c hc
  rw [htext] at hc
  rcases mem_append.mp hc with hc | hc
  · exact hbefore c hc
  · exact hafter c hc

theorem covers_flush (text : List Char) : CutInto text (flushStatement text) := by
  obtain ⟨before, after, hbefore, hafter, htext⟩ := exists_trim text
  by_cases hempty : trim text = []
  · rw [flushStatement, if_pos hempty]
    exact .gap (trim_eq_nil hempty).isGap
  · have hcovers : CutInto (before ++ (trim text ++ after)) [trim text] :=
      .last hbefore.isGap hafter.isGap
    rw [← htext] at hcovers
    rwa [flushStatement, if_neg hempty]

theorem covers_flush_append (htail : CutInto tail pieces) :
    CutInto (text ++ ';' :: tail) (flushStatement text ++ pieces) := by
  obtain ⟨before, after, hbefore, hafter, htext⟩ := exists_trim text
  by_cases hempty : trim text = []
  · have hgap : IsGap (text ++ [';']) := by
      refine (trim_eq_nil hempty).isGap.append ?_
      intro c hc
      exact .inl (mem_singleton.mp hc)
    rw [flushStatement, if_pos hempty, append_cons]
    exact htail.append_left hgap
  · have hcovers : CutInto (before ++ (trim text ++ (after ++ ';' :: tail)))
        (trim text :: pieces) := .next hbefore.isGap hafter.isGap htail
    have hsame : before ++ (trim text ++ (after ++ ';' :: tail)) = text ++ ';' :: tail := by
      rw [← append_assoc (trim text), ← append_assoc before, ← htext]
    rw [flushStatement, if_neg hempty, ← hsame]
    exact hcovers

/-- **The pieces and the gaps around them are the script.** -/
theorem covers_pieces (script : List Char) : CutInto script (splitScanner.pieces script) := by
  induction script using split_induction with
  | last hend =>
    rw [Scanner.pieces_of_endMode hend]
    exact covers_flush _
  | next hend ih =>
    rw [pieces_next hend]
    exact covers_flush_append ih

end AnyScript

/-! ## The splitter is exact -/

/-- **Splitting is exact.** Statements joined by semicolons are found again. Of any script, each
piece is a non-empty trimmed statement of its own, and the pieces with semicolons and white space
around them are the script. -/
theorem splitStatements_exact :
    (∀ stmts : List String, (∀ s ∈ stmts, IsStatement s) →
      splitStatements (";".intercalate stmts) = stmts) ∧
    ∀ script : String,
      (∀ piece ∈ splitStatements script,
        piece ≠ "" ∧ trim piece.toList = piece.toList ∧ splitStatements piece = [piece]) ∧
      CutInto script.toList ((splitStatements script).map String.toList) := by
  refine ⟨fun stmts hall => splitStatements_join hall, fun script => ⟨?_, ?_⟩⟩
  · intro piece hpiece
    obtain ⟨text, htext, rfl⟩ := mem_map.mp hpiece
    obtain ⟨hne, htrim, hself⟩ := isPiece_of_mem_pieces htext
    refine ⟨?_, ?_, ?_⟩
    · simpa using hne
    · simpa using htrim
    · rw [splitStatements_eq_iff]
      simpa using hself
  · rw [← splitStatements_eq_iff.mp rfl]
    exact covers_pieces script.toList

/-- Two statements, one with a semicolon in a dollar quote. -/
theorem splitStatements_exact_do_block :
    splitStatements (";".intercalate ["DO $a$ x; 'y $a$", "SELECT 'it''s'"]) =
      ["DO $a$ x; 'y $a$", "SELECT 'it''s'"] := by
  refine splitStatements_exact.1 _ ?_
  intro s hs
  rcases mem_cons.mp hs with rfl | hs
  · exact ⟨by decide +kernel, by decide +kernel⟩
  · obtain rfl := mem_singleton.mp hs
    exact ⟨by decide +kernel, by decide +kernel⟩

end ShitUndo
