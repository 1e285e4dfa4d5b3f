import ShitUndo.SqlTokens

/-!
# Which statements are journaled

`classify_statement` (`db/stmt.rs`) tells reading statements, which are dropped, from writing ones.
It looks at the first keyword; after `WITH` it looks for the first verb outside of parentheses.

What a statement does is said separately, on its words outside of quotes and comments: `Writes`
holds where the statement itself, the body of a CTE or what an `EXPLAIN ANALYZE` executes is an
`INSERT`, `UPDATE`, `DELETE` or `MERGE`.

* `writes_recognised`: which writing statements are not taken for reading ones, again by the words
  outside of quotes and comments.
-/

namespace ShitUndo

open List

/-! ## The classifier -/

inductive StatementKind where
  | readOnly
  | mutating
  | unknown
deriving DecidableEq, Repr

/-- What `strip_leading_comments_and_whitespace` is inside of. -/
inductive LeadMode where
  | blank
  | line
  | block
deriving DecidableEq

/-- The loop of `strip_leading_comments_and_whitespace`. -/
def stripLeading : LeadMode → List Char → List Char
  | .blank, '-' :: '-' :: rest => stripLeading .line rest
  | .blank, '/' :: '*' :: rest => stripLeading .block rest
  | .blank, c :: rest => if isWhiteSpace c then stripLeading .blank rest else c :: rest
  | .line, c :: rest => if c = '\n' then stripLeading .blank rest else stripLeading .line rest
  | .block, '*' :: '/' :: rest => stripLeading .blank rest
  | .block, _ :: rest => stripLeading .block rest
  -- a comment without an end leaves nothing
  | _, [] => []

def stripLeadingCommentsAndWhitespace (sql : String) : List Char :=
  stripLeading .blank sql.toList

/-- The loop of `has_word`, both texts in upper case. `prev` is the character before. -/
def hasWordFrom (target : List Char) (prev : Option Char) (skip : Nat) : List Char → Bool
  | [] => false
  | c :: rest =>
    match skip with
    | k + 1 => hasWordFrom target (some c) k rest
    | 0 =>
      if target.isPrefixOf (c :: rest) then
        let beforeOk := prev.all fun b => !isWordChar b
        let afterOk := ((c :: rest).drop target.length).head?.all fun b => !isWordChar b
        if beforeOk && afterOk then true
        else hasWordFrom target (some c) (target.length - 1) rest
      else hasWordFrom target (some c) 0 rest

def hasWord (haystack : List Char) (needle : String) : Bool :=
  hasWordFrom (asciiUpper needle.toList) none 0 (asciiUpper haystack)

/-- The verbs that write rows. -/
def writingVerbs : List String := ["INSERT", "UPDATE", "DELETE", "MERGE"]

/-- The loop of `classify_with_body`: words count only at depth 0. -/
def withBodyFrom (depth : Int) (skip : Nat) : List Char → StatementKind
  | [] => .unknown
  | c :: rest =>
    match skip with
    | k + 1 => withBodyFrom depth k rest
    | 0 =>
      if c = '(' then withBodyFrom (depth + 1) 0 rest
      else if c = ')' then withBodyFrom (depth - 1) 0 rest
      else if depth = 0 ∧ c.isAlpha = true then
        if wordAt c rest = "SELECT" then .readOnly
        else if wordAt c rest ∈ writingVerbs then .mutating
        else withBodyFrom depth (rest.takeWhile isWordChar).length rest
      else withBodyFrom depth 0 rest

def classifyWithBody (rest : List Char) : StatementKind := withBodyFrom 0 0 rest

/-- The keywords that are classified as mutating. -/
def mutatingKeywords : List String :=
  ["INSERT", "UPDATE", "DELETE", "MERGE", "REPLACE", "UPSERT", "TRUNCATE", "CREATE", "DROP",
    "ALTER", "RENAME", "GRANT", "REVOKE", "COMMENT", "VACUUM", "ANALYZE", "REINDEX", "CLUSTER",
    "COPY", "LOAD", "IMPORT", "EXPORT", "CALL", "DO", "BEGIN", "COMMIT", "ROLLBACK", "SAVEPOINT",
    "RELEASE", "SET", "RESET", "PRAGMA", "ATTACH", "DETACH", "VACUUMING", "USE"]

/-- The first keyword of a statement, in upper case. -/
def firstKeyword (sql : String) : String :=
  String.ofList (asciiUpper ((stripLeadingCommentsAndWhitespace sql).takeWhile isWordChar))

/-- What follows the first keyword. -/
def afterKeyword (sql : String) : List Char :=
  (stripLeadingCommentsAndWhitespace sql).dropWhile isWordChar

def classifyStatement (sql : String) : StatementKind :=
  if stripLeadingCommentsAndWhitespace sql = [] then .unknown
  else
    let first := firstKeyword sql
    let rest := afterKeyword sql
    if first = "SELECT" then
      if hasWord rest "INTO" then .mutating else .readOnly
    else if first ∈ ["SHOW", "DESCRIBE", "DESC", "EXPLAIN"] then
      if first = "EXPLAIN" ∧ hasWord rest "INTO" = true then .mutating else .readOnly
    else if first ∈ ["VALUES", "TABLE"] then .readOnly
    else if first = "WITH" then classifyWithBody rest
    else if first ∈ mutatingKeywords then .mutating
    else .unknown

/-! ## What a statement does -/

/-- The words outside of parentheses. -/
def topWords (depth : Int) : List SqlToken → List String
  | [] => []
  | .opening :: rest => topWords (depth + 1) rest
  | .closing :: rest => topWords (depth - 1) rest
  | .word w :: rest => if depth = 0 then w :: topWords depth rest else topWords depth rest
  | .other _ :: rest => topWords depth rest

/-- The verbs a statement behind `WITH` can have. -/
def bodyVerbs : List String := "SELECT" :: writingVerbs

/-- What may stand between `AS` and the body of a CTE. -/
def materializedHints : List (List SqlToken) :=
  [[], [.word "MATERIALIZED"], [.word "NOT", .word "MATERIALIZED"]]

/-- The options with which `EXPLAIN` executes the statement. -/
inductive Analyzes : List SqlToken → Prop
  | keyword : Analyzes [.word "ANALYZE"]
  | verbose : Analyzes [.word "ANALYZE", .word "VERBOSE"]
  | options {options : List SqlToken} (h : SqlToken.word "ANALYZE" ∈ options)
      (hflat : SqlToken.closing ∉ options) : Analyzes (.opening :: options ++ [.closing])

/-- Statements that show something and run nothing of what is in them. -/
def describing : List SqlToken :=
  [.word "EXPLAIN", .word "SHOW", .word "DESCRIBE", .word "DESC", .word "TABLE"]

/-- **A statement that writes**: its verb, the body of a CTE at any depth, or the statement an
`EXPLAIN ANALYZE` executes. -/
inductive Writes : List SqlToken → Prop
  | verb {w : String} {rest : List SqlToken} (hw : w ∈ writingVerbs) : Writes (.word w :: rest)
  | cteStatement {w : String} {rest : List SqlToken}
      (hverb : (topWords 0 rest).find? (· ∈ bodyVerbs) = some w) (hw : w ∈ writingVerbs) :
      Writes (.word "WITH" :: rest)
  | cteBody {w : String} {before hint after : List SqlToken} (hhint : hint ∈ materializedHints)
      (hw : w ∈ writingVerbs) :
      Writes (.word "WITH" :: (before ++ .word "AS" :: hint ++ .opening :: .word w :: after))
  | nestedCteBody {t : SqlToken} {w : String} {before between hint after : List SqlToken}
      (ht : t ∉ describing) (hhint : hint ∈ materializedHints) (hw : w ∈ writingVerbs) :
      Writes (t :: (before ++ .opening :: .word "WITH" ::
        (between ++ .word "AS" :: hint ++ .opening :: .word w :: after)))
  | explained {options stmt : List SqlToken} (hoptions : Analyzes options) (hstmt : Writes stmt) :
      Writes (.word "EXPLAIN" :: (options ++ stmt))

/-! ## The first word -/

section FirstWord

variable {c : Char} {w rest : List Char} {sql : String}

theorem marksFrom_of_plain (h : splitTurn .plain c rest = some (0, .plain)) :
    marksFrom .plain 0 (c :: rest) = (c, true) :: marksFrom .plain 0 rest := by
  rw [marksFrom, h]
  rfl

theorem marksFrom_word (hw : ∀ c ∈ w, isWordChar c = true) :
    marksFrom .plain 0 (w ++ rest) = w.map (·, true) ++ marksFrom .plain 0 rest := by
  induction w with
  | nil => rfl
  | cons c w ih =>
    obtain ⟨hc, hw⟩ := forall_mem_cons.mp hw
    rw [cons_append, marksFrom_of_plain (splitTurn_plain_of_isWordChar hc), ih hw]
    rfl

/-- The mode of the lexer inside a leading comment. -/
def LeadMode.splitMode : LeadMode → SplitMode
  | .blank => .plain
  | .line => .lineComment
  | .block => .blockComment

/-- What is stripped is in comments, or white space. -/
theorem exists_lead (mode : LeadMode) (text : List Char) :
    ∃ lead, marksFrom mode.splitMode 0 text = lead ++ marksFrom .plain 0 (stripLeading mode text) ∧
      ∀ a ∈ lead, a.2 = true → isWhiteSpace a.1 = true := by
  fun_induction stripLeading mode text with
  | case1 rest ih | case2 rest ih | case7 rest ih =>
    obtain ⟨lead, hlead, hall⟩ := ih
    exact ⟨(_, false) :: (_, false) :: lead, congrArg (_ :: _ :: ·) hlead, by simpa using hall⟩
  | case3 c rest h₁ h₂ hws ih =>
    obtain ⟨lead, hlead, hall⟩ := ih
    refine ⟨(c, true) :: lead, ?_, by simpa [hws] using hall⟩
    rw [LeadMode.splitMode, marksFrom_of_plain (splitTurn_plain_of_isWhiteSpace hws)]
    exact congrArg (_ :: ·) hlead
  | case4 | case9 => exact ⟨[], rfl, by simp⟩
  | case5 rest ih =>
    obtain ⟨lead, hlead, hall⟩ := ih
    exact ⟨(_, false) :: lead, congrArg (_ :: ·) hlead, by simpa using hall⟩
  | case6 c rest hnl ih =>
    obtain ⟨lead, hlead, hall⟩ := ih
    refine ⟨(c, false) :: lead, ?_, by simpa using hall⟩
    simp only [LeadMode.splitMode, marksFrom, splitTurn, if_neg hnl]
    exact congrArg (_ :: ·) hlead
  | case8 c rest hend ih =>
    have hopen : ¬ (c = '*' ∧ rest.head? = some '/') := by
      rintro ⟨rfl, hhead⟩
      obtain ⟨rest', rfl⟩ := head?_eq_some_iff.mp hhead
      exact hend rest' rfl rfl
    obtain ⟨lead, hlead, hall⟩ := ih
    refine ⟨(c, false) :: lead, ?_, by simpa using hall⟩
    simp only [LeadMode.splitMode, marksFrom, splitTurn, if_neg hopen]
    exact congrArg (_ :: ·) hlead

theorem endsWord_afterKeyword (sql : String) : EndsWord (afterKeyword sql) := by
  intro c hc
  have hnot := head?_dropWhile_not isWordChar (stripLeadingCommentsAndWhitespace sql)
  rw [show dropWhile isWordChar _ = afterKeyword sql from rfl, hc] at hnot
  simpa using hnot

/-- A statement that begins with a word: comments and white space, the first keyword, the rest. -/
theorem exists_keyword (hne : firstKeyword sql ≠ "") :
    ∃ lead c w, (∀ a ∈ lead, a.2 = true → isWhiteSpace a.1 = true) ∧
      (∀ d ∈ c :: w, isWordChar d = true) ∧
      firstKeyword sql = String.ofList (asciiUpper (c :: w)) ∧
      marksFrom .plain 0 sql.toList =
        lead ++ ((c :: w).map (·, true) ++ marksFrom .plain 0 (afterKeyword sql)) := by
  obtain ⟨lead, hlead, hall⟩ := exists_lead .blank sql.toList
  have hw : ∀ c ∈ (stripLeadingCommentsAndWhitespace sql).takeWhile isWordChar,
      isWordChar c = true := fun c hc => mem_takeWhile_imp hc
  have hsplit : (stripLeadingCommentsAndWhitespace sql).takeWhile isWordChar ++ afterKeyword sql =
      stripLeading .blank sql.toList := takeWhile_append_dropWhile
  rw [← hsplit, marksFrom_word hw] at hlead
  rw [firstKeyword] at hne ⊢
  cases hfirst : (stripLeadingCommentsAndWhitespace sql).takeWhile isWordChar with
  | nil =>
    rw [hfirst] at hne
    exact absurd rfl hne
  | cons c w =>
    rw [hfirst] at hw hlead
    exact ⟨lead, c, w, hall, hw, rfl, hlead⟩

theorem tokens_lead {lead m : List (Char × Bool)}
    (hlead : ∀ a ∈ lead, a.2 = true → isWhiteSpace a.1 = true) :
    tokensFrom 0 (shown (lead ++ m)) = tokensFrom 0 (shown m) := by
  induction lead with
  | nil => rfl
  | cons a lead ih =>
    obtain ⟨ha, hlead⟩ := forall_mem_cons.mp hlead
    refine (tokensFrom_blank ?_).trans (ih hlead)
    dsimp only
    split_ifs with hshown
    · exact ha hshown
    · decide

/-- The first token is the first keyword. -/
theorem sqlTokens_eq (hne : firstKeyword sql ≠ "") :
    sqlTokens sql =
      .word (firstKeyword sql) :: tokensFrom 0 (bareFrom .plain 0 (afterKeyword sql)) := by
  obtain ⟨lead, c, w, hlead, hw, hfirst, hmarks⟩ := exists_keyword hne
  have hbare : EndsWord (bareFrom .plain 0 (afterKeyword sql)) := by
    refine endsWord_masked ?_ (by rw [marksFrom_fst]; exact endsWord_afterKeyword sql)
    rintro ⟨c, _ | _⟩ <;> simp
  have hshown : shown ((c :: w).map (·, true) ++ marksFrom .plain 0 (afterKeyword sql)) =
      c :: w ++ bareFrom .plain 0 (afterKeyword sql) := by
    simp [shown, bareFrom, Function.comp_def]
  rw [sqlTokens, bareFrom, hmarks, tokens_lead hlead, hshown, tokensFrom_word hw hbare, hfirst]

/-- What comes behind the first word. -/
def behindFirst (marks : List (Char × Bool)) : List (Char × Bool) :=
  (marks.dropWhile fun a => !(a.2 && isWordChar a.1)).dropWhile fun a => a.2 && isWordChar a.1

theorem behindFirst_eq (hne : firstKeyword sql ≠ "") :
    behindFirst (marksFrom .plain 0 sql.toList) = marksFrom .plain 0 (afterKeyword sql) := by
  obtain ⟨lead, c, w, hlead, hw, -, hmarks⟩ := exists_keyword hne
  have hskip : ∀ a ∈ lead, (!(a.2 && isWordChar a.1)) = true := by
    rintro ⟨d, b⟩ hmem
    cases b with
    | false => rfl
    | true => simpa using isWordChar_of_isWhiteSpace (hlead _ hmem rfl)
  have hletters : ∀ a ∈ (c :: w).map (·, true), (a.2 && isWordChar a.1) = true := by
    intro a ha
    obtain ⟨d, hd, rfl⟩ := mem_map.mp ha
    exact hw d hd
  have hstop : (marksFrom .plain 0 (afterKeyword sql)).dropWhile
      (fun a => a.2 && isWordChar a.1) = marksFrom .plain 0 (afterKeyword sql) := by
    have hfst := marksFrom_fst .plain 0 (afterKeyword sql)
    cases hrest : marksFrom .plain 0 (afterKeyword sql) with
    | nil => rfl
    | cons a m =>
      rw [hrest] at hfst
      have ha := endsWord_afterKeyword sql a.1 (by rw [← hfst]; rfl)
      rw [dropWhile_cons_of_neg (by simp [ha])]
  rw [hmarks, behindFirst, dropWhile_append_of_pos hskip, map_cons, cons_append,
    dropWhile_cons_of_neg (by simp [hw c mem_cons_self])]
  rw [← cons_append, ← map_cons (f := (·, true)), dropWhile_append_of_pos hletters, hstop]

end FirstWord

/-! ## The walk over parentheses -/

/-- The words `classify_with_body` reads. Parentheses and words in quotes and comments count. -/
def outerWords (depth : Int) (skip : Nat) : List Char → List String
  | [] => []
  | c :: rest =>
    match skip with
    | k + 1 => outerWords depth k rest
    | 0 =>
      if c = '(' then outerWords (depth + 1) 0 rest
      else if c = ')' then outerWords (depth - 1) 0 rest
      else if depth = 0 ∧ c.isAlpha = true then
        wordAt c rest :: outerWords depth (rest.takeWhile isWordChar).length rest
      else outerWords depth 0 rest

/-- The first verb outside of parentheses, as the walk sees it. -/
def outerVerb (rest : List Char) : Option String :=
  (outerWords 0 0 rest).find? fun w => w ∈ bodyVerbs

/-- The verdict on the first verb. -/
def bodyVerdict : Option String → StatementKind
  | none => .unknown
  | some w => if w = "SELECT" then .readOnly else .mutating

theorem withBodyFrom_eq (depth : Int) (skip : Nat) (text : List Char) :
    withBodyFrom depth skip text =
      bodyVerdict ((outerWords depth skip text).find? fun w => w ∈ bodyVerbs) := by
  induction text generalizing depth skip with
  | nil => rfl
  | cons c rest ih =>
    cases skip with
    | succ k => exact ih depth k
    | zero =>
      simp only [withBodyFrom, outerWords]
      split_ifs with hopen hclose hword hselect hwrites
      · exact ih _ _
      · exact ih _ _
      · simp [hselect, bodyVerbs, bodyVerdict]
      · have hmem : wordAt c rest ∈ bodyVerbs := mem_cons_of_mem _ hwrites
        simp [hmem, bodyVerdict, hselect]
      · have hmem : wordAt c rest ∉ bodyVerbs := by
          rw [bodyVerbs, mem_cons, not_or]
          exact ⟨hselect, hwrites⟩
        simp [hmem, ih]
      · exact ih _ _

theorem classifyWithBody_eq_readOnly {rest : List Char} :
    classifyWithBody rest = .readOnly ↔ outerVerb rest = some "SELECT" := by
  rw [classifyWithBody, withBodyFrom_eq, ← outerVerb]
  cases outerVerb rest with
  | none | some w => simp [bodyVerdict]

/-- A word from its first letter on. The walk begins words at letters, so `_select` is `SELECT` to
it. -/
def fromLetter (w : String) : String := String.ofList (w.toList.dropWhile fun c => !c.isAlpha)

/-- The first verb outside of parentheses. -/
def topVerb (depth : Int) (tokens : List SqlToken) : Option String :=
  ((topWords depth tokens).map fromLetter).find? fun w => w ∈ bodyVerbs

section Walk

variable {c : Char} {w rest : List Char}

theorem outerWords_skip (depth : Int) (k : Nat) (text : List Char) :
    outerWords depth k text = outerWords depth 0 (text.drop k) := by
  induction text generalizing k with
  | nil => cases k <;> rfl
  | cons c rest ih =>
    cases k with
    | zero => rfl
    | succ k => exact ih k

theorem outerWords_letter {depth : Int} (hc : isWordChar c = true)
    (hout : ¬ (depth = 0 ∧ c.isAlpha = true)) :
    outerWords depth 0 (c :: rest) = outerWords depth 0 rest := by
  rw [outerWords, if_neg (ne_of_isWordChar hc (by decide)),
    if_neg (ne_of_isWordChar hc (by decide)), if_neg hout]

theorem outerWords_inside {depth : Int} (hdepth : depth ≠ 0) (hw : ∀ d ∈ w, isWordChar d = true) :
    outerWords depth 0 (w ++ rest) = outerWords depth 0 rest := by
  induction w with
  | nil => rfl
  | cons c w ih =>
    obtain ⟨hc, hw⟩ := forall_mem_cons.mp hw
    rw [cons_append, outerWords_letter hc fun h => hdepth h.1, ih hw]

theorem fromLetter_cons (c : Char) (w : List Char) :
    fromLetter (String.ofList (asciiUpper (c :: w))) =
      if c.isAlpha then String.ofList (asciiUpper (c :: w))
      else fromLetter (String.ofList (asciiUpper w)) := by
  rw [fromLetter, String.toList_ofList, asciiUpper, map_cons, dropWhile_cons, isAlpha_toUpper]
  cases c.isAlpha with
  | true => rfl
  | false => simp [fromLetter, asciiUpper]

theorem outerWords_word (hw : ∀ d ∈ w, isWordChar d = true) (hrest : EndsWord rest) :
    (outerWords 0 0 (w ++ rest)).find? (fun w => w ∈ bodyVerbs) =
      if fromLetter (String.ofList (asciiUpper w)) ∈ bodyVerbs then
        some (fromLetter (String.ofList (asciiUpper w)))
      else (outerWords 0 0 rest).find? (fun w => w ∈ bodyVerbs) := by
  induction w with
  | nil =>
    rw [if_neg (by decide)]
    rfl
  | cons c w ih =>
    obtain ⟨hc, hw⟩ := forall_mem_cons.mp hw
    rw [fromLetter_cons]
    cases halpha : c.isAlpha with
    | true =>
      rw [cons_append, outerWords, if_neg (ne_of_isWordChar hc (by decide)),
        if_neg (ne_of_isWordChar hc (by decide)), if_pos ⟨rfl, halpha⟩, wordAt,
        takeWhile_word hw hrest, outerWords_skip, drop_left, find?_cons]
      simp only [if_true]
      split_ifs with hverb
      · simp [hverb]
      · simp [hverb]
    | false =>
      rw [cons_append, outerWords_letter hc (by simp [halpha])]
      exact ih hw

/-- **The walk reads the text word by word**, quotes and comments included. -/
theorem outerVerb_eq_topVerb (text : List Char) :
    outerVerb text = topVerb 0 (tokensFrom 0 text) := by
  suffices hwalk : ∀ depth, (outerWords depth 0 text).find? (fun w => w ∈ bodyVerbs) =
      topVerb depth (tokensFrom 0 text) from hwalk 0
  induction text using word_cases id with
  | hnil => exact fun _ => rfl
  | hsymbol c rest hc ih =>
    intro depth
    replace hc : isWordChar c = false := hc
    have halpha : c.isAlpha = false := by
      rw [isWordChar, Char.isAlphanum, Bool.or_eq_false_iff, Bool.or_eq_false_iff] at hc
      exact hc.1.1
    rw [tokensFrom_symbol hc, outerWords, symbolToken]
    by_cases hopen : c = '('
    · subst hopen
      exact ih (depth + 1)
    by_cases hclose : c = ')'
    · subst hclose
      exact ih (depth - 1)
    rw [if_neg hopen, if_neg hclose, if_neg (by simp [halpha]), if_neg hopen, if_neg hclose]
    split_ifs
    · exact ih depth
    · exact ih depth
  | hword c w rest hw hrest ih =>
    intro depth
    rw [map_id] at hrest
    rw [tokensFrom_word hw hrest]
    by_cases hdepth : depth = 0
    · subst hdepth
      rw [outerWords_word hw hrest, ih, topVerb, topVerb, topWords, if_pos rfl, map_cons,
        find?_cons]
      split_ifs with hverb
      · simp [hverb]
      · simp [hverb]
    · rw [outerWords_inside hdepth hw, ih, topVerb, topVerb, topWords, if_neg hdepth]

/-- What the walk heeds: parentheses and verbs. -/
def isHeeded : SqlToken → Bool
  | .opening | .closing => true
  | .word w => decide (fromLetter w ∈ bodyVerbs)
  | .other _ => false

theorem topVerb_filter (depth : Int) (tokens : List SqlToken) :
    topVerb depth (tokens.filter isHeeded) = topVerb depth tokens := by
  induction tokens generalizing depth with
  | nil => rfl
  | cons t tokens ih =>
    cases t with
    | opening => exact ih (depth + 1)
    | closing => exact ih (depth - 1)
    | other c => exact ih depth
    | word w =>
      have hrest := ih depth
      unfold topVerb at hrest ⊢
      by_cases hverb : fromLetter w ∈ bodyVerbs
      · rw [filter_cons_of_pos (by simpa [isHeeded] using hverb), topWords, topWords]
        split_ifs
        · simp [hverb]
        · exact hrest
      · rw [filter_cons_of_neg (by simpa [isHeeded] using hverb), topWords]
        split_ifs
        · rw [map_cons, find?_cons_of_neg (by simpa using hverb), hrest]
        · exact hrest

end Walk

/-! ## Looking for a word -/

section HasWord

variable {target u r : List Char} {prev : Option Char}

theorem hasWordFrom_symbol {d : Char} (htarget : ∀ c ∈ target, isWordChar c = true)
    (hne : target ≠ []) (hd : isWordChar d = false) :
    hasWordFrom target prev 0 (d :: r) = hasWordFrom target (some d) 0 r := by
  have hnot : target.isPrefixOf (d :: r) = false := by
    cases target with
    | nil => exact absurd rfl hne
    | cons c target =>
      simp [isPrefixOf, ne_of_isWordChar (htarget c mem_cons_self) hd]
  rw [hasWordFrom, hnot]
  rfl

/-- What is before a word's beginning does not matter if it is no letter. -/
theorem hasWordFrom_prev (hprev : prev.all (fun b => !isWordChar b) = true) (text : List Char) :
    hasWordFrom target prev 0 text = hasWordFrom target none 0 text := by
  cases text with
  | nil => rfl
  | cons c rest =>
    rw [hasWordFrom, hasWordFrom, hprev]
    rfl

theorem hasWordFrom_ended (htarget : ∀ c ∈ target, isWordChar c = true) (hne : target ≠ [])
    (hr : EndsWord r) : hasWordFrom target prev 0 r = hasWordFrom target none 0 r := by
  cases r with
  | nil => rfl
  | cons d r =>
    have hd := hr d rfl
    rw [hasWordFrom_symbol htarget hne hd, hasWordFrom_symbol htarget hne hd]

theorem length_le_of_isPrefixOf (htarget : ∀ c ∈ target, isWordChar c = true) (hr : EndsWord r)
    ( hpre : target.isPrefixOf (u ++ r) = true) : target.length ≤ u.length := by
  obtain ⟨tail, htail⟩ := isPrefixOf_iff_prefix.mp hpre
  by_contra hlt
  -- the first character behind `u` would be a letter of the target
  have hget : r.head? = target[u.length]? := by
    rw [head?_eq_getElem?, ← Nat.sub_self u.length, ← getElem?_append_right (le_refl u.length),
      ← htail, getElem?_append_left (by omega)]
  rw [getElem?_eq_getElem (by omega)] at hget
  exact Bool.noConfusion ((htarget _ (getElem_mem _)).symm.trans (hr _ hget))

/-- Inside of a word nothing is found. -/
theorem hasWordFrom_inside (htarget : ∀ c ∈ target, isWordChar c = true) (hne : target ≠ [])
    (hr : EndsWord r) {p : Char} (hp : isWordChar p = true) {k : Nat}
    (hu : ∀ c ∈ u, isWordChar c = true) (hk : k ≤ u.length) :
    hasWordFrom target (some p) k (u ++ r) = hasWordFrom target none 0 r := by
  induction u generalizing p k with
  | nil =>
    obtain rfl : k = 0 := Nat.le_zero.mp hk
    exact hasWordFrom_ended htarget hne hr
  | cons c u ih =>
    obtain ⟨hc, hu⟩ := forall_mem_cons.mp hu
    cases k with
    | succ k => exact ih hc hu (Nat.le_of_succ_le_succ hk)
    | zero =>
      rw [cons_append, hasWordFrom]
      dsimp only
      split_ifs with hpre hboth
      · simp [hp] at hboth
      · refine ih hc hu ?_
        have hle := length_le_of_isPrefixOf (u := c :: u) htarget hr hpre
        simp only [length_cons] at hle
        omega
      · exact ih hc hu (Nat.zero_le _)

theorem hasWordFrom_word (htarget : ∀ c ∈ target, isWordChar c = true) (hne : target ≠ [])
    (hr : EndsWord r) {c : Char} (hu : ∀ d ∈ c :: u, isWordChar d = true) :
    hasWordFrom target none 0 (c :: u ++ r) =
      (decide (c :: u = target) || hasWordFrom target none 0 r) := by
  obtain ⟨hc, hu'⟩ := forall_mem_cons.mp hu
  by_cases heq : c :: u = target
  · have hpre : target.isPrefixOf (c :: (u ++ r)) = true := by
      rw [ isPrefixOf_iff_prefix, ← heq]
      exact prefix_append (c :: u) r
    have hafter :
        (((c :: (u ++ r)).drop target.length).head?.all fun b => !isWordChar b) = true := by
      rw [← heq, show c :: (u ++ r) = (c :: u) ++ r from rfl, drop_left]
      cases r with
      | nil => rfl
      | cons d r => simp [hr d rfl]
    rw [cons_append, hasWordFrom, if_pos hpre]
    simp only [hafter, Option.all_none, Bool.and_self, if_true, heq, decide_true, Bool.true_or]
  · rw [decide_eq_false heq, Bool.false_or, cons_append, hasWordFrom]
    dsimp only
    split_ifs with hpre hboth
    · -- a whole word at the front is the word itself
      exfalso
      have hle := length_le_of_isPrefixOf (u := c :: u) htarget hr hpre
      obtain ⟨tail, htail⟩ := isPrefixOf_iff_prefix.mp hpre
      have hsplit : target ++ tail = (c :: u) ++ r := htail
      obtain ⟨mid, hmid, hrest⟩ : ∃ mid, c :: u = target ++ mid ∧ tail = mid ++ r := by
        rcases append_eq_append_iff.mp hsplit with ⟨mid, hmid, hrest⟩ | ⟨mid, hmid, hrest⟩
        · exact ⟨mid, hmid, hrest⟩
        · have hlen := congrArg length hmid
          simp only [length_append] at hlen
          obtain rfl : mid = [] := length_eq_zero_iff.mp (by omega)
          exact ⟨[], by simpa using hmid.symm, by simpa using hrest.symm⟩
      cases mid with
      | nil => exact heq (by simpa using hmid)
      | cons d mid =>
        have hd : isWordChar d = true := hu d (by rw [hmid]; simp)
        rw [← htail, drop_left, hrest] at hboth
        simp [hd] at hboth
    · refine hasWordFrom_inside htarget hne hr hc hu' ?_
      have hle := length_le_of_isPrefixOf (u := c :: u) htarget hr hpre
      simp only [length_cons] at hle
      omega
    · exact hasWordFrom_inside htarget hne hr hc hu' (Nat.zero_le _)

/-- **`has_word` finds words**, in quotes and comments too. -/
theorem hasWord_iff (text : List Char) :
    hasWord text "INTO" = true ↔ .word "INTO" ∈ tokensFrom 0 text := by
  have htarget : ∀ c ∈ asciiUpper "INTO".toList, isWordChar c = true :=
    forall_mem_of_all (by decide)
  have hne : asciiUpper "INTO".toList ≠ [] := by decide
  have hsame : asciiUpper "INTO".toList = "INTO".toList := by decide
  unfold hasWord
  induction text using word_cases id with
  | hnil => simp [asciiUpper, hasWordFrom, tokensFrom]
  | hsymbol c rest hc ih =>
    replace hc : isWordChar c = false := hc
    have hupper : isWordChar c.toUpper = false := by rw [isWordChar_toUpper, hc]
    have hnone : SqlToken.word "INTO" ∉ symbolToken c := by
      unfold symbolToken
      split_ifs <;> simp
    rw [tokensFrom_symbol hc, mem_append, or_iff_right hnone,
      show asciiUpper (c :: rest) = c.toUpper :: asciiUpper rest from rfl,
      hasWordFrom_symbol htarget hne hupper, hasWordFrom_prev (by simp [hupper])]
    exact ih
  | hword c w rest hw hrest ih =>
    rw [map_id] at hrest
    have hupper : ∀ d ∈ c.toUpper :: asciiUpper w, isWordChar d = true := by
      intro d hd
      obtain ⟨e, he, rfl⟩ := mem_map.mp (show d ∈ (c :: w).map Char.toUpper from hd)
      rw [isWordChar_toUpper]
      exact hw e he
    have hends : EndsWord (asciiUpper rest) := by
      intro d hd
      rw [asciiUpper, head?_map, Option.map_eq_some_iff] at hd
      obtain ⟨e, he, rfl⟩ := hd
      rw [isWordChar_toUpper]
      exact hrest e he
    have hsplit : asciiUpper (c :: w ++ rest) = c.toUpper :: asciiUpper w ++ asciiUpper rest := by
      simp [asciiUpper]
    have hword : "INTO" = String.ofList (asciiUpper (c :: w)) ↔
        c.toUpper :: asciiUpper w = asciiUpper "INTO".toList := by
      rw [hsame, show c.toUpper :: asciiUpper w = asciiUpper (c :: w) from rfl]
      constructor
      · intro heq
        rw [heq, String.toList_ofList]
      · intro heq
        rw [heq, String.ofList_toList]
    rw [tokensFrom_word hw hrest, mem_cons, SqlToken.word.injEq, hword, hsplit,
      hasWordFrom_word htarget hne hends hupper, Bool.or_eq_true, decide_eq_true_eq]
    exact or_congr_right ih

end HasWord

/-! ## Writing statements that are dropped -/

theorem Writes.firstKeyword {sql : String} (h : Writes (sqlTokens sql)) :
    firstKeyword sql ∉ ["SHOW", "DESCRIBE", "DESC", "TABLE"] := by
  by_cases hne : ShitUndo.firstKeyword sql = ""
  · rw [hne]
    decide
  rw [sqlTokens_eq hne] at h
  have hverbs : ∀ w ∈ writingVerbs, w ∉ ["SHOW", "DESCRIBE", "DESC", "TABLE"] := by decide
  generalize ShitUndo.firstKeyword sql = first at h
  generalize tokensFrom 0 _ = tokens at h
  cases h with
  | verb hw => exact hverbs _ hw
  | cteStatement | cteBody | explained => decide
  | nestedCteBody ht =>
    simp only [describing, mem_cons, SqlToken.word.injEq, not_mem_nil, or_false, not_or] at ht ⊢
    exact ht.2

/-- A query must have an `INTO`, and so must what is explained; behind `WITH` the walk must not meet
`SELECT` first. -/
theorem classifyStatement_ne_readOnly_iff {sql : String} (h : Writes (sqlTokens sql)) :
    classifyStatement sql ≠ .readOnly ↔
      (firstKeyword sql ∈ ["SELECT", "EXPLAIN"] → hasWord (afterKeyword sql) "INTO" = true) ∧
        (firstKeyword sql = "WITH" → outerVerb (afterKeyword sql) ≠ some "SELECT") ∧
        firstKeyword sql ≠ "VALUES" := by
  have hshow := h.firstKeyword
  have hempty : stripLeadingCommentsAndWhitespace sql = [] → firstKeyword sql = "" := by
    intro hnil
    simp [firstKeyword, hnil, asciiUpper]
  unfold classifyStatement
  generalize afterKeyword sql = rest
  by_cases hnil : stripLeadingCommentsAndWhitespace sql = []
  · simp [hnil, hempty hnil]
  rw [if_neg hnil]
  generalize firstKeyword sql = first at hshow
  by_cases hselect : first = "SELECT"
  · simp [hselect]
  by_cases hexplain : first = "EXPLAIN"
  · simp [hexplain]
  by_cases hwith : first = "WITH"
  · simp [hwith, classifyWithBody_eq_readOnly]
  by_cases hvalues : first = "VALUES"
  · simp [hvalues]
  simp only [mem_cons, not_mem_nil, or_false, not_or] at hshow
  simp only [hselect, hexplain, hwith, hvalues, hshow, if_false, mem_cons,
    not_mem_nil, or_self, false_and, false_implies, ne_eq, not_false_eq_true, and_self,
    iff_true]
  split_ifs <;> simp

/-- What stands in the quotes and comments behind the first word. -/
def hiddenTokens (sql : String) : List SqlToken :=
  tokensFrom 0 (hidden (behindFirst (marksFrom .plain 0 sql.toList)))

/-- By the words outside of quotes and comments: a query has an `INTO`, and so has what is
explained; behind `WITH` the first verb outside of parentheses is not `SELECT`, and quotes and
comments have no verbs and parentheses in them. -/
structure Recognisable (sql : String) : Prop where
  query : (sqlTokens sql).head? = some (.word "SELECT") ∨
    (sqlTokens sql).head? = some (.word "EXPLAIN") → .word "INTO" ∈ (sqlTokens sql).tail
  body : (sqlTokens sql).head? = some (.word "WITH") →
    topVerb 0 (sqlTokens sql).tail ≠ some "SELECT" ∧ ∀ t ∈ hiddenTokens sql, isHeeded t = false
  notValues : (sqlTokens sql).head? ≠ some (.word "VALUES")

section Recognised

variable {sql : String} (hne : firstKeyword sql ≠ "")

include hne

theorem merges_hiddenTokens :
    Merges (sqlTokens sql).tail (hiddenTokens sql) (tokensFrom 0 (afterKeyword sql)) := by
  have hstart : SkipEnds .plain 0 (afterKeyword sql) := by
    rintro - k hk
    cases hk
  have hmerge := tokens_merge (marksFrom_chain _ hstart)
  rw [marksFrom_fst] at hmerge
  rwa [sqlTokens_eq hne, tail_cons, hiddenTokens, behindFirst_eq hne]

theorem outerVerb_of_quiet (hquiet : ∀ t ∈ hiddenTokens sql, isHeeded t = false) :
    outerVerb (afterKeyword sql) = topVerb 0 (sqlTokens sql).tail := by
  rw [outerVerb_eq_topVerb, ← topVerb_filter, (merges_hiddenTokens hne).filter_eq hquiet,
    topVerb_filter]

theorem hasWord_into_iff : hasWord (afterKeyword sql) "INTO" = true ↔
    .word "INTO" ∈ (sqlTokens sql).tail ∨ .word "INTO" ∈ hiddenTokens sql := by
  rw [hasWord_iff, (merges_hiddenTokens hne).mem_iff]

theorem head?_sqlTokens_iff {w : String} :
    (sqlTokens sql).head? = some (.word w) ↔ firstKeyword sql = w := by
  simp [sqlTokens_eq hne]

end Recognised

/-- **Which writing statements are recognised**: those that are `Recognisable` or have a quote or a
symbol in front of the first word. Others are so only where quotes and comments hold verbs or
parentheses (behind `WITH`), or an `INTO`. -/
theorem writes_recognised {sql : String} (h : Writes (sqlTokens sql)) :
    (Recognisable sql ∨ firstKeyword sql = "" → classifyStatement sql ≠ .readOnly) ∧
      (((sqlTokens sql).head? = some (.word "WITH") →
          ∀ t ∈ hiddenTokens sql, isHeeded t = false) →
        ((sqlTokens sql).head? ≠ some (.word "WITH") → .word "INTO" ∉ hiddenTokens sql) →
        classifyStatement sql ≠ .readOnly → Recognisable sql ∨ firstKeyword sql = "") := by
  have hclass := classifyStatement_ne_readOnly_iff h
  by_cases hne : firstKeyword sql = ""
  · simp [hclass, hne]
  simp only [hne, or_false]
  constructor
  · rintro ⟨hquery, hbody, hvalues⟩
    simp only [ne_eq, head?_sqlTokens_iff hne] at hquery hbody hvalues
    refine hclass.mpr ⟨?_, ?_, hvalues⟩
    · intro hfirst
      exact (hasWord_into_iff hne).mpr (.inl (hquery (by simpa using hfirst)))
    · intro hfirst
      obtain ⟨hverb, hquiet⟩ := hbody hfirst
      rwa [outerVerb_of_quiet hne hquiet]
  · intro hquiet hplain hnot
    obtain ⟨hword, hverb, hvalues⟩ := hclass.mp hnot
    simp only [ne_eq, head?_sqlTokens_iff hne] at hquiet hplain
    constructor
    · simp only [head?_sqlTokens_iff hne]
      intro hfirst
      rcases (hasWord_into_iff hne).mp (hword (by simpa using hfirst)) with hshown | hhidden
      · exact hshown
      · refine absurd hhidden (hplain ?_)
        rcases hfirst with hfirst | hfirst
        · rw [hfirst]
          decide
        · rw [hfirst]
          decide
    · rw [head?_sqlTokens_iff hne]
      intro hfirst
      rw [← outerVerb_of_quiet hne (hquiet hfirst)]
      exact ⟨hverb hfirst, hquiet hfirst⟩
    · rwa [Ne, head?_sqlTokens_iff hne]

/-- A deleting CTE of a `SELECT`, an explained and executed `DELETE`, and a `DELETE` behind a CTE
whose quoted name is taken for the verb. -/
theorem writing_statements_dropped :
    (Writes (sqlTokens "WITH g AS (DELETE FROM t) SELECT 1") ∧
      classifyStatement "WITH g AS (DELETE FROM t) SELECT 1" = .readOnly) ∧
    (Writes (sqlTokens "EXPLAIN ANALYZE DELETE FROM t") ∧
      classifyStatement "EXPLAIN ANALYZE DELETE FROM t" = .readOnly) ∧
    (Writes (sqlTokens "WITH \"select\" AS (TABLE s) DELETE FROM t") ∧
      classifyStatement "WITH \"select\" AS (TABLE s) DELETE FROM t" = .readOnly) := by
  have hcte : sqlTokens "WITH g AS (DELETE FROM t) SELECT 1" =
      .word "WITH" :: ([.word "G"] ++ .word "AS" :: [] ++ .opening :: .word "DELETE" ::
        [.word "FROM", .word "T", .closing, .word "SELECT", .word "1"]) := by decide +kernel
  have hexplain : sqlTokens "EXPLAIN ANALYZE DELETE FROM t" =
      .word "EXPLAIN" :: ([.word "ANALYZE"] ++ .word "DELETE" :: [.word "FROM", .word "T"]) := by
    decide +kernel
  have hquoted : sqlTokens "WITH \"select\" AS (TABLE s) DELETE FROM t" =
      .word "WITH" :: [.word "AS", .opening, .word "TABLE", .word "S", .closing, .word "DELETE",
        .word "FROM", .word "T"] := by decide +kernel
  refine ⟨⟨?_, by decide +kernel⟩, ⟨?_, by decide +kernel⟩, ?_, by decide +kernel⟩
  · rw [hcte]
    exact .cteBody (by decide) (by decide)
  · rw [hexplain]
    exact .explained .keyword (.verb (by decide))
  · rw [hquoted]
    exact .cteStatement (w := "DELETE") (by decide) (by decide)

/-- An inserting CTE statement is recognised. -/
theorem writes_recognised_insert :
    Writes (sqlTokens "WITH c AS (SELECT 1) INSERT INTO t TABLE c") ∧
      classifyStatement "WITH c AS (SELECT 1) INSERT INTO t TABLE c" ≠ .readOnly := by
  have htokens : sqlTokens "WITH c AS (SELECT 1) INSERT INTO t TABLE c" =
      .word "WITH" :: [.word "C", .word "AS", .opening, .word "SELECT", .word "1", .closing,
        .word "INSERT", .word "INTO", .word "T", .word "TABLE", .word "C"] := by decide +kernel
  have hwrites : Writes (sqlTokens "WITH c AS (SELECT 1) INSERT INTO t TABLE c") := by
    rw [htokens]
    exact .cteStatement (w := "INSERT") (by decide) (by decide)
  exact ⟨hwrites, (writes_recognised hwrites).1
    (.inl ⟨by decide +kernel, by decide +kernel, by decide +kernel⟩)⟩

end ShitUndo
