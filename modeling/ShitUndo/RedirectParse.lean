import ShitUndo.Redirect
import ShitUndo.Text

/-!
# The redirect parser

`parse_redirects` (`shit-shell/src/redirect.rs`) finds the files a command line is about to truncate
or extend. It cuts the line into tokens and looks at these, so it no longer knows what was quoted.

A `Line` is a command line as the parser's documentation describes it: words, plain or quoted,
redirections in their spaced and glued forms, copies of descriptors, and a final `tee` with
redirections of its own. `Line.render` writes it out and `Line.expected` says which targets it has.
-/

namespace ShitUndo.RedirectParser

open List Option Bool Char

/-! ## Tokens -/

/-- A token. -/
abbrev Token := List Char

/-- The variables of `tokenize`. -/
structure TokenState where
  out : List Token
  cur : Token
  inSingle : Bool
  inDouble : Bool
deriving DecidableEq

/-- The tokens with the current one, if there is one. -/
def TokenState.flush (st : TokenState) : List Token :=
  if st.cur = [] then st.out else st.out ++ [st.cur]

/-- These end a token and are tokens themselves. -/
def isSeparator (c : Char) : Bool := ['|', ';', '&'].contains c

/-- One turn of the loop of `tokenize`. -/
def tokenStep (st : TokenState) (c : Char) : TokenState :=
  if c = '\'' ∧ st.inDouble = false then { st with inSingle := !st.inSingle }
  else if c = '"' ∧ st.inSingle = false then { st with inDouble := !st.inDouble }
  else if isWhiteSpace c = true ∧ st.inSingle = false ∧ st.inDouble = false then
    { st with out := st.flush, cur := [] }
  else if isSeparator c = true ∧ st.inSingle = false ∧ st.inDouble = false then
    { st with out := st.flush ++ [[c]], cur := [] }
  else { st with cur := st.cur ++ [c] }

def tokenize (line : List Char) : List Token :=
  (line.foldl tokenStep ⟨[], [], false, false⟩).flush

/-! ## The parser -/

def isPipeOrControl (tok : Token) : Bool :=
  ["|".toList, ";".toList, "&".toList, "&&".toList, "||".toList].contains tok

def isSpecialPath (p : Token) : Bool :=
  ["/dev/null", "/dev/zero", "/dev/random", "/dev/urandom", "/dev/stdout", "/dev/stderr",
      "/dev/stdin", "/proc", "/sys"].any (fun s => s.toList = p)
    || ["/dev/tty", "/dev/pts/", "/proc/", "/sys/", "/dev/fd/"].any fun s => s.toList.isPrefixOf p

def isFdDupTarget : Token → Bool
  | '&' :: rest => rest.all Char.isDigit
  | _ => false

/-- The table of `classify_redirect_token`. Longer operators come first. -/
def redirectTable : List (Token × RedirectOp) :=
  [(['&', '>', '>'], .append), (['&', '>'], .truncate), (['2', '>', '>'], .append),
    (['2', '>'], .truncate), (['>', '>'], .append), (['>', '|'], .truncate), (['>'], .truncate)]

/-- `classify_redirect_token`: the op, and the path that is glued to it. -/
def classifyRedirectToken (tok : Token) : Option (RedirectOp × Option Token) :=
  redirectTable.findSome? fun (lit, op) =>
    if tok = lit then some (op, none)
    else if lit.isPrefixOf tok then some (op, some (tok.drop lit.length))
    else none

/-- `of=`. -/
def ofPrefix : Token := ['o', 'f', '=']

/-- `tee`. -/
def teeWord : Token := ['t', 'e', 'e']

/-- The token after `tee` asks for appending. -/
def isAppendFlag (tok : Token) : Bool := tok = "-a".toList || tok = "--append".toList

/-- The files of a `tee` whose arguments begin the tokens. -/
def teeTargets (tokens : List Token) : List RedirectTarget :=
  let append := tokens.head?.any isAppendFlag
  let files := if append then tokens.drop 1 else tokens
  ((files.takeWhile fun p => !isPipeOrControl p).filter fun p =>
      !(['-'].isPrefixOf p) && !isSpecialPath p).map fun p =>
    ⟨if append then .teeAppend else .teeTruncate, String.ofList p⟩

/-- A target of an operator, unless there is nothing to stash. -/
def redirectTarget (op : RedirectOp) (path : Token) : List RedirectTarget :=
  if isSpecialPath path || isFdDupTarget path then [] else [⟨op, String.ofList path⟩]

/-- The target of an argument `of=path`. -/
def ddTarget (path : Token) : List RedirectTarget :=
  if path ≠ [] ∧ isSpecialPath path = false then [⟨.ddOf, String.ofList path⟩] else []

/-- The loop of `parse_redirects`, from a token on. `pending` is an operator that still looks for
its path in the tokens to come. -/
def parseTokens (pending : Option RedirectOp) : List Token → List RedirectTarget
  | [] => []
  | tok :: rest =>
    match pending with
    | some op =>
      if tok = [] then parseTokens (some op) rest
      else redirectTarget op tok ++ parseTokens none rest
    | none =>
      if ofPrefix.isPrefixOf tok then ddTarget (tok.drop 3) ++ parseTokens none rest
      else if tok = teeWord then teeTargets rest ++ parseTokens none rest
      else match classifyRedirectToken tok with
        | none => parseTokens none rest
        | some (op, some path) => redirectTarget op path ++ parseTokens none rest
        | some (op, none) => parseTokens (some op) rest

/-- Keep the first of equal targets. -/
def retainFirst (seen : List RedirectTarget) : List RedirectTarget → List RedirectTarget
  | [] => []
  | t :: rest => if t ∈ seen then retainFirst seen rest else t :: retainFirst (t :: seen) rest

def parseRedirects (line : String) : List RedirectTarget :=
  retainFirst [] (parseTokens none (tokenize line.toList))

/-! ## Command lines -/

/-- A part of a word. -/
inductive Segment where
  | plain (text : List Char)
  | single (text : List Char)
  | double (text : List Char)
deriving DecidableEq, Repr

/-- A word, with the quotes it is written with. -/
abbrev Word := List Segment

def Segment.value : Segment → List Char
  | .plain text | .single text | .double text => text

def Segment.text : Segment → List Char
  | .plain text => text
  | .single text => '\'' :: text ++ ['\'']
  | .double text => '"' :: text ++ ['"']

/-- The characters that mean something to a shell outside of quotes. -/
def isMeta (c : Char) : Bool :=
  isWhiteSpace c || ['\'', '"', '\\', '|', ';', '&', '<', '>', '(', ')'].contains c

/-- Within double quotes, a backslash that takes the next character's meaning away. -/
def hasEscape : List Char → Bool
  | [] => false
  | ['\\'] => true
  | '\\' :: c :: rest => ['$', '\x60', '"', '\\', '\n'].contains c || hasEscape (c :: rest)
  | _ :: rest => hasEscape rest

/-- Quotes cannot hold their own sign, and every character stands for itself. -/
def Segment.Valid : Segment → Prop
  | .plain text => ∀ c ∈ text, isMeta c = false
  | .single text => '\'' ∉ text
  | .double text => '"' ∉ text ∧ hasEscape text = false

instance (seg : Segment) : Decidable seg.Valid :=
  match seg with
  | .plain text => List.decidableBAll _ text
  | .single text => inferInstanceAs (Decidable ('\'' ∉ text))
  | .double text => inferInstanceAs (Decidable ('"' ∉ text ∧ hasEscape text = false))

/-- The word without its quotes. -/
def wordValue (w : Word) : Token := w.flatMap Segment.value

def wordText (w : Word) : List Char := w.flatMap Segment.text

def WordValid (w : Word) : Prop := ∀ seg ∈ w, seg.Valid

instance (w : Word) : Decidable (WordValid w) :=
  inferInstanceAs (Decidable (∀ seg ∈ w, seg.Valid))

/-- The operators of the documentation. -/
inductive Sign where
  | out | clobber | append | err | errAppend | both | bothAppend
deriving DecidableEq, Repr

def Sign.text : Sign → List Char
  | .out => ['>']
  | .clobber => ['>', '|']
  | .append => ['>', '>']
  | .err => ['2', '>']
  | .errAppend => ['2', '>', '>']
  | .both => ['&', '>']
  | .bothAppend => ['&', '>', '>']

/-- What the operator does to its file. -/
def Sign.op : Sign → RedirectOp
  | .out | .clobber | .err | .both => .truncate
  | .append | .errAppend | .bothAppend => .append

/-- A word; an operator with its file, glued to it when there are no blanks between them; or a copy
of a descriptor. -/
inductive Item where
  | word (w : Word)
  | redirect (sign : Sign) (blanks : List Char) (dest : Word)
  | dup (source target : List Char)
deriving DecidableEq, Repr

def Item.text : Item → List Char
  | .word w => wordText w
  | .redirect sign blanks dest => sign.text ++ blanks ++ wordText dest
  | .dup source target => source ++ ['>', '&'] ++ target

def isBlankChar (c : Char) : Bool := c == ' ' || c == '\t'

def Item.Valid : Item → Prop
  | .word w => WordValid w
  | .redirect _ blanks dest => (∀ c ∈ blanks, isBlankChar c = true) ∧ WordValid dest
  | .dup source target =>
    source.all isDigit = true ∧ target.all isDigit = true ∧ target ≠ []

instance (item : Item) : Decidable item.Valid :=
  match item with
  | .word w => inferInstanceAs (Decidable (WordValid w))
  | .redirect _ blanks dest =>
    @instDecidableAnd _ _ (decidableBAll _ blanks)
      (inferInstanceAs (Decidable (WordValid dest)))
  | .dup source target => inferInstanceAs (Decidable
      (source.all isDigit = true ∧ target.all isDigit = true ∧ target ≠ []))

/-- Not empty, and blanks only. -/
def IsGap (gap : List Char) : Prop := gap ≠ [] ∧ ∀ c ∈ gap, isBlankChar c = true

instance (gap : List Char) : Decidable (IsGap gap) :=
  @instDecidableAnd _ _ _ (decidableBAll _ gap)

/-- Items with the blanks before each. -/
abbrev Spaced := List (List Char × Item)

def spacedText (items : Spaced) : List Char := items.flatMap fun i => i.1 ++ i.2.text

def SpacedValid (items : Spaced) : Prop := ∀ i ∈ items, IsGap i.1 ∧ i.2.Valid

instance (items : Spaced) : Decidable (SpacedValid items) :=
  inferInstanceAs (Decidable (∀ i ∈ items, IsGap i.1 ∧ i.2.Valid))

/-- A final `| tee`: the blanks around the bar, the blanks before `-a` if it is there, the files,
and redirections. -/
structure Tee where
  before : List Char
  after : List Char
  append : Option (List Char)
  files : List (List Char × Word)
  redirects : Spaced
deriving DecidableEq, Repr

def Tee.text (t : Tee) : List Char :=
  t.before ++ '|' :: t.after ++ teeWord ++ (t.append.map (· ++ ['-', 'a'])).getD []
    ++ spacedText (t.files.map fun f => (f.1, .word f.2)) ++ spacedText t.redirects

/-- Files are words that `tee` does not take for options, and a redirection is no word. -/
structure Tee.Valid (t : Tee) : Prop where
  before : ∀ c ∈ t.before, isBlankChar c = true
  after : ∀ c ∈ t.after, isBlankChar c = true
  append : ∀ gap, t.append = some gap → IsGap gap
  files : ∀ f ∈ t.files, IsGap f.1 ∧ WordValid f.2 ∧ (wordValue f.2).head? ≠ some '-'
  redirects : SpacedValid t.redirects
  noWord : ∀ i ∈ t.redirects, ∀ w, i.2 ≠ .word w

/-- A command line. -/
structure Line where
  first : Item
  rest : Spaced
  tee : Option Tee
deriving DecidableEq, Repr

def Line.render (line : Line) : String :=
  String.ofList (line.first.text ++ spacedText line.rest ++ (line.tee.map Tee.text).getD [])

structure Line.Valid (line : Line) : Prop where
  first : line.first.Valid
  rest : SpacedValid line.rest
  tee : ∀ t, line.tee = some t → t.Valid

/-! ## The targets of a line -/

/-- The file an operator opens, unless it is one that is not stashed. -/
def Item.expected : Item → List RedirectTarget
  | .redirect sign _ dest =>
    if isSpecialPath (wordValue dest) then [] else [⟨sign.op, String.ofList (wordValue dest)⟩]
  | _ => []

def Tee.op (t : Tee) : RedirectOp := if t.append.isSome then .teeAppend else .teeTruncate

def Tee.expected (t : Tee) : List RedirectTarget :=
  ((t.files.map fun f => wordValue f.2).filter fun p => !isSpecialPath p).map
      (fun p => ⟨t.op, String.ofList p⟩)
    ++ t.redirects.flatMap fun i => i.2.expected

/-- **The targets of a line**, each once. -/
def Line.expected (line : Line) : List RedirectTarget :=
  retainFirst [] (line.first.expected ++ (line.rest.flatMap fun i => i.2.expected)
    ++ (line.tee.map Tee.expected).getD [])

/-! ## Lines that are not misread -/

/-- As a token, this is nothing to the parser: no operator, not `tee`, and no `of=` with a path. -/
def Harmless (tok : Token) : Prop :=
  classifyRedirectToken tok = none ∧ tok ≠ teeWord ∧
    (ofPrefix.isPrefixOf tok = true → ddTarget (tok.drop 3) = [])

instance (tok : Token) : Decidable (Harmless tok) :=
  inferInstanceAs (Decidable (classifyRedirectToken tok = none ∧ tok ≠ teeWord ∧
    (ofPrefix.isPrefixOf tok = true → ddTarget (tok.drop 3) = [])))

/-- A file that is found next to its operator: the operator is not `>|`, the file has a name that
does not look like a descriptor, and glued to its operator it does not make another one. -/
structure TidyDest (sign : Sign) (blanks : List Char) (dest : Token) : Prop where
  noClobber : sign ≠ .clobber
  ne_nil : dest ≠ []
  noDup : isFdDupTarget dest = false
  glued : blanks = [] → (sign = .out ∨ sign = .both ∨ sign = .err → dest.head? ≠ some '>') ∧
    (sign = .out ∨ sign = .both → dest.head? ≠ some '|')

def Item.Tidy : Item → Prop
  | .word w => Harmless (wordValue w)
  | .redirect sign blanks dest => TidyDest sign blanks (wordValue dest)
  | .dup _ _ => True

/-- The item begins with an ampersand. -/
def Item.startsBoth : Item → Prop
  | .redirect sign _ _ => sign = .both ∨ sign = .bothAppend
  | _ => False

/-- Files that are only files, and redirections that begin with an ampersand, if there are any. -/
structure Tee.Tidy (t : Tee) : Prop where
  files : ∀ f ∈ t.files, wordValue f.2 ≠ [] ∧ Harmless (wordValue f.2) ∧
    isPipeOrControl (wordValue f.2) = false
  redirects : ∀ i ∈ t.redirects, i.2.Tidy
  first : ∀ i, t.redirects.head? = some i → i.2.startsBoth

/-- **Lines the parser reads right.** -/
structure Line.Tidy (line : Line) : Prop where
  first : line.first.Tidy
  rest : ∀ i ∈ line.rest, i.2.Tidy
  tee : ∀ t, line.tee = some t → t.Tidy

/-! ## The tokens of a line -/

/-- A token, if it is not empty. -/
def flushed (tok : Token) : List Token := if tok = [] then [] else [tok]

@[simp] theorem flushed_nil : flushed [] = [] := rfl

theorem flush_eq (st : TokenState) : st.flush = st.out ++ flushed st.cur := by
  unfold TokenState.flush flushed
  split_ifs <;> simp

/-- Outside of quotes. -/
def TokenState.outside (out : List Token) (cur : Token) : TokenState := ⟨out, cur, false, false⟩

/-- **From any place outside of quotes, the text ends the current token and adds these.** -/
def Lexes (text : List Char) (tokens : List Token) : Prop :=
  ∀ out cur, ∃ out' cur', text.foldl tokenStep (.outside out cur) = .outside out' cur' ∧
    out' ++ flushed cur' = out ++ flushed cur ++ tokens

theorem Lexes.nil : Lexes [] [] := fun out cur => ⟨out, cur, rfl, (append_nil _).symm⟩

theorem Lexes.append {xs ys : List Char} {ts us : List Token} (hxs : Lexes xs ts)
    (hys : Lexes ys us) : Lexes (xs ++ ys) (ts ++ us) := by
  intro out cur
  obtain ⟨out₁, cur₁, hfold₁, hflush₁⟩ := hxs out cur
  obtain ⟨out₂, cur₂, hfold₂, hflush₂⟩ := hys out₁ cur₁
  refine ⟨out₂, cur₂, ?_, ?_⟩
  · rw [List.foldl_append, hfold₁, hfold₂]
  · rw [hflush₂, hflush₁, append_assoc]

theorem Lexes.flatMap {α : Type*} {f : α → List Char} {g : α → List Token} {l : List α}
    (h : ∀ a ∈ l, Lexes (f a) (g a)) : Lexes (l.flatMap f) (l.flatMap g) := by
  induction l with
  | nil => exact .nil
  | cons a rest ih =>
    rw [flatMap_cons, flatMap_cons]
    exact (h a mem_cons_self).append (ih fun b hb => h b (mem_cons_of_mem a hb))

/-! ### Characters -/

variable {c : Char}

theorem isWhiteSpace_of_isBlankChar (h : isBlankChar c = true) :
    isWhiteSpace c = true ∧ c ≠ '\'' ∧ c ≠ '"' := by
  rw [isBlankChar, Bool.or_eq_true, beq_iff_eq, beq_iff_eq] at h
  rcases h with rfl | rfl <;> decide

theorem tokenStep_blank (h : isBlankChar c = true) (out : List Token) (cur : Token) :
    tokenStep (.outside out cur) c = .outside (out ++ flushed cur) [] := by
  obtain ⟨hspace, hsingle, hdouble⟩ := isWhiteSpace_of_isBlankChar h
  simp [tokenStep, TokenState.outside, hspace, hsingle, hdouble, flush_eq]

theorem tokenStep_separator (h : isSeparator c = true) (out : List Token) (cur : Token) :
    tokenStep (.outside out cur) c = .outside (out ++ flushed cur ++ [[c]]) [] := by
  have hc : c = '|' ∨ c = ';' ∨ c = '&' := by
    simpa [isSeparator] using h
  have hplain : isWhiteSpace c = false ∧ c ≠ '\'' ∧ c ≠ '"' := by
    rcases hc with rfl | rfl | rfl <;> decide
  simp [tokenStep, TokenState.outside, hplain, h, flush_eq]

variable {text : List Char}

theorem foldl_kept {out : List Token} {single double : Bool} (h : ∀ c ∈ text, ∀ cur,
      tokenStep ⟨out, cur, single, double⟩ c = ⟨out, cur ++ [c], single, double⟩) (cur : Token) :
    text.foldl tokenStep ⟨out, cur, single, double⟩ = ⟨out, cur ++ text, single, double⟩ := by
  induction text generalizing cur with
  | nil => rw [append_nil, foldl_nil]
  | cons c rest ih =>
    rw [foldl_cons, h c mem_cons_self, ih fun d hd => h d (mem_cons_of_mem c hd), append_assoc,
      singleton_append]

theorem foldl_plain
    (h : ∀ c ∈ text, c ≠ '\'' ∧ c ≠ '"' ∧ isWhiteSpace c = false ∧ isSeparator c = false)
    (out : List Token) (cur : Token) :
    text.foldl tokenStep (.outside out cur) = .outside out (cur ++ text) := by
  refine foldl_kept (fun c hc cur => ?_) cur
  obtain ⟨hsingle, hdouble, hspace, hsep⟩ := h c hc
  simp [tokenStep, hsingle, hdouble, hspace, hsep]

theorem foldl_segment {seg : Segment} (h : seg.Valid) (out : List Token) (cur : Token) :
    seg.text.foldl tokenStep (.outside out cur) = .outside out (cur ++ seg.value) := by
  cases seg with
  | plain text =>
    refine foldl_plain (fun c hc => ?_) out cur
    have hmeta := h c hc
    simp only [isMeta, Bool.or_eq_false_iff, contains_cons, contains_nil,
      beq_eq_false_iff_ne] at hmeta
    obtain ⟨hspace, h₁, h₂, -, h₃, h₄, h₅, -⟩ := hmeta
    exact ⟨h₁, h₂, hspace, by simp [isSeparator, h₃, h₄, h₅]⟩
  | single text =>
    have hopen : tokenStep (.outside out cur) '\'' = ⟨out, cur, true, false⟩ := rfl
    have hclose : tokenStep ⟨out, cur ++ text, true, false⟩ '\'' = .outside out (cur ++ text) := rfl
    have hinside : ∀ c ∈ text, ∀ cur,
        tokenStep ⟨out, cur, true, false⟩ c = ⟨out, cur ++ [c], true, false⟩ := by
      intro c hc cur
      simp [tokenStep, ne_of_mem_of_not_mem hc h]
    rw [Segment.text, cons_append, foldl_cons, hopen, List.foldl_append, foldl_kept hinside]
    exact hclose
  | double text =>
    have hopen : tokenStep (.outside out cur) '"' = ⟨out, cur, false, true⟩ := rfl
    have hclose : tokenStep ⟨out, cur ++ text, false, true⟩ '"' = .outside out (cur ++ text) := rfl
    have hinside : ∀ c ∈ text, ∀ cur,
        tokenStep ⟨out, cur, false, true⟩ c = ⟨out, cur ++ [c], false, true⟩ := by
      intro c hc cur
      simp [tokenStep, ne_of_mem_of_not_mem hc h.1]
    rw [Segment.text, cons_append, foldl_cons, hopen, List.foldl_append, foldl_kept hinside]
    exact hclose

theorem foldl_word {w : Word} (h : WordValid w) (out : List Token) (cur : Token) :
    (wordText w).foldl tokenStep (.outside out cur) = .outside out (cur ++ wordValue w) := by
  induction w generalizing cur with
  | nil => simp [wordText, wordValue]
  | cons seg rest ih =>
    have hrest := ih (fun s hs => h s (mem_cons_of_mem seg hs)) (cur ++ seg.value)
    rw [wordText, flatMap_cons, List.foldl_append, foldl_segment (h seg mem_cons_self)]
    rw [wordText] at hrest
    rw [hrest, wordValue, wordValue, flatMap_cons, append_assoc]

variable {gap : List Char}

theorem foldl_blanks (h : ∀ c ∈ gap, isBlankChar c = true) (out : List Token) :
    gap.foldl tokenStep (.outside out []) = .outside out [] := by
  induction gap with
  | nil => rfl
  | cons c rest ih =>
    rw [foldl_cons, tokenStep_blank (h c mem_cons_self), flushed_nil, append_nil]
    exact ih fun d hd => h d (mem_cons_of_mem c hd)

theorem foldl_gap (h : IsGap gap) (out : List Token) (cur : Token) :
    gap.foldl tokenStep (.outside out cur) = .outside (out ++ flushed cur) [] := by
  obtain ⟨c, rest, rfl⟩ := exists_cons_of_ne_nil h.1
  rw [foldl_cons, tokenStep_blank (h.2 c mem_cons_self)]
  exact foldl_blanks (fun d hd => h.2 d (mem_cons_of_mem c hd)) _

theorem lexes_blanks (h : ∀ c ∈ gap, isBlankChar c = true) : Lexes gap [] := by
  by_cases hne : gap = []
  · exact hne ▸ .nil
  · exact fun out cur => ⟨_, [], foldl_gap ⟨hne, h⟩ out cur, rfl⟩

/-! ### Items -/

/-- The tokens an operator is cut into, and the one that is not over at its end. -/
def Sign.done : Sign → List Token
  | .clobber => [['>'], ['|']]
  | .both | .bothAppend => [['&']]
  | _ => []

def Sign.last : Sign → Token
  | .clobber => []
  | .both => ['>']
  | .bothAppend => ['>', '>']
  | sign => sign.text

def Item.tokens : Item → List Token
  | .word w => flushed (wordValue w)
  | .redirect sign blanks dest =>
    if blanks = [] then sign.done ++ flushed (sign.last ++ wordValue dest)
    else sign.done ++ flushed sign.last ++ flushed (wordValue dest)
  | .dup source target => [source ++ ['>'], ['&']] ++ flushed target

theorem foldl_sign (sign : Sign) (out : List Token) :
    sign.text.foldl tokenStep (.outside out []) = .outside (out ++ sign.done) sign.last := by
  cases sign <;> simp [Sign.text, Sign.done, Sign.last, tokenStep, TokenState.outside,
    TokenState.flush, isSeparator, isWhiteSpace]

theorem foldl_digits {ds : List Char} (h : ds.all Char.isDigit = true) (out : List Token)
    (cur : Token) : ds.foldl tokenStep (.outside out cur) = .outside out (cur ++ ds) := by
  refine foldl_plain (fun c hc => ?_) out cur
  have hword : isWordChar c = true := by
    simp [isWordChar, Char.isAlphanum, List.all_eq_true.mp h c hc]
  have hne : ∀ d, isWordChar d = false → c ≠ d := by
    rintro d hd rfl
    rw [hd] at hword
    cases hword
  refine ⟨hne _ (by decide), hne _ (by decide), ?_, ?_⟩
  · rw [← Bool.not_eq_true]
    intro hspace
    rw [isWordChar_of_isWhiteSpace hspace] at hword
    cases hword
  · simp [isSeparator, hne '|' (by decide), hne ';' (by decide), hne '&' (by decide)]

/-- **The tokens of an item**, where no token is under way. -/
theorem foldl_item {item : Item} (h : item.Valid) (out : List Token) :
    ∃ out' cur', item.text.foldl tokenStep (.outside out []) = .outside out' cur' ∧
      out' ++ flushed cur' = out ++ item.tokens := by
  cases item with
  | word w =>
    exact ⟨out, wordValue w, foldl_word h out [], rfl⟩
  | redirect sign blanks dest =>
    obtain ⟨hblanks, hdest⟩ := h
    rw [Item.text, append_assoc, List.foldl_append, foldl_sign, List.foldl_append]
    by_cases hglued : blanks = []
    · refine ⟨_, _, by rw [hglued, foldl_nil, foldl_word hdest], ?_⟩
      rw [Item.tokens, if_pos hglued, append_assoc]
    · refine ⟨_, _, by rw [foldl_gap ⟨hglued, hblanks⟩, foldl_word hdest], ?_⟩
      rw [Item.tokens, if_neg hglued, nil_append, append_assoc, append_assoc, append_assoc]
  | dup source target =>
    obtain ⟨hsource, htarget, -⟩ := h
    have hsign : ['>', '&'].foldl tokenStep (.outside out source) =
        .outside (out ++ [source ++ ['>'], ['&']]) [] := by
      simp [tokenStep, TokenState.outside, TokenState.flush, isSeparator, isWhiteSpace]
    refine ⟨_, _, by rw [Item.text, List.foldl_append, List.foldl_append, foldl_digits hsource,
      nil_append, hsign, foldl_digits htarget], ?_⟩
    rw [Item.tokens, nil_append, append_assoc]

theorem lexes_item {item : Item} (hgap : IsGap gap) (h : item.Valid) :
    Lexes (gap ++ item.text) item.tokens := by
  intro out cur
  obtain ⟨out', cur', hfold, hflush⟩ := foldl_item h (out ++ flushed cur)
  exact ⟨out', cur', by rw [List.foldl_append, foldl_gap hgap, hfold], hflush⟩

theorem lexes_spaced {items : Spaced} (h : SpacedValid items) :
    Lexes (spacedText items) (items.flatMap fun i => i.2.tokens) :=
  Lexes.flatMap fun i hi => lexes_item (h i hi).1 (h i hi).2

/-- The tokens of a `tee`. -/
def Tee.tokens (t : Tee) : List Token :=
  ['|'] :: teeWord :: ((t.append.map fun _ => [['-', 'a']]).getD []
    ++ t.files.flatMap (fun f => flushed (wordValue f.2))
    ++ t.redirects.flatMap fun i => i.2.tokens)

theorem lexes_plain (hgap : IsGap gap)
    (h : ∀ c ∈ text, c ≠ '\'' ∧ c ≠ '"' ∧ isWhiteSpace c = false ∧ isSeparator c = false) :
    Lexes (gap ++ text) (flushed text) := fun out cur =>
  ⟨out ++ flushed cur, text, by rw [List.foldl_append, foldl_gap hgap, foldl_plain h]; rfl, rfl⟩

theorem lexes_tee {t : Tee} (h : t.Valid) : Lexes t.text t.tokens := by
  have hbar : Lexes ('|' :: t.after ++ teeWord) [['|'], teeWord] := by
    intro out cur
    refine ⟨out ++ flushed cur ++ [['|']], teeWord, ?_, by simp [flushed, teeWord]⟩
    rw [cons_append, foldl_cons, tokenStep_separator (by decide), List.foldl_append,
      foldl_blanks h.after, foldl_plain (forall_mem_of_all (by decide))]
    rfl
  have hflag : Lexes ((t.append.map (· ++ ['-', 'a'])).getD [])
      ((t.append.map fun _ => [['-', 'a']]).getD []) := by
    cases happend : t.append with
    | none => exact .nil
    | some gap => exact lexes_plain (h.append gap happend) (forall_mem_of_all (by decide))
  have hfiles : Lexes (spacedText (t.files.map fun f => (f.1, .word f.2)))
      (t.files.flatMap fun f => flushed (wordValue f.2)) := by
    rw [spacedText, flatMap_map]
    exact Lexes.flatMap fun f hf => lexes_item (h.files f hf).1 (h.files f hf).2.1
  have hall := ((lexes_blanks h.before).append hbar).append (hflag.append
    (hfiles.append (lexes_spaced h.redirects)))
  simpa only [Tee.text, Tee.tokens, append_assoc, nil_append, cons_append] using hall

/-- **The tokens of a rendered line.** -/
theorem tokenize_render {line : Line} (h : line.Valid) :
    tokenize line.render.toList = line.first.tokens ++ (line.rest.flatMap fun i => i.2.tokens)
        ++ (line.tee.map Tee.tokens).getD [] := by
  have hrest : Lexes (spacedText line.rest ++ (line.tee.map Tee.text).getD [])
      ((line.rest.flatMap fun i => i.2.tokens) ++ (line.tee.map Tee.tokens).getD []) := by
    refine (lexes_spaced h.rest).append ?_
    cases htee : line.tee with
    | none => exact .nil
    | some t => exact lexes_tee (h.tee t htee)
  obtain ⟨out₁, cur₁, hfold₁, hflush₁⟩ := foldl_item h.first []
  obtain ⟨out₂, cur₂, hfold₂, hflush₂⟩ := hrest out₁ cur₁
  have hstart : (⟨[], [], false, false⟩ : TokenState) = .outside [] [] := rfl
  rw [tokenize, Line.render, String.toList_ofList, append_assoc, List.foldl_append, hstart,
    hfold₁, hfold₂, flush_eq]
  rw [nil_append] at hflush₁
  rw [hflush₁] at hflush₂
  exact hflush₂.trans (append_assoc _ _ _).symm

/-! ## What is made of the tokens -/

variable {tok : Token}

theorem parseTokens_harmless (h : Harmless tok) (rest : List Token) :
    parseTokens none (tok :: rest) = parseTokens none rest := by
  obtain ⟨hclass, htee, hof⟩ := h
  rw [parseTokens]
  by_cases hstart : ofPrefix.isPrefixOf tok = true
  · simp only [hstart, if_true]
    rw [hof hstart, nil_append]
  · simp only [hstart, false_eq_true, if_false, htee, hclass]

theorem parseTokens_flushed (h : Harmless tok) (rest : List Token) :
    parseTokens none (flushed tok ++ rest) = parseTokens none rest := by
  unfold flushed
  split_ifs
  · rfl
  · exact parseTokens_harmless h rest

theorem parseTokens_harmless_list {tokens : List Token} (h : ∀ tok ∈ tokens, Harmless tok)
    (rest : List Token) : parseTokens none (tokens ++ rest) = parseTokens none rest := by
  induction tokens with
  | nil => rfl
  | cons tok toks ih =>
    rw [cons_append, parseTokens_harmless (h tok mem_cons_self)]
    exact ih fun t ht => h t (mem_cons_of_mem tok ht)

/-- Operators begin with one of these. -/
def IsOperatorHead (tok : Token) : Prop := tok.head? = some '>' ∨ tok.head? = some '2'

theorem IsOperatorHead.not_word (h : IsOperatorHead tok) :
    ofPrefix.isPrefixOf tok = false ∧ tok ≠ teeWord := by
  cases tok with
  | nil => rcases h with h | h <;> cases h
  | cons c cs =>
    have hc : c = '>' ∨ c = '2' := by simpa [IsOperatorHead] using h
    constructor
    · rcases hc with rfl | rfl <;> rfl
    · rintro heq
      obtain ⟨rfl, -⟩ := cons.inj heq
      exact absurd hc (by decide)

theorem parseTokens_glued {path : Token} {op : RedirectOp}
    (hclass : classifyRedirectToken tok = some (op, some path)) (hhead : IsOperatorHead tok)
    (rest : List Token) :
    parseTokens none (tok :: rest) = redirectTarget op path ++ parseTokens none rest := by
  obtain ⟨hof, htee⟩ := hhead.not_word
  rw [parseTokens]
  simp only [hof, false_eq_true, if_false, htee, hclass]

theorem parseTokens_spaced {path : Token} {op : RedirectOp}
    (hclass : classifyRedirectToken tok = some (op, none)) (hhead : IsOperatorHead tok)
    (hpath : path ≠ []) (rest : List Token) :
    parseTokens none (tok :: path :: rest) = redirectTarget op path ++ parseTokens none rest := by
  obtain ⟨hof, htee⟩ := hhead.not_word
  rw [parseTokens]
  simp only [hof, false_eq_true, if_false, htee, hclass]
  rw [parseTokens]
  simp only [hpath, if_false]

variable {sign : Sign}

theorem redirectTarget_of_tidy {blanks : List Char} {dest : Word}
    (h : TidyDest sign blanks (wordValue dest)) :
    redirectTarget sign.op (wordValue dest) = (Item.redirect sign blanks dest).expected := by
  simp [redirectTarget, Item.expected, h.noDup]

theorem Sign.last_head (h : sign ≠ .clobber) (tail : Token) :
    IsOperatorHead (sign.last ++ tail) := by
  cases sign with
  | clobber => exact absurd rfl h
  | err | errAppend => exact .inr rfl
  | _ => exact .inl rfl

theorem classify_last (h : sign ≠ .clobber) :
    classifyRedirectToken sign.last = some (sign.op, none) := by
  cases sign with
  | clobber => exact absurd rfl h
  | _ => rfl

theorem classify_glued {dest : Token} (h : TidyDest sign [] dest) :
    classifyRedirectToken (sign.last ++ dest) = some (sign.op, some dest) := by
  obtain ⟨c, cs, rfl⟩ := exists_cons_of_ne_nil h.ne_nil
  obtain ⟨hsign, hbar⟩ := h.glued rfl
  have hne : ∀ d, (c :: cs).head? ≠ some d → c ≠ d ∧ d ≠ c := fun d hd =>
    ⟨fun heq => hd (by rw [heq]; rfl), fun heq => hd (by rw [heq]; rfl)⟩
  cases sign with
  | clobber => exact absurd rfl h.noClobber
  | out =>
    simp [classifyRedirectToken, redirectTable, Sign.last, Sign.text, Sign.op,
      hne _ (hsign (.inl rfl)), hne _ (hbar (.inl rfl))]
  | both =>
    simp [classifyRedirectToken, redirectTable, Sign.last, Sign.op,
      hne _ (hsign (.inr (.inl rfl))), hne _ (hbar (.inr rfl))]
  | err =>
    simp [classifyRedirectToken, redirectTable, Sign.last, Sign.text, Sign.op,
      hne _ (hsign (.inr (.inr rfl)))]
  | append | errAppend => simp [classifyRedirectToken, redirectTable, Sign.last, Sign.text, Sign.op]
  | bothAppend => simp [classifyRedirectToken, redirectTable, Sign.last, Sign.op]

theorem parseTokens_done (h : sign ≠ .clobber) (rest : List Token) :
    parseTokens none (sign.done ++ rest) = parseTokens none rest := by
  have hamp : Harmless ['&'] := ⟨by decide, by decide, by decide⟩
  cases sign with
  | clobber => exact absurd rfl h
  | both | bothAppend => exact parseTokens_harmless hamp rest
  | _ => rfl

theorem isDigit_ne (h : c.isDigit = true) : ∀ d ∈ ['&', '>', 'o', 't'], c ≠ d ∧ d ≠ c := by
  have hdigits : ∀ d ∈ ['&', '>', 'o', 't'], d.isDigit = false := forall_mem_of_all (by decide)
  intro d hd
  have hne : c ≠ d := by
    rintro rfl
    rw [hdigits c hd] at h
    cases h
  exact ⟨hne, hne.symm⟩

theorem harmless_of_digit {cs : List Char} (h : c.isDigit = true)
    (hclass : classifyRedirectToken (c :: cs) = none) : Harmless (c :: cs) := by
  have hc := isDigit_ne h
  simp only [forall_mem_cons] at hc
  refine ⟨hclass, ?_, ?_⟩
  · intro heq
    exact hc.2.2.2.1.1 (cons.inj heq).1
  · intro hstart
    simp [ofPrefix, hc] at hstart

theorem classify_two_digits {d : Char} {ds : List Char} (hc : c.isDigit = true)
    (hd : d.isDigit = true) : classifyRedirectToken (c :: d :: ds) = none := by
  have hc := isDigit_ne hc
  have hd := isDigit_ne hd
  simp only [forall_mem_cons] at hc hd
  simp [classifyRedirectToken, redirectTable, hc, hd]

theorem harmless_of_digits {ds : List Char} (h : ds.all isDigit = true) : Harmless ds := by
  cases ds with
  | nil => exact ⟨by decide, by decide, by decide⟩
  | cons c cs =>
    rw [all_cons, and_eq_true] at h
    apply harmless_of_digit h.1
    cases cs with
    | nil =>
      have hc := isDigit_ne h.1
      simp only [forall_mem_cons] at hc
      simp [classifyRedirectToken, redirectTable, hc]
    | cons d ds' =>
      rw [all_cons, and_eq_true] at h
      exact classify_two_digits h.1 h.2.1

/-- The text before the ampersand of a copied descriptor: an operator of its own, or nothing. -/
theorem classify_dup {source : List Char} (h : source.all isDigit = true) :
    (∃ op, classifyRedirectToken (source ++ ['>']) = some (op, none) ∧
      IsOperatorHead (source ++ ['>'])) ∨ Harmless (source ++ ['>']) := by
  cases source with
  | nil => exact .inl ⟨.truncate, rfl, .inl rfl⟩
  | cons c cs =>
    rw [all_cons, and_eq_true] at h
    by_cases htwo : c = '2' ∧ cs = []
    · obtain ⟨rfl, rfl⟩ := htwo
      exact .inl ⟨.truncate, rfl, .inr rfl⟩
    right
    apply harmless_of_digit h.1
    cases cs with
    | nil =>
      have hc := isDigit_ne h.1
      simp only [forall_mem_cons] at hc
      have hne : c ≠ '2' ∧ '2' ≠ c :=
        ⟨fun heq => htwo ⟨heq, rfl⟩, fun heq => htwo ⟨heq.symm, rfl⟩⟩
      simp [classifyRedirectToken, redirectTable, hc, hne]
    | cons d ds =>
      rw [all_cons, and_eq_true] at h
      exact classify_two_digits h.1 h.2.1

theorem parseTokens_dup {source target : List Char} (hsource : source.all isDigit = true)
    (htarget : target.all isDigit = true) (rest : List Token) :
    parseTokens none ((Item.dup source target).tokens ++ rest) = parseTokens none rest := by
  have hamp : Harmless ['&'] := ⟨by decide, by decide, by decide⟩
  have htokens : (Item.dup source target).tokens ++ rest =
      (source ++ ['>']) :: ['&'] :: (flushed target ++ rest) := rfl
  rw [htokens]
  rcases classify_dup hsource with ⟨op, hclass, hhead⟩ | hharmless
  · -- the ampersand alone is taken for a path, and dropped as a descriptor
    have hnone : redirectTarget op ['&'] = [] := rfl
    rw [parseTokens_spaced hclass hhead (by decide), hnone, nil_append]
    exact parseTokens_flushed (harmless_of_digits htarget) rest
  · rw [parseTokens_harmless hharmless, parseTokens_harmless hamp]
    exact parseTokens_flushed (harmless_of_digits htarget) rest

/-- **A tidy item adds its target and nothing else.** -/
theorem parseTokens_item {item : Item} (hvalid : item.Valid) (htidy : item.Tidy)
    (rest : List Token) :
    parseTokens none (item.tokens ++ rest) = item.expected ++ parseTokens none rest := by
  cases item with
  | word w => exact parseTokens_flushed htidy rest
  | dup source target => exact parseTokens_dup hvalid.1 hvalid.2.1 rest
  | redirect sign blanks dest =>
    have htidy : TidyDest sign blanks (wordValue dest) := htidy
    have hdest : flushed (wordValue dest) = [wordValue dest] := if_neg htidy.ne_nil
    rw [← redirectTarget_of_tidy htidy, Item.tokens]
    by_cases hglued : blanks = []
    · subst hglued
      have hlast : flushed (sign.last ++ wordValue dest) = [sign.last ++ wordValue dest] :=
        if_neg (by simp [htidy.ne_nil])
      rw [if_pos rfl, hlast, append_assoc, parseTokens_done htidy.noClobber]
      exact parseTokens_glued (classify_glued htidy) (Sign.last_head htidy.noClobber _) rest
    · have hhead := Sign.last_head htidy.noClobber []
      rw [append_nil] at hhead
      have hlast : flushed sign.last = [sign.last] := by
        refine if_neg fun hnil => ?_
        rw [hnil] at hhead
        rcases hhead with hhead | hhead <;> cases hhead
      rw [if_neg hglued, hlast, hdest, append_assoc, append_assoc, parseTokens_done htidy.noClobber]
      exact parseTokens_spaced (classify_last htidy.noClobber) hhead htidy.ne_nil rest

theorem parseTokens_items (items : List Item) (h : ∀ i ∈ items, i.Valid ∧ i.Tidy)
    (rest : List Token) :
    parseTokens none (items.flatMap Item.tokens ++ rest) =
      items.flatMap Item.expected ++ parseTokens none rest := by
  induction items with
  | nil => rfl
  | cons i is ih =>
    obtain ⟨hvalid, htidy⟩ := h i mem_cons_self
    rw [flatMap_cons, append_assoc, parseTokens_item hvalid htidy,
      ih fun j hj => h j (mem_cons_of_mem i hj), flatMap_cons, append_assoc]

/-! ## The final `tee` -/

section TeeTokens

variable {t : Tee}

theorem fileTokens_eq (htidy : t.Tidy) :
    t.files.flatMap (fun f => flushed (wordValue f.2)) = t.files.map fun f => wordValue f.2 := by
  rw [map_eq_flatMap]
  exact flatMap_congr fun f hf => if_neg (htidy.files f hf).1

theorem head_redirectTokens (htidy : t.Tidy) :
    t.redirects.flatMap (fun i => i.2.tokens) = [] ∨
      ∃ rest, t.redirects.flatMap (fun i => i.2.tokens) = ['&'] :: rest := by
  cases hredirects : t.redirects with
  | nil => exact .inl rfl
  | cons i rest =>
    right
    have hboth := htidy.first i (by rw [hredirects]; rfl)
    obtain ⟨gap, item⟩ := i
    cases item with
    | word w | dup source target => exact hboth.elim
    | redirect sign blanks dest =>
      have hdone : sign.done = [['&']] := by
        rcases hboth with rfl | rfl <;> rfl
      rw [flatMap_cons, Item.tokens, hdone]
      split_ifs
      · exact ⟨_, rfl⟩
      · exact ⟨_, rfl⟩

/-- The scan takes the files, up to the end or to an ampersand. -/
theorem scan_files {files rest : List Token}
    (hfiles : ∀ p ∈ files, (!isPipeOrControl p) = true ∧ p.head? ≠ some '-')
    (hrest : rest = [] ∨ ∃ rest', rest = ['&'] :: rest') :
    ((files ++ rest).takeWhile fun p => !isPipeOrControl p).filter
        (fun p => !(['-'].isPrefixOf p) && !isSpecialPath p) =
      files.filter fun p => !isSpecialPath p := by
  have hend : rest.takeWhile (fun p => !isPipeOrControl p) = [] := by
    rcases hrest with rfl | ⟨rest', rfl⟩ <;> rfl
  rw [takeWhile_append_of_pos fun p hp => (hfiles p hp).1, hend, append_nil]
  refine filter_congr fun p hp => ?_
  have hhead := (hfiles p hp).2
  cases p with
  | nil => rfl
  | cons c cs =>
    have hc : ¬ '-' = c := fun heq => hhead (by rw [heq]; rfl)
    simp [isPrefixOf, hc]

/-- **The scan of `tee` finds its files.** -/
theorem teeTargets_tokens (hvalid : t.Valid) (htidy : t.Tidy) :
    teeTargets ((t.append.map fun _ => [['-', 'a']]).getD []
        ++ t.files.flatMap (fun f => flushed (wordValue f.2))
        ++ t.redirects.flatMap fun i => i.2.tokens) =
      ((t.files.map fun f => wordValue f.2).filter fun p => !isSpecialPath p).map
        fun p => ⟨t.op, String.ofList p⟩ := by
  have hnot : ∀ p ∈ t.files.map (fun f => wordValue f.2),
      (!isPipeOrControl p) = true ∧ p.head? ≠ some '-' := by
    intro p hp
    obtain ⟨f, hf, rfl⟩ := mem_map.mp hp
    rw [(htidy.files f hf).2.2]
    exact ⟨rfl, (hvalid.files f hf).2.2⟩
  rw [fileTokens_eq htidy, append_assoc]
  cases happend : t.append with
  | some gap =>
    have hop : t.op = .teeAppend := by simp [Tee.op, happend]
    rw [hop, ← scan_files hnot (head_redirectTokens htidy)]
    rfl
  | none =>
    have hop : t.op = .teeTruncate := by simp [Tee.op, happend]
    have hflag : ((t.files.map fun f => wordValue f.2)
        ++ t.redirects.flatMap fun i => i.2.tokens).head?.any isAppendFlag = false := by
      cases hfiles : t.files with
      | nil => rcases head_redirectTokens htidy with hend | ⟨rest, hend⟩ <;> rw [hend] <;> rfl
      | cons f rest =>
        have hhead := (hvalid.files f (by rw [hfiles]; exact mem_cons_self)).2.2
        rw [map_cons, cons_append, head?_cons, any_some, isAppendFlag, or_eq_false_iff]
        constructor <;> refine decide_eq_false fun heq => hhead ?_ <;> rw [heq] <;> rfl
    rw [hop, ← scan_files hnot (head_redirectTokens htidy), map_none, getD_none,
      nil_append, teeTargets, hflag]
    rfl

theorem parseTokens_tee (hvalid : t.Valid) (htidy : t.Tidy) :
    parseTokens none t.tokens = t.expected := by
  have hbar : Harmless ['|'] := ⟨by decide, by decide, by decide⟩
  have hflag : ∀ tok ∈ (t.append.map fun _ => [['-', 'a']]).getD [], Harmless tok := by
    intro tok htok
    cases happend : t.append with
    | none => simp [happend] at htok
    | some gap =>
      obtain rfl : tok = ['-', 'a'] := by simpa [happend] using htok
      exact ⟨by decide, by decide, by decide⟩
  have hfiles : ∀ tok ∈ t.files.flatMap (fun f => flushed (wordValue f.2)), Harmless tok := by
    intro tok htok
    rw [fileTokens_eq htidy] at htok
    obtain ⟨f, hf, rfl⟩ := mem_map.mp htok
    exact (htidy.files f hf).2.1
  have hredirects := parseTokens_items (t.redirects.map Prod.snd) (by
    intro i hi
    obtain ⟨p, hp, rfl⟩ := mem_map.mp hi
    exact ⟨(hvalid.redirects p hp).2, htidy.redirects p hp⟩) []
  rw [flatMap_map, flatMap_map, append_nil] at hredirects
  have htee : ∀ rest,
      parseTokens none (teeWord :: rest) = teeTargets rest ++ parseTokens none rest :=
    fun rest => rfl
  rw [Tee.tokens, parseTokens_harmless hbar, htee, teeTargets_tokens hvalid htidy,
    append_assoc, parseTokens_harmless_list hflag, parseTokens_harmless_list hfiles,
    hredirects, Tee.expected]
  exact congrArg _ (append_nil _)

end TeeTokens

/-- **Of a tidy line the parser returns the files of its operators and of `tee`**, unquoted, in
order, each with what is done to it, each once, and nothing else. -/
theorem parseRedirects_render {line : Line} (hvalid : line.Valid) (htidy : line.Tidy) :
    parseRedirects line.render = line.expected := by
  have hitems := parseTokens_items (line.first :: line.rest.map Prod.snd) (by
    intro i hi
    rcases mem_cons.mp hi with rfl | hi
    · exact ⟨hvalid.first, htidy.first⟩
    · obtain ⟨p, hp, rfl⟩ := mem_map.mp hi
      exact ⟨(hvalid.rest p hp).2, htidy.rest p hp⟩) ((line.tee.map Tee.tokens).getD [])
  rw [flatMap_cons, flatMap_cons, flatMap_map, flatMap_map] at hitems
  have htee : parseTokens none ((line.tee.map Tee.tokens).getD []) =
      (line.tee.map Tee.expected).getD [] := by
    cases h : line.tee with
    | none => rfl
    | some t => exact parseTokens_tee (hvalid.tee t h) (htidy.tee t h)
  rw [parseRedirects, tokenize_render hvalid, hitems, htee, Line.expected]

/-- `sort 'a > b' 2>&1 >'out file' | tee -a log &>> all`. -/
def tidyLine : Line where
  first := .word [.plain "sort".toList]
  rest :=
    [([' '], .word [.single "a > b".toList]), ([' '], .dup ['2'] ['1']),
      ([' '], .redirect .out [] [.single "out file".toList])]
  tee := some
    { before := [' '], after := [' '], append := some [' ']
      files := [([' '], [.plain "log".toList])]
      redirects := [([' '], .redirect .bothAppend [' '] [.plain "all".toList])] }

theorem parseRedirects_render_tidy :
    parseRedirects tidyLine.render =
      [⟨.truncate, "out file"⟩, ⟨.teeAppend, "log"⟩, ⟨.append, "all"⟩] := by
  have hvalid : tidyLine.Valid := by
    refine ⟨by decide +kernel, by decide +kernel, ?_⟩
    rintro t ⟨⟩
    refine ⟨forall_mem_of_all (by decide), forall_mem_of_all (by decide), ?_, by decide +kernel,
      by decide +kernel, by simp⟩
    rintro gap ⟨⟩
    decide +kernel
  have hglued : TidyDest .out [] "out file".toList :=
    ⟨by decide +kernel, by decide +kernel, by decide +kernel, by decide +kernel⟩
  have hspaced : TidyDest .bothAppend [' '] "all".toList :=
    ⟨by decide +kernel, by decide +kernel, by decide +kernel, by decide +kernel⟩
  have hword : Harmless "sort".toList ∧ Harmless "a > b".toList ∧ Harmless "log".toList := by
    decide +kernel
  have htidy : tidyLine.Tidy := by
    refine ⟨hword.1, ?_, ?_⟩
    · simpa [tidyLine, Item.Tidy, wordValue, Segment.value] using ⟨hword.2.1, hglued⟩
    · rintro t ⟨⟩
      refine ⟨?_, ?_, ?_⟩
      · simpa [wordValue, Segment.value] using ⟨hword.2.2, by decide +kernel⟩
      · simpa [Item.Tidy, wordValue, Segment.value] using hspaced
      · simp [Item.startsBoth]
  exact (parseRedirects_render hvalid htidy).trans (by decide +kernel)

/-- `echo >| out`, `echo '>' x` and `cmd | tee a > b`. -/
def clobberLine : Line :=
  ⟨.word [.plain "echo".toList], [([' '], .redirect .clobber [' '] [.plain "out".toList])], none⟩

def quotedSignLine : Line :=
  ⟨.word [.plain "echo".toList], [([' '], .word [.single ['>']]), ([' '], .word [.plain ['x']])],
    none⟩

def teeRedirectLine : Line :=
  ⟨.word [.plain "cmd".toList], [], some ⟨[' '], [' '], none, [([' '], [.plain ['a']])],
    [([' '], .redirect .out [' '] [.plain ['b']])]⟩⟩

theorem misread_lines :
    (clobberLine.Valid ∧ clobberLine.expected = [⟨.truncate, "out"⟩] ∧
        parseRedirects clobberLine.render = [⟨.truncate, "|"⟩]) ∧
      (quotedSignLine.Valid ∧ quotedSignLine.expected = [] ∧
        parseRedirects quotedSignLine.render = [⟨.truncate, "x"⟩]) ∧
      (teeRedirectLine.Valid ∧ teeRedirectLine.expected = [⟨.teeTruncate, "a"⟩, ⟨.truncate, "b"⟩] ∧
        parseRedirects teeRedirectLine.render =
          [⟨.teeTruncate, "a"⟩, ⟨.teeTruncate, ">"⟩, ⟨.teeTruncate, "b"⟩, ⟨.truncate, "b"⟩]) := by
  refine ⟨⟨⟨by decide +kernel, by decide +kernel, ?_⟩, by decide +kernel, by decide +kernel⟩,
    ⟨⟨by decide +kernel, by decide +kernel, ?_⟩, by decide +kernel, by decide +kernel⟩,
    ⟨⟨by decide +kernel, by decide +kernel, ?_⟩, by decide +kernel, by decide +kernel⟩⟩
  · rintro t ⟨⟩
  · rintro t ⟨⟩
  · rintro t ⟨⟩
    exact ⟨forall_mem_of_all (by decide), forall_mem_of_all (by decide), by rintro gap ⟨⟩,
      by decide +kernel, by decide +kernel, by simp⟩

end ShitUndo.RedirectParser
