import Mathlib.Tactic.Common

/-!
# Reading shell text

How a shell splits a text into commands, for texts that need no expansion: words with single quotes
and backslashes, comments, redirections, and the operators between commands. A text with anything
else in it (variables, substitutions, patterns, double quotes) is not read at all: `commands` is
`none`, and what such a text runs is left open.

The reader is a machine with output, one character at a time, so a text is read piece by piece
(`Reads.append`). A piece that begins and ends between two commands is a line (`IsLine`), and
`commands_lines` says what a text of lines runs.

What was quoted, by closing the quotes around a quote or by a backslash in front of it, is read back
(`reads_quote`, `reads_escapeQuote`).
-/

namespace ShellReader

open List Option

/-- Shells differ in what a backslash escapes inside of single quotes, and in whether a letter or
digit after one outside of quotes stands for something else. -/
structure Dialect where
  escapes : List Char
  escapedLetters : Bool

/-- Nothing is escaped inside of single quotes. -/
def posix : Dialect := ⟨[], false⟩

/-- A backslash escapes itself and the quote. -/
def fish : Dialect := ⟨['\\', '\''], true⟩

/-! ## Words and operators -/

inductive Lexeme where
  | word (text : List Char)
  | op (text : List Char)
deriving DecidableEq, Repr

/-- What the reader is inside of, with the text of it so far. -/
inductive Mode where
  | gap
  | bare (word : List Char)
  | quoted (word : List Char)
  | quotedEscape (word : List Char)
  | escaped (word : List Char)
  | comment
  | operator (text : List Char)
deriving DecidableEq

def isBlank (c : Char) : Bool := c == ' ' || c == '\t'

def isOperatorChar (c : Char) : Bool := [';', '&', '|', '<', '>'].contains c

/-- Outside of quotes, these are expanded by some shell, or begin what this reader does not read. -/
def needsExpansion (c : Char) : Bool :=
  ['"', '$', '\x60', '(', ')', '*', '?', '[', ']', '\x7b', '\x7d', '~', '^', '#'].contains c

/-- The operators of more than one character. -/
def longOperators : List (List Char) :=
  [['&', '&'], ['|', '|'], [';', ';'], ['<', '<'], ['>', '>'], ['<', '&'], ['>', '&'],
    ['<', '>'], ['>', '|']]

/-- The end of a line, as an operator. -/
def newline : List Char := ['\n']

/-- A character between two words. -/
def turnGap (c : Char) : Option (List Lexeme × Mode) :=
  if isBlank c then some ([], .gap)
  else if c = '\n' then some ([.op newline], .gap)
  else if c = '#' then some ([], .comment)
  else if c = '\'' then some ([], .quoted [])
  else if c = '\\' then some ([], .escaped [])
  else if isOperatorChar c then some ([], .operator [c])
  else if c = '=' ∨ needsExpansion c = true then none
  else some ([], .bare [c])

/-- A character outside of quotes in a word. -/
def turnBare (w : List Char) (c : Char) : Option (List Lexeme × Mode) :=
  if isBlank c then some ([.word w], .gap)
  else if c = '\n' then some ([.word w, .op newline], .gap)
  else if c = '\'' then some ([], .quoted w)
  else if c = '\\' then some ([], .escaped w)
  else if isOperatorChar c then
    -- digits right before a redirection are its descriptor
    if (c = '<' ∨ c = '>') ∧ w.all Char.isDigit = true then some ([], .operator (w ++ [c]))
    else some ([.word w], .operator [c])
  else if needsExpansion c then none
  else some ([], .bare (w ++ [c]))

/-- One character. -/
def turn (d : Dialect) : Mode → Char → Option (List Lexeme × Mode)
  | .gap, c => turnGap c
  | .bare w, c => turnBare w c
  | .quoted w, c =>
    if c = '\'' then some ([], .bare w)
    else if c = '\\' ∧ d.escapes ≠ [] then some ([], .quotedEscape w)
    else some ([], .quoted (w ++ [c]))
  | .quotedEscape w, c =>
    some ([], .quoted (if c ∈ d.escapes then w ++ [c] else w ++ ['\\', c]))
  | .escaped w, c =>
    if c = '\n' ∨ (d.escapedLetters && c.isAlphanum) = true then none
    else some ([], .bare (w ++ [c]))
  | .comment, c => if c = '\n' then some ([.op newline], .gap) else some ([], .comment)
  | .operator t, c =>
    if t.dropWhile Char.isDigit ++ [c] ∈ longOperators then some ([.op (t ++ [c])], .gap)
    else (turnGap c).map fun r => (.op t :: r.1, r.2)

/-- A text from a mode on: what is read, and the mode after it. -/
def run (d : Dialect) (m : Mode) : List Char → Option (List Lexeme × Mode)
  | [] => some ([], m)
  | c :: rest =>
    match turn d m c with
    | none => none
    | some (es, m') => (run d m' rest).map fun r => (es ++ r.1, r.2)

/-- The end of the text. Quotes must be closed. -/
def finish : Mode → Option (List Lexeme)
  | .gap => some []
  | .comment => some []
  | .bare w => some [.word w]
  | .operator t => some [.op t]
  | _ => none

/-- The words and operators of a text. -/
def lexemes (d : Dialect) (text : List Char) : Option (List Lexeme) :=
  (run d .gap text).bind fun r => (finish r.2).map (r.1 ++ ·)

/-- The text leads from `m` to `m'` and is read as `es`. -/
def Reads (d : Dialect) (m : Mode) (text : List Char) (es : List Lexeme) (m' : Mode) : Prop :=
  run d m text = some (es, m')

variable {d : Dialect} {m m₁ m₂ : Mode} {xs ys w : List Char} {es fs : List Lexeme} {c : Char}

theorem Reads.nil : Reads d m [] [] m := rfl

theorem Reads.cons (hturn : turn d m c = some (es, m₁)) (hrest : Reads d m₁ xs fs m₂) :
    Reads d m (c :: xs) (es ++ fs) m₂ := by
  rw [Reads] at hrest ⊢
  simp only [run, hturn, hrest, map_some]

theorem run_of_reads (h : Reads d m xs es m₁) (ys : List Char) :
    run d m (xs ++ ys) = (run d m₁ ys).map fun r => (es ++ r.1, r.2) := by
  induction xs generalizing m es with
  | nil =>
    simp only [Reads, run, Option.some.injEq, Prod.mk.injEq] at h
    obtain ⟨rfl, rfl⟩ := h
    simp
  | cons c rest ih =>
    rw [Reads, run] at h
    cases hturn : turn d m c with
    | none => simp [hturn] at h
    | some r =>
      simp only [hturn] at h
      obtain ⟨s, hs, hsame⟩ := map_eq_some_iff.mp h
      obtain ⟨rfl, rfl⟩ := Prod.mk.inj hsame
      simp only [cons_append, run, hturn, ih hs, Option.map_map]
      congr 1
      funext t
      simp

theorem Reads.append (hxs : Reads d m xs es m₁) (hys : Reads d m₁ ys fs m₂) :
    Reads d m (xs ++ ys) (es ++ fs) m₂ := by
  rw [Reads] at hys ⊢
  rw [run_of_reads hxs, hys, map_some]

theorem Reads.step (hturn : turn d m c = some ([], m₁)) (hrest : Reads d m₁ xs es m₂) :
    Reads d m (c :: xs) es m₂ := Reads.cons hturn hrest

/-! ## Plain words and quoted text -/

/-- A character that stands for itself inside of a word. -/
def isOrdinary (c : Char) : Bool :=
  !isBlank c && c != '\n' && c != '\'' && c != '\\' && !isOperatorChar c && !needsExpansion c

/-- A text that is one word as it is. -/
def isPlainWord : List Char → Bool
  | [] => false
  | c :: rest => c != '=' && (c :: rest).all isOrdinary

theorem turnBare_ordinary (hc : isOrdinary c = true) :
    turnBare w c = some ([], .bare (w ++ [c])) := by
  simp only [isOrdinary, Bool.and_eq_true, Bool.not_eq_true', bne_iff_ne] at hc
  obtain ⟨⟨⟨⟨⟨h₁, h₂⟩, h₃⟩, h₄⟩, h₅⟩, h₆⟩ := hc
  simp [turnBare, h₁, h₂, h₃, h₄, h₅, h₆]

theorem reads_ordinary (hxs : xs.all isOrdinary = true) :
    Reads d (.bare w) xs [] (.bare (w ++ xs)) := by
  induction xs generalizing w with
  | nil => rw [append_nil]; exact .nil
  | cons c rest ih =>
    rw [all_cons, Bool.and_eq_true] at hxs
    rw [append_cons]
    exact .step (turnBare_ordinary hxs.1) (ih hxs.2)

theorem reads_plainWord (hxs : isPlainWord xs = true) : Reads d .gap xs [] (.bare xs) := by
  cases xs with
  | nil => cases hxs
  | cons c rest =>
    simp only [isPlainWord, all_cons, Bool.and_eq_true, bne_iff_ne] at hxs
    obtain ⟨hfirst, hc, hrest⟩ := hxs
    have hturn : turn d .gap c = some ([], .bare [c]) := by
      simp only [isOrdinary, Bool.and_eq_true, Bool.not_eq_true', bne_iff_ne] at hc
      obtain ⟨⟨⟨⟨⟨h₁, h₂⟩, h₃⟩, h₄⟩, h₅⟩, h₆⟩ := hc
      have hhash : c ≠ '#' := fun heq => absurd h₆ (by rw [heq]; decide)
      simp [turn, turnGap, h₁, h₂, h₃, h₄, h₅, h₆, hfirst, hhash]
    exact .step hturn (reads_ordinary hrest)

/-- Quotes are closed around a quote. -/
def quote (text : List Char) : List Char :=
  '\'' :: text.flatMap (fun c => if c = '\'' then ['\'', '\\', '\'', '\''] else [c]) ++ ['\'']

/-- A backslash in front of a quote and of a backslash. -/
def escapeQuote (text : List Char) : List Char :=
  '\'' :: text.flatMap (fun c => if c = '\\' ∨ c = '\'' then ['\\', c] else [c]) ++ ['\'']

theorem reads_closing : Reads d (.quoted w) ['\''] [] (.bare w) := rfl

theorem reads_flatMap {f : Char → List Char}
    (hf : ∀ w c, Reads d (.quoted w) (f c) [] (.quoted (w ++ [c]))) (w text : List Char) :
    Reads d (.quoted w) (text.flatMap f) [] (.quoted (w ++ text)) := by
  induction text generalizing w with
  | nil =>
    rw [append_nil]
    exact .nil
  | cons c rest ih =>
    rw [flatMap_cons, append_cons]
    exact (hf w c).append (ih (w ++ [c]))

/-- **What was quoted is read back**, at the end of any word. -/
theorem reads_quote (text : List Char) :
    Reads posix (.bare w) (quote text) [] (.bare (w ++ text)) := by
  refine .step rfl ((reads_flatMap ?_ w text).append reads_closing)
  intro w c
  by_cases hc : c = '\''
  · subst hc
    rfl
  · rw [if_neg hc]
    exact .step (by simp [turn, hc, posix]) .nil

theorem reads_escapeQuote (text : List Char) :
    Reads fish (.bare w) (escapeQuote text) [] (.bare (w ++ text)) := by
  refine .step rfl ((reads_flatMap ?_ w text).append reads_closing)
  intro w c
  by_cases hc : c = '\\' ∨ c = '\''
  · rw [if_pos hc]
    rcases hc with rfl | rfl
    · rfl
    · rfl
  · rw [if_neg hc]
    rw [not_or] at hc
    exact .step (by simp [turn, hc]) .nil

theorem reads_quote_gap (text : List Char) : Reads posix .gap (quote text) [] (.bare text) :=
  reads_quote (w := []) text

theorem reads_escapeQuote_gap (text : List Char) :
    Reads fish .gap (escapeQuote text) [] (.bare text) := reads_escapeQuote (w := []) text

theorem reads_comment (hxs : '\n' ∉ xs) : Reads d .comment xs [] .comment := by
  induction xs with
  | nil => exact .nil
  | cons c rest ih =>
    rw [mem_cons, not_or] at hxs
    exact .step (if_neg (Ne.symm hxs.1)) (ih hxs.2)

/-! ## Commands -/

/-- A word of a command, or a redirection with its file. -/
inductive Part where
  | word (text : List Char)
  | redirect (op target : List Char)
deriving DecidableEq, Repr

/-- A command: the operator before it, and its words and redirections as they are written. -/
structure Command where
  connector : List Char
  parts : List Part
deriving DecidableEq, Repr

def Part.word? : Part → Option (List Char)
  | .word text => some text
  | .redirect _ _ => none

/-- The words of a command. -/
def Command.words (cmd : Command) : List (List Char) := cmd.parts.filterMap Part.word?

/-- A command of words only, on a line of its own. -/
def Command.simple (words : List (List Char)) : Command := ⟨newline, words.map .word⟩

@[simp] theorem Command.words_simple (words : List (List Char)) : (simple words).words = words := by
  simp [Command.words, simple, Part.word?, filterMap_map, Function.comp_def]

/-- Nothing yet. -/
def Command.fresh (connector : List Char) : Command := ⟨connector, []⟩

/-- Nothing at all between two operators is no command. -/
def Command.emit (cmd : Command) : List Command := if cmd.parts = [] then [] else [cmd]

def isRedirect (o : List Char) : Bool := o.contains '<' || o.contains '>'

def separators : List (List Char) := [newline, [';'], ['&'], ['|'], ['|', '|'], ['&', '&']]

/-- Group words into commands. `redir` is a redirection that still needs its file. -/
def collect (redir : Option (List Char)) (cmd : Command) : List Lexeme → Option (List Command)
  | [] => if redir = none then some cmd.emit else none
  | .word w :: rest =>
    match redir with
    | none => collect none ⟨cmd.connector, cmd.parts ++ [.word w]⟩ rest
    | some o => collect none ⟨cmd.connector, cmd.parts ++ [.redirect o w]⟩ rest
  | .op o :: rest =>
    if redir ≠ none then none
    else if isRedirect o then collect (some o) cmd rest
    else if o ∈ separators then (collect none (.fresh o) rest).map (cmd.emit ++ ·)
    else none

/-- **The commands of a text.** -/
def commands (d : Dialect) (text : List Char) : Option (List Command) :=
  (lexemes d text).bind (collect none (.fresh newline))

/-- A text that begins and ends between two commands. -/
def IsLine (d : Dialect) (line : List Char) (cmds : List Command) : Prop :=
  ∃ es, Reads d .gap line (es ++ [.op newline]) .gap ∧ collect none (.fresh newline) es = some cmds

theorem collect_words (c : List Char) (ps : List Part) (ws : List (List Char)) (es : List Lexeme) :
    collect none ⟨c, ps⟩ (ws.map .word ++ es) = collect none ⟨c, ps ++ ws.map .word⟩ es := by
  induction ws generalizing ps with
  | nil => simp
  | cons w rest ih =>
    have hrest := ih (ps ++ [.word w])
    simpa [collect] using hrest

theorem collect_newline {redir : Option (List Char)} {cmd : Command} {cmds : List Command}
    (h : collect redir cmd es = some cmds) (fs : List Lexeme) :
    collect redir cmd (es ++ .op newline :: fs) =
      (collect none (.fresh newline) fs).map (cmds ++ ·) := by
  induction es generalizing redir cmd cmds with
  | nil =>
    cases redir with
    | some o => simp [collect] at h
    | none =>
      obtain rfl : cmd.emit = cmds := by simpa [collect] using h
      simp [collect, newline, isRedirect, separators]
  | cons e rest ih =>
    cases e with
    | word w =>
      cases redir with
      | none => exact ih h
      | some o => exact ih h
    | op o =>
      rw [collect] at h
      rw [cons_append, collect]
      split_ifs at h ⊢ with hredir hop hsep
      · exact ih h
      obtain ⟨cmds', hcmds', rfl⟩ := map_eq_some_iff.mp h
      rw [ih hcmds', Option.map_map]
      congr 1
      funext cs
      exact (append_assoc _ _ _).symm

theorem commands_append {line : List Char} {cmds : List Command} (h : IsLine d line cmds)
    (rest : List Char) : commands d (line ++ rest) = (commands d rest).map (cmds ++ ·) := by
  obtain ⟨es, hreads, hcollect⟩ := h
  unfold commands lexemes
  rw [run_of_reads hreads]
  cases hrun : run d .gap rest with
  | none => rfl
  | some r =>
    cases hfin : finish r.2 with
    | none => simp [hfin]
    | some fs =>
      have hnl := collect_newline hcollect (r.1 ++ fs)
      simpa [hfin] using hnl

/-- **What a text of lines runs.** -/
theorem commands_lines {ι : Type*} (line : ι → List Char) (cmds : ι → List Command) (is : List ι)
    (h : ∀ i ∈ is, IsLine d (line i) (cmds i)) :
    commands d (is.flatMap line) = some (is.flatMap cmds) := by
  induction is with
  | nil => rfl
  | cons i rest ih =>
    rw [flatMap_cons, commands_append (h i mem_cons_self),
      ih fun j hj => h j (mem_cons_of_mem _ hj)]
    rfl

/-! ## Running commands -/

variable {σ : Type*}

/-- Run commands one after the other; `ok` is the status of the last one. -/
def exec (builtin : List (List Char) → σ → Bool × σ) : Bool → List Command → σ → Bool × σ
  | ok, [], s => (ok, s)
  | ok, cmd :: rest, s =>
    if cmd.connector = ['|', '|'] ∧ ok = true ∨ cmd.connector = ['&', '&'] ∧ ok = false then
      exec builtin ok rest s
    else
      let r := builtin cmd.words s
      exec builtin r.1 rest r.2

theorem exec_simple (builtin : List (List Char) → σ → Bool × σ) (ok : Bool)
    (words : List (List Char)) (rest : List Command) (s : σ) :
    exec builtin ok (.simple words :: rest) s =
      exec builtin (builtin words s).1 rest (builtin words s).2 := by
  rw [exec, if_neg (by simp [Command.simple, newline]), Command.words_simple]

theorem exec_append (builtin : List (List Char) → σ → Bool × σ) (ok : Bool)
    (cs ds : List Command) (s : σ) :
    exec builtin ok (cs ++ ds) s =
      exec builtin (exec builtin ok cs s).1 ds (exec builtin ok cs s).2 := by
  induction cs generalizing ok s with
  | nil => rfl
  | cons cmd rest ih =>
    rw [cons_append, exec, exec]
    split_ifs
    · exact ih ok s
    · exact ih _ _

end ShellReader
