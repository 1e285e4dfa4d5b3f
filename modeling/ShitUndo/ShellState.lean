import ShitUndo.EnvDiff
import ShitUndo.PathText

/-!
# Undoing changes of the shell's state

Before and after a command the shell reports its working directory, its options and its aliases.
The daemon (`shell_state_track.rs`) journals what differs, and the planner renders the difference
as text for each shell (`shell_state_render.rs`), which the shell then evaluates.

* `snippetLines` says what the lines of a snippet are for: each runs one `Action`, or is a note to
  the user.
* `action_words_iff`: a shell takes the words of an action for that action, if the name is not taken
  for an option.
-/

namespace ShitUndo

open List Option ShellReader

/-! ## The daemon's side -/

/-- `ShellStatePre`, without its time. -/
structure ShellStatePre where
  pwd : PathBuf
  opts : EnvMap
  aliases : EnvMap

abbrev ShellStatePreStash := CommandId → Option ShellStatePre

def pairsToMap (pairs : List (String × String)) : EnvMap := .ofList pairs

/-- The names in either map, in order. -/
def allNames (pre post : EnvMap) : List String :=
  (SortedMap.ofList ((pre.keys ++ post.keys).map (·, ()))).keys

def diffStringMap (pre post : EnvMap) : List (String × String × String) :=
  (allNames pre post).filterMap fun name =>
    let p := (pre.get name).getD ""
    let q := (post.get name).getD ""
    if p ≠ q then some (name, p, q) else none

def diffOptionalMap (pre post : EnvMap) : List (String × Option String × Option String) :=
  (allNames pre post).filterMap fun name =>
    let p := pre.get name
    let q := post.get name
    if p ≠ q then some (name, p, q) else none

def handlePre (stash : ShellStatePreStash) (command : CommandId) (pwd : PathBuf)
    (opts aliases : List (String × String)) : ShellStatePreStash :=
  Function.update stash command (some ⟨pwd, pairsToMap opts, pairsToMap aliases⟩)

/-- `handle_post`: the stash without the entry, and the event it journals. -/
def handlePost (stash : ShellStatePreStash) (command : CommandId) (pwdAfter : PathBuf)
    (optsAfter aliasesAfter : List (String × String)) (ts : TimePoint) :
    ShellStatePreStash × Option CaptureEvent :=
  match stash command with
  | none => (stash, none)
  | some pre =>
    let optsDiff := diffStringMap pre.opts (pairsToMap optsAfter)
    let aliasesDiff := diffOptionalMap pre.aliases (pairsToMap aliasesAfter)
    (Function.update stash command none,
      if pre.pwd = pwdAfter ∧ optsDiff = [] ∧ aliasesDiff = [] then none
      else some
        { id := ⟨0⟩, command := command, ts := ts, isPartial := false
          kind := .shellStateDiff pre.pwd pwdAfter optsDiff aliasesDiff [] })

/-! ## The renderers -/

def shQuote (s : String) : String :=
  "'" ++ String.ofList (s.toList.flatMap fun c => if c = '\'' then "'\\''".toList else [c]) ++ "'"

/-- `fish_quote`: backslashes first, then quotes. -/
def fishQuote (s : String) : String :=
  "'" ++ String.ofList ((s.toList.flatMap fun c => if c = '\\' then "\\\\".toList else [c]).flatMap
    fun c => if c = '\'' then "\\'".toList else [c]) ++ "'"

/-- What the user is told about an option that a shell cannot set. -/
def noteText (opt : OptDiff) (remark : String) : String :=
  " manual: option `" ++ opt.name ++ "` was `" ++ opt.pre ++ "`, now `" ++ opt.post ++ "`" ++ remark

/-- The comment with it. -/
def manualNote (opt : OptDiff) (remark : String) : String := "#" ++ noteText opt remark ++ "\n"

/-- The remark in snippets for fish. -/
def fishRemark : String := " (fish has no `set -o` equivalent)"

/-- The line for an option, with the commands that turn one on and off. -/
def onOffLine (on off : String) (opt : OptDiff) : String :=
  if opt.pre = "on" ∧ opt.post ≠ "on" then on ++ opt.name ++ "\n"
  else if opt.pre = "off" ∧ opt.post ≠ "off" then off ++ opt.name ++ "\n"
  else manualNote opt ""

/-- The line for an alias. -/
def aliasLine (quote remove : String → String) (a : AliasDiff) : String :=
  match a.pre with
  | some expansion => "alias " ++ a.name ++ "=" ++ quote expansion ++ "\n"
  | none => remove a.name

/-- The lines for a function: its old text as it is. -/
def funcLine (remove : String → String) (f : AliasDiff) : String :=
  match f.pre with
  | some body => if body.toList.getLast? = some '\n' then body else body ++ "\n"
  | none => remove f.name

/-- The line for the working directory, if it changed. -/
def cdLine (quote : String → String) : Option PathBuf → String
  | some p => "cd " ++ quote p.display ++ "\n"
  | none => ""

/-- What the three renderers share. -/
def renderWith (quote : String → String) (optLine : OptDiff → String)
    (removeAlias removeFunc : String → String) (pwdBefore : Option PathBuf) (opts : List OptDiff)
    (aliases funcs : List AliasDiff) : String :=
  cdLine quote pwdBefore ++ String.join (opts.map optLine)
    ++ String.join (aliases.map (aliasLine quote removeAlias))
    ++ String.join (funcs.map (funcLine removeFunc))

def renderBash : Option PathBuf → List OptDiff → List AliasDiff → List AliasDiff → String :=
  renderWith shQuote (onOffLine "set -o " "set +o ")
    (fun name => "unalias " ++ name ++ " 2>/dev/null || true\n")
    (fun name => "unset -f " ++ name ++ " 2>/dev/null || true\n")

def renderZsh : Option PathBuf → List OptDiff → List AliasDiff → List AliasDiff → String :=
  renderWith shQuote (onOffLine "setopt " "unsetopt ")
    (fun name => "unalias " ++ name ++ " 2>/dev/null || true\n")
    (fun name => "unset -f " ++ name ++ " 2>/dev/null || true\n")

def renderFish : Option PathBuf → List OptDiff → List AliasDiff → List AliasDiff → String :=
  renderWith fishQuote (fun opt => manualNote opt fishRemark)
    (fun name => "functions --erase " ++ name ++ " 2>/dev/null; or true\n")
    (fun name => "functions --erase " ++ name ++ " 2>/dev/null; or true\n")

/-- Any renderers, with these three for the shell's state. -/
def Renderers.withShellState (r : Renderers) : Renderers :=
  { r with
    renderBash := ShitUndo.renderBash
    renderZsh := ShitUndo.renderZsh
    renderFish := ShitUndo.renderFish }

/-! ## What a shell does -/

inductive Shell where
  | bash | zsh | fish
deriving DecidableEq, Repr

/-- The snippet an op holds for a shell. -/
def Shell.snippet (sh : Shell) : InverseOp → Option String
  | .shellStateRestore _ _ _ _ snippetBash snippetZsh snippetFish =>
    match sh with
    | .bash => snippetBash
    | .zsh => snippetZsh
    | .fish => snippetFish
  | _ => none

def Shell.dialect : Shell → ShellReader.Dialect
  | .bash | .zsh => posix
  | .fish => ShellReader.fish

/-- What one command does to the state of the shell. -/
inductive Action where
  | cd (dir : List Char)
  | setOption (name : List Char) (on : Bool)
  | setAlias (name expansion : List Char)
  | unalias (name : List Char)
  | succeed
deriving DecidableEq, Repr

/-- The command that changes the working directory. -/
def cdCall : List (List Char) := ["cd".toList]

/-- The command that defines an alias. -/
def aliasCall : List (List Char) := ["alias".toList]

/-- The command, and the flags before the name, that turn an option on or off. -/
def Shell.optionCall : Shell → Bool → Option (List (List Char))
  | .bash, true => some ["set".toList, "-o".toList]
  | .bash, false => some ["set".toList, "+o".toList]
  | .zsh, true => some ["setopt".toList]
  | .zsh, false => some ["unsetopt".toList]
  | .fish, _ => none

/-- The command that removes an alias. -/
def Shell.removeCall : Shell → List (List Char)
  | .bash | .zsh => ["unalias".toList]
  | .fish => ["functions".toList, "--erase".toList]

/-- The command that does nothing, successfully. -/
def Shell.succeedCall : Shell → List (List Char)
  | .bash | .zsh => ["true".toList]
  | .fish => ["or".toList, "true".toList]

/-- An argument of `alias` that begins like this is an option. -/
def Shell.aliasFlags : Shell → List Char
  | .bash | .fish => ['-']
  | .zsh => ['-', '+']

/-- The argument begins with one of these. -/
def beginsWith (flags arg : List Char) : Bool := arg.head?.any flags.contains

/-- **What the words of a command ask for.** -/
def Shell.action (sh : Shell) (words : List (List Char)) : Option Action :=
  match words.getLast? with
  | none => none
  | some arg =>
    if words = sh.succeedCall then some .succeed
    else if words.dropLast = cdCall then some (.cd arg)
    else if words.dropLast = aliasCall then
      if '=' ∉ arg ∨ beginsWith sh.aliasFlags arg then none
      else some (.setAlias (arg.takeWhile (· != '=')) ((arg.dropWhile (· != '=')).drop 1))
    else if words.dropLast = sh.removeCall then
      if beginsWith ['-'] arg then none else some (.unalias arg)
    else if some words.dropLast = sh.optionCall true then
      if beginsWith ['-', '+'] arg then none else some (.setOption arg true)
    else if some words.dropLast = sh.optionCall false then
      if beginsWith ['-', '+'] arg then none else some (.setOption arg false)
    else none

/-! ## The lines of a snippet -/

/-- What a line of a snippet is for. -/
inductive SnippetLine where
  | run (action : Action)
  | note (text : List Char)
deriving DecidableEq, Repr

/-- The line of an option. -/
def optSnippet (sh : Shell) (opt : OptDiff) : SnippetLine :=
  match sh with
  | .fish => .note (noteText opt fishRemark).toList
  | _ =>
    if opt.pre = "on" ∧ opt.post ≠ "on" then .run (.setOption opt.name.toList true)
    else if opt.pre = "off" ∧ opt.post ≠ "off" then .run (.setOption opt.name.toList false)
    else .note (noteText opt "").toList

/-- The line of an alias. -/
def aliasSnippet (a : AliasDiff) : SnippetLine :=
  match a.pre with
  | some expansion => .run (.setAlias a.name.toList expansion.toList)
  | none => .run (.unalias a.name.toList)

/-- **The lines of the snippet for a difference without functions.** -/
def snippetLines (sh : Shell) (pwdBefore : Option PathBuf) (opts : List OptDiff)
    (aliases : List AliasDiff) : List SnippetLine :=
  (pwdBefore.map fun p => .run (.cd p.display.toList)).toList ++ opts.map (optSnippet sh)
    ++ aliases.map aliasSnippet

def Shell.quote : Shell → List Char → List Char
  | .bash | .zsh => ShellReader.quote
  | .fish => escapeQuote

/-- Words with a blank after each. -/
def blankAfter (words : List (List Char)) : List Char := words.flatMap (· ++ [' '])

/-- The text after a name that is removed. -/
def Shell.afterRemove : Shell → List Char
  | .bash | .zsh => " 2>/dev/null || true".toList
  | .fish => " 2>/dev/null; or true".toList

def Action.text (sh : Shell) : Action → List Char
  | .cd dir => blankAfter cdCall ++ sh.quote dir
  | .setOption name on => blankAfter ((sh.optionCall on).getD []) ++ name
  | .setAlias name expansion => blankAfter aliasCall ++ name ++ '=' :: sh.quote expansion
  | .unalias name => blankAfter sh.removeCall ++ name ++ sh.afterRemove
  | .succeed => []

/-- The text of a line, with its end. -/
def SnippetLine.text (sh : Shell) : SnippetLine → List Char
  | .run action => action.text sh ++ ['\n']
  | .note text => '#' :: text ++ ['\n']

/-- The words of the command of an action. -/
def Action.words (sh : Shell) : Action → List (List Char)
  | .cd dir => cdCall ++ [dir]
  | .setOption name on => (sh.optionCall on).getD [] ++ [name]
  | .setAlias name expansion => aliasCall ++ [name ++ '=' :: expansion]
  | .unalias name => sh.removeCall ++ [name]
  | .succeed => sh.succeedCall

/-- The operator before the command that does nothing. -/
def Shell.orElse : Shell → List Char
  | .bash | .zsh => ['|', '|']
  | .fish => [';']

/-- The commands of an action. A failure to remove an alias is ignored. -/
def Action.commands (sh : Shell) : Action → List ShellReader.Command
  | .unalias name =>
    [⟨newline, (sh.removeCall ++ [name]).map .word
        ++ [.redirect "2>".toList "/dev/null".toList]⟩,
      ⟨sh.orElse, sh.succeedCall.map .word⟩]
  | action => [.simple (action.words sh)]

/-- The commands of a line. -/
def SnippetLine.commands (sh : Shell) : SnippetLine → List ShellReader.Command
  | .run action => action.commands sh
  | .note _ => []

/-! ## The renderers write these lines -/

theorem toList_shQuote (s : String) : (shQuote s).toList = quote s.toList := by
  have hescaped : "'\\''".toList = ['\'', '\\', '\'', '\''] := rfl
  have hquote : "'".toList = ['\''] := rfl
  simp only [shQuote, quote, String.toList_append, String.toList_ofList, hescaped,
    hquote, singleton_append]

theorem toList_fishQuote (s : String) :
    (fishQuote s).toList = escapeQuote s.toList := by
  have hinner : ∀ c : Char, (if c = '\\' then ['\\', '\\'] else [c]).flatMap
          (fun c => if c = '\'' then ['\\', '\''] else [c]) =
        if c = '\\' ∨ c = '\'' then ['\\', c] else [c] := by
    intro c
    by_cases hslash : c = '\\'
    · subst hslash
      rfl
    · by_cases hquote : c = '\''
      · subst hquote
        rfl
      · simp [hslash, hquote]
  simp [fishQuote, escapeQuote, flatMap_assoc, hinner]

theorem toList_manualNote {sh : Shell} (opt : OptDiff) (remark : String) :
    (manualNote opt remark).toList = (SnippetLine.note (noteText opt remark).toList).text sh := by
  rw [manualNote, String.toList_append, String.toList_append]
  rfl

theorem toList_join_map {α : Type*} (f : α → String) (l : List α) :
    (String.join (l.map f)).toList = l.flatMap fun a => (f a).toList := by
  induction l with
  | nil => rfl
  | cons a rest ih => simp [String.join_cons, ih]

variable {sh : Shell}

section Render

variable {quote : String → String} {optLine : OptDiff → String} {removeAlias : String → String}

theorem toList_renderWith (removeFunc : String → String)
    (hquote : ∀ s, (quote s).toList = sh.quote s.toList)
    (hopt : ∀ opt, (optLine opt).toList = (optSnippet sh opt).text sh)
    (hremove : ∀ name, (removeAlias name).toList = (SnippetLine.run (.unalias name.toList)).text sh)
    (pwdBefore : Option PathBuf) (opts : List OptDiff) (aliases : List AliasDiff) :
    (renderWith quote optLine removeAlias removeFunc pwdBefore opts aliases []).toList =
      (snippetLines sh pwdBefore opts aliases).flatMap (SnippetLine.text sh) := by
  have hend : "\n".toList = ['\n'] := rfl
  have hequals : "=".toList = ['='] := rfl
  have hpwd : (cdLine quote pwdBefore).toList =
      ((pwdBefore.map fun p => SnippetLine.run (.cd p.display.toList)).toList).flatMap
        (SnippetLine.text sh) := by
    cases pwdBefore with
    | none => rfl
    | some p =>
      have hcall : "cd ".toList = blankAfter cdCall := rfl
      rw [cdLine, String.toList_append, String.toList_append, hquote, hend, hcall, map_some,
        toList_some, flatMap_singleton, SnippetLine.text, Action.text]
  have halias : ∀ a, (aliasLine quote removeAlias a).toList = (aliasSnippet a).text sh := by
    intro a
    unfold aliasLine aliasSnippet
    cases a.pre with
    | none => exact hremove a.name
    | some expansion =>
      have hcall : "alias ".toList = blankAfter aliasCall := rfl
      simp only [String.toList_append, hquote, hend, hequals, hcall, SnippetLine.text, Action.text,
        append_assoc, nil_append, cons_append]
  simp only [renderWith, String.toList_append, hpwd, toList_join_map, hopt, halias, snippetLines,
    flatMap_append, flatMap_map, flatMap_nil, append_nil]

theorem toList_onOffLine {on off : String} (hsh : sh ≠ .fish)
    (hon : on.toList = blankAfter ((sh.optionCall true).getD []))
    (hoff : off.toList = blankAfter ((sh.optionCall false).getD [])) (opt : OptDiff) :
    (onOffLine on off opt).toList = (optSnippet sh opt).text sh := by
  have hsnippet : optSnippet sh opt =
      if opt.pre = "on" ∧ opt.post ≠ "on" then .run (.setOption opt.name.toList true)
      else if opt.pre = "off" ∧ opt.post ≠ "off" then .run (.setOption opt.name.toList false)
      else .note (noteText opt "").toList := by
    cases sh with
    | fish => exact absurd rfl hsh
    | bash => rfl
    | zsh => rfl
  have hend : "\n".toList = ['\n'] := rfl
  rw [hsnippet, onOffLine]
  split_ifs
  · simp only [SnippetLine.text, Action.text, String.toList_append, hon, hend]
  · simp only [SnippetLine.text, Action.text, String.toList_append, hoff, hend]
  · exact toList_manualNote opt ""

theorem toList_unalias (hsh : sh ≠ .fish) (name : String) :
    ("unalias " ++ name ++ " 2>/dev/null || true\n").toList =
      (SnippetLine.run (.unalias name.toList)).text sh := by
  have hcall : blankAfter sh.removeCall = "unalias ".toList := by
    cases sh with
    | fish => exact absurd rfl hsh
    | bash => decide
    | zsh => decide
  have hafter : sh.afterRemove ++ ['\n'] = " 2>/dev/null || true\n".toList := by
    cases sh with
    | fish => exact absurd rfl hsh
    | bash => decide
    | zsh => decide
  rw [SnippetLine.text, Action.text, append_assoc, hafter, hcall, String.toList_append,
    String.toList_append]

theorem toList_renderBash (pwdBefore : Option PathBuf) (opts : List OptDiff)
    (aliases : List AliasDiff) :
    (renderBash pwdBefore opts aliases []).toList =
      (snippetLines .bash pwdBefore opts aliases).flatMap (SnippetLine.text .bash) := by
  have hopt : ∀ opt,
      (onOffLine "set -o " "set +o " opt).toList = (optSnippet .bash opt).text .bash :=
    toList_onOffLine (by decide) (by simp [blankAfter, Shell.optionCall])
      (by simp [blankAfter, Shell.optionCall])
  exact toList_renderWith _ toList_shQuote hopt (toList_unalias (by decide)) _ _ _

theorem toList_renderZsh (pwdBefore : Option PathBuf) (opts : List OptDiff)
    (aliases : List AliasDiff) :
    (renderZsh pwdBefore opts aliases []).toList =
      (snippetLines .zsh pwdBefore opts aliases).flatMap (SnippetLine.text .zsh) := by
  have hopt : ∀ opt,
      (onOffLine "setopt " "unsetopt " opt).toList = (optSnippet .zsh opt).text .zsh :=
    toList_onOffLine (by decide) (by simp [blankAfter, Shell.optionCall])
      (by simp [blankAfter, Shell.optionCall])
  exact toList_renderWith _ toList_shQuote hopt (toList_unalias (by decide)) _ _ _

theorem toList_renderFish (pwdBefore : Option PathBuf) (opts : List OptDiff)
    (aliases : List AliasDiff) :
    (renderFish pwdBefore opts aliases []).toList =
      (snippetLines .fish pwdBefore opts aliases).flatMap (SnippetLine.text .fish) := by
  have hopt : ∀ opt, (manualNote opt fishRemark).toList = (optSnippet .fish opt).text .fish := by
    intro opt
    exact toList_manualNote opt fishRemark
  have hremove : ∀ name : String,
      ("functions --erase " ++ name ++ " 2>/dev/null; or true\n").toList =
      (SnippetLine.run (.unalias name.toList)).text .fish := by
    intro name
    have hcall : blankAfter Shell.fish.removeCall = "functions --erase ".toList := by decide
    have hafter : Shell.fish.afterRemove ++ ['\n'] = " 2>/dev/null; or true\n".toList := by decide
    rw [SnippetLine.text, Action.text, append_assoc, hafter, hcall, String.toList_append,
      String.toList_append]
  exact toList_renderWith _ toList_fishQuote hopt hremove _ _ _

end Render

/-! ## What the lines are read as -/

section Lines

open ShellReader (Reads IsLine Command newline isPlainWord)

variable {d : ShellReader.Dialect}

/-- The name an action writes as it is stands for itself. -/
def Action.BareName : Action → Prop
  | .setOption name _ | .setAlias name _ | .unalias name => isPlainWord name = true
  | _ => True

/-- The shell takes the name for a name: not for an option, and all of it. -/
def Action.IsOperand (sh : Shell) : Action → Prop
  | .setOption name _ => beginsWith ['-', '+'] name = false
  | .setAlias name _ => '=' ∉ name ∧ beginsWith sh.aliasFlags name = false
  | .unalias name => beginsWith ['-'] name = false
  | _ => True

/-- The shell has such an action. -/
def Action.Known (sh : Shell) : Action → Prop
  | .setOption _ on => (sh.optionCall on).isSome = true
  | .succeed => False
  | _ => True

theorem reads_cdCall (d : ShellReader.Dialect) :
    Reads d .gap (blankAfter cdCall) (cdCall.map .word) .gap := rfl

theorem reads_aliasCall (d : ShellReader.Dialect) :
    Reads d .gap (blankAfter aliasCall) (aliasCall.map .word) .gap := rfl

theorem reads_removeCall (d : ShellReader.Dialect) (sh : Shell) :
    Reads d .gap (blankAfter sh.removeCall) (sh.removeCall.map .word) .gap := by
  cases sh <;> rfl

theorem reads_optionCall (d : ShellReader.Dialect) (sh : Shell) (on : Bool) :
    Reads d .gap (blankAfter ((sh.optionCall on).getD [])) (((sh.optionCall on).getD []).map .word)
      .gap := by
  cases sh <;> cases on <;> rfl

theorem reads_quoted (sh : Shell) (w text : List Char) :
    Reads sh.dialect (.bare w) (sh.quote text) [] (.bare (w ++ text)) := by
  cases sh with
  | fish => exact ShellReader.reads_escapeQuote text
  | bash | zsh => exact ShellReader.reads_quote text

theorem reads_quoted_gap (sh : Shell) (text : List Char) :
    Reads sh.dialect .gap (sh.quote text) [] (.bare text) := by
  cases sh with
  | fish => exact ShellReader.reads_escapeQuote_gap text
  | bash | zsh => exact ShellReader.reads_quote_gap text

theorem isLine_words {line w : List Char} {call : List (List Char)}
    (h : Reads d .gap line (call.map .word) (.bare w)) :
    IsLine d (line ++ ['\n']) [.simple (call ++ [w])] := by
  have hcollect : collect none (.fresh newline) ((call ++ [w]).map .word) =
      some [.simple (call ++ [w])] := by
    have hwords := collect_words newline [] (call ++ [w]) []
    rw [append_nil, nil_append, collect, if_pos rfl] at hwords
    exact hwords.trans (by simp [Command.emit, Command.simple])
  have hend : Reads d (.bare w) ['\n'] [.word w, .op newline] .gap := rfl
  refine ⟨(call ++ [w]).map .word, ?_, hcollect⟩
  simpa using h.append hend

theorem isLine_note {text : List Char} (h : '\n' ∉ text) :
    IsLine d ((SnippetLine.note text).text sh) [] := by
  have hend : Reads d .comment ['\n'] [.op newline] .gap := rfl
  exact ⟨[], .step rfl ((reads_comment h).append hend), rfl⟩

theorem reads_afterRemove (sh : Shell) (name : List Char) :
    Reads sh.dialect (.bare name) (sh.afterRemove ++ ['\n'])
      ([.word name, .op "2>".toList, .word "/dev/null".toList, .op sh.orElse]
        ++ sh.succeedCall.map .word ++ [.op newline]) .gap := by
  cases sh <;> rfl

/-- **The line of an action is its commands.** -/
theorem isLine_run {a : Action} (hbare : a.BareName) (hknown : a.Known sh) :
    IsLine sh.dialect ((SnippetLine.run a).text sh) (a.commands sh) := by
  cases a with
  | succeed => exact hknown.elim
  | cd dir =>
    have hall := (reads_cdCall sh.dialect).append (reads_quoted_gap sh dir)
    rw [append_nil] at hall
    exact isLine_words hall
  | setOption name on =>
    have hall := (reads_optionCall sh.dialect sh on).append (reads_plainWord hbare)
    rw [append_nil] at hall
    exact isLine_words hall
  | setAlias name expansion =>
    have hequals : Reads sh.dialect (.bare name) ['='] [] (.bare (name ++ ['='])) := rfl
    have hall := ((reads_aliasCall sh.dialect).append (reads_plainWord hbare)).append
      (hequals.append (reads_quoted sh (name ++ ['=']) expansion))
    simp only [append_nil, append_assoc, singleton_append] at hall
    exact isLine_words (by rw [Action.text, append_assoc]; exact hall)
  | unalias name =>
    have hall := ((reads_removeCall sh.dialect sh).append
      (reads_plainWord hbare)).append (reads_afterRemove sh name)
    refine ⟨sh.removeCall.map .word ++ [.word name, .op "2>".toList, .word "/dev/null".toList,
      .op sh.orElse] ++ sh.succeedCall.map .word, ?_, ?_⟩
    · simpa [SnippetLine.text, Action.text] using hall
    · cases sh <;> rfl

end Lines

/-! ## What the words mean -/

section Meaning

variable {name : List Char}

theorem beginsWith_append {flags : List Char} (c : Char) (rest : List Char)
    (hc : flags.contains c = false) :
    beginsWith flags (name ++ c :: rest) = beginsWith flags name := by
  cases name with
  | nil => simpa [beginsWith] using hc
  | cons d ds => rfl

theorem beginsWith_dash (h : beginsWith ['-', '+'] name = false) :
    beginsWith ['-'] name = false := by
  cases name with
  | nil => rfl
  | cons c cs =>
    simp only [beginsWith, head?_cons, any_some, contains_cons, Bool.or_eq_false_iff] at h ⊢
    exact ⟨h.1, rfl⟩

theorem takeWhile_equals (rest : List Char) (h : '=' ∉ name) :
    (name ++ '=' :: rest).takeWhile (· != '=') = name ∧
      (name ++ '=' :: rest).dropWhile (· != '=') = '=' :: rest := by
  have hne : ∀ c ∈ name, (c != '=') = true := by
    intro c hc
    exact bne_iff_ne.mpr fun heq => h (heq ▸ hc)
  rw [takeWhile_append_of_pos hne, dropWhile_append_of_pos hne]
  simp

theorem Shell.action_call (sh : Shell) (call : List (List Char)) (arg : List Char) :
    sh.action (call ++ [arg]) =
      if call ++ [arg] = sh.succeedCall then some .succeed
      else if call = cdCall then some (.cd arg)
      else if call = aliasCall then
        if '=' ∉ arg ∨ beginsWith sh.aliasFlags arg then none
        else some (.setAlias (arg.takeWhile (· != '=')) ((arg.dropWhile (· != '=')).drop 1))
      else if call = sh.removeCall then
        if beginsWith ['-'] arg then none else some (.unalias arg)
      else if some call = sh.optionCall true then
        if beginsWith ['-', '+'] arg then none else some (.setOption arg true)
      else if some call = sh.optionCall false then
        if beginsWith ['-', '+'] arg then none else some (.setOption arg false)
      else none := by
  simp only [Shell.action, getLast?_concat, dropLast_concat]

/-- **The shell takes the words of an action for that action**, exactly if the name is one. -/
theorem action_words_iff {a : Action} (hknown : a.Known sh) :
    sh.action (a.words sh) = some a ↔ a.IsOperand sh := by
  cases a with
  | succeed => exact hknown.elim
  | cd dir =>
    have hne : cdCall ++ [dir] ≠ sh.succeedCall := by
      cases sh <;> simp [cdCall, Shell.succeedCall]
    simp [Action.words, Shell.action_call, Action.IsOperand, hne]
  | setAlias name expansion =>
    have hne : aliasCall ++ [name ++ '=' :: expansion] ≠ sh.succeedCall := by
      cases sh <;> simp [aliasCall, Shell.succeedCall]
    have hcd : aliasCall ≠ cdCall := by decide
    have hflags : sh.aliasFlags.contains '=' = false := by cases sh <;> decide
    rw [Action.words, Shell.action_call, if_neg hne, if_neg hcd, if_pos rfl,
      beginsWith_append '=' expansion hflags, Action.IsOperand]
    constructor
    · intro h
      split_ifs at h with hflag
      obtain ⟨hname, -⟩ := Action.setAlias.inj (some.inj h)
      refine ⟨fun hmem => ?_, by simpa using fun hb => hflag (.inr hb)⟩
      rw [← hname] at hmem
      exact absurd (mem_takeWhile_imp hmem) (by simp)
    · rintro ⟨hequals, hflag⟩
      obtain ⟨htake, hdrop⟩ := takeWhile_equals expansion hequals
      simp [hflag, htake, hdrop]
  | unalias name =>
    have hne : sh.removeCall ++ [name] ≠ sh.succeedCall := by
      cases sh <;> simp [Shell.removeCall, Shell.succeedCall]
    have hcd : sh.removeCall ≠ cdCall := by cases sh <;> decide
    have halias : sh.removeCall ≠ aliasCall := by cases sh <;> decide
    rw [Action.words, Shell.action_call, if_neg hne, if_neg hcd, if_neg halias, if_pos rfl,
      Action.IsOperand]
    by_cases hflag : beginsWith ['-'] name = true <;> simp [hflag]
  | setOption name on =>
    obtain ⟨call, hcall⟩ := isSome_iff_exists.mp hknown
    have hne : call ++ [name] ≠ sh.succeedCall := by
      cases sh <;> cases on <;> cases hcall <;> simp [Shell.succeedCall]
    have hcd : call ≠ cdCall := by cases sh <;> cases on <;> cases hcall <;> decide
    have halias : call ≠ aliasCall := by cases sh <;> cases on <;> cases hcall <;> decide
    have hremove : call ≠ sh.removeCall := by cases sh <;> cases on <;> cases hcall <;> decide
    rw [Action.words, hcall, getD_some, Shell.action_call, if_neg hne, if_neg hcd,
      if_neg halias, if_neg hremove, Action.IsOperand, ← hcall]
    cases on with
    | true =>
      by_cases hflag : beginsWith ['-', '+'] name = true <;> simp [hflag]
    | false =>
      have hoff : sh.optionCall false ≠ sh.optionCall true := by
        cases sh with
        | fish => cases hcall
        | bash => decide
        | zsh => decide
      by_cases hflag : beginsWith ['-', '+'] name = true <;> simp [hflag, hoff]

end Meaning

end ShitUndo
