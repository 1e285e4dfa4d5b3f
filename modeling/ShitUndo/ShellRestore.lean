import ShitUndo.ShellState

/-!
# Evaluating snippets for the shell's state

What a shell makes of the snippets rendered for it: `Action.apply` is what becomes of its state,
`Shell.eval` runs the commands of a whole snippet.

`shellState_restored`: a difference is journaled exactly when there is one, and the snippet planned
for it gives back the state from before the command, if the names of the aliases that changed can be
written as they are.
-/

namespace ShitUndo

open List Option ShellReader ShitUndo.Action SortedMap PathBuf Prod Shell

/-! ## Evaluating a snippet -/

/-- The part of a shell's state that is tracked. The working directory is given by the names that
lead to it from the root. -/
structure ShellState where
  pwd : List String
  opts : EnvMap
  aliases : EnvMap
deriving DecidableEq

/-- Follow a path from a directory, by its text alone. -/
def followDir (base : List String) (p : PathBuf) : List String :=
  p.foldl (fun dir c => match c with
    | .rootDir => []
    | .curDir => dir
    | .parentDir => dir.dropLast
    | .normal name => dir ++ [name]) base

/-- The text of an option's value. -/
def onOff (on : Bool) : String := if on then "on" else "off"

/-- What becomes of the state, and whether the command succeeds. -/
def Action.apply (st : ShellState) : Action → Bool × ShellState
  | .cd dir => (true, { st with pwd := followDir st.pwd (.ofString (String.ofList dir)) })
  | .setOption name on =>
    if st.opts.get (String.ofList name) = none then (false, st)
    else (true, { st with opts := st.opts.insert (String.ofList name) (onOff on) })
  | .setAlias name expansion =>
    (true, { st with
      aliases := st.aliases.insert (String.ofList name) (String.ofList expansion) })
  | .unalias name =>
    if st.aliases.get (String.ofList name) = none then (false, st)
    else (true, { st with aliases := st.aliases.erase (String.ofList name) })
  | .succeed => (true, st)

/-- Run the words of a command. A builtin that is shadowed by an alias is not run. -/
def Shell.builtin (sh : Shell) (words : List (List Char)) (st : ShellState) : Bool × ShellState :=
  if (words.head?.bind fun name => st.aliases.get (String.ofList name)) ≠ none then (false, st)
  else match sh.action words with
    | none => (false, st)
    | some action => action.apply st

/-- Evaluate a snippet. -/
def Shell.eval (sh : Shell) (snippet : String) (st : ShellState) : Option ShellState :=
  (commands sh.dialect snippet.toList).map fun cmds =>
    (exec sh.builtin true cmds st).2

/-- The commands snippets are made of. -/
def builtinNames : List String :=
  ["cd", "set", "setopt", "unsetopt", "alias", "unalias", "functions", "true", "or"]

/-- None of them is an alias. -/
def NoBuiltinShadowed (aliases : EnvMap) : Prop := ∀ name ∈ builtinNames, aliases.get name = none

section Eval

variable {sh : Shell} {st : ShellState} {a : Action} {actions : List Action}

theorem head_words_mem (hknown : a.Known sh) :
    ∃ name ∈ builtinNames, (a.words sh).head? = some name.toList := by
  cases a with
  | succeed => exact hknown.elim
  | cd dir => exact ⟨"cd", by decide, rfl⟩
  | setAlias name expansion => exact ⟨"alias", by decide, rfl⟩
  | unalias name =>
    cases sh with
    | fish => exact ⟨"functions", by decide, rfl⟩
    | bash | zsh => exact ⟨"unalias", by decide, rfl⟩
  | setOption name on =>
    cases sh with
    | fish => cases hknown
    | bash => exact ⟨"set", by decide, by cases on <;> rfl⟩
    | zsh =>
      cases on with
      | true => exact ⟨"setopt", by decide, rfl⟩
      | false => exact ⟨"unsetopt", by decide, rfl⟩

theorem builtin_words (hshadow : NoBuiltinShadowed st.aliases) (hknown : a.Known sh)
    (hoperand : a.IsOperand sh) : sh.builtin (a.words sh) st = a.apply st := by
  obtain ⟨name, hname, hhead⟩ := head_words_mem hknown
  rw [builtin, hhead, bind_some, String.ofList_toList, hshadow name hname,
    if_neg (by simp), (action_words_iff hknown).mpr hoperand]

theorem builtin_succeedCall (hsh : sh ≠ .fish) (hshadow : NoBuiltinShadowed st.aliases) :
    sh.builtin sh.succeedCall st = (true, st) := by
  have htrue : st.aliases.get "true" = none := hshadow "true" (by decide)
  cases sh with
  | fish => exact absurd rfl hsh
  | bash | zsh => simp [builtin, succeedCall, htrue, action, apply]

/-- **What the commands of an action do**, also when removing an alias fails. -/
theorem exec_commands (hsh : sh ≠ .fish) (hshadow : NoBuiltinShadowed st.aliases)
    (hknown : a.Known sh) (hoperand : a.IsOperand sh) (ok : Bool) :
    (exec sh.builtin ok (a.commands sh) st).2 = (a.apply st).2 := by
  have hbuiltin := builtin_words hshadow hknown hoperand
  have hsingle : (exec sh.builtin ok [.simple (a.words sh)] st).2 = (a.apply st).2 := by
    rw [exec_simple, hbuiltin, exec]
  cases a with
  | succeed => exact hknown.elim
  | cd dir | setOption name on | setAlias name expansion => exact hsingle
  | unalias name =>
    have hor : sh.orElse = ['|', '|'] := by
      cases sh with
      | fish => exact absurd rfl hsh
      | bash => rfl
      | zsh => rfl
    have hwords : ∀ ps : List (List Char), (ShellReader.Command.mk newline
        (ps.map .word ++ [.redirect "2>".toList "/dev/null".toList])).words = ps := by
      intro ps
      simp [ShellReader.Command.words, ShellReader.Part.word?, filterMap_map, Function.comp_def]
    have hsucceed : (ShellReader.Command.mk sh.orElse (sh.succeedCall.map .word)).words =
        sh.succeedCall := ShellReader.Command.words_simple _
    rw [Action.commands, exec, if_neg (by simp [newline]), hwords,
      ← words, hbuiltin, exec, hsucceed, hor]
    by_cases hget : st.aliases.get (String.ofList name) = none
    · have hfail : apply st (.unalias name) = (false, st) := by
        rw [apply, if_pos hget]
      simp [hfail, builtin_succeedCall hsh hshadow, exec]
    · simp [apply, hget, exec]

/-- The action gives no builtin's name to an alias. -/
def Action.KeepsBuiltins : Action → Prop
  | .setAlias name _ => String.ofList name ∉ builtinNames
  | _ => True

theorem noBuiltinShadowed_apply (hshadow : NoBuiltinShadowed st.aliases)
    (hkeeps : a.KeepsBuiltins) : NoBuiltinShadowed (a.apply st).2.aliases := by
  cases a with
  | succeed | cd dir => exact hshadow
  | setOption name on =>
    rw [apply]
    split_ifs <;> exact hshadow
  | setAlias name expansion =>
    intro b hb
    have hne : b ≠ String.ofList name := fun heq => hkeeps (heq ▸ hb)
    simpa [apply, get_insert, hne] using hshadow b hb
  | unalias name =>
    intro b hb
    rw [apply]
    split_ifs
    · exact hshadow b hb
    · simp [get_erase, hshadow b hb]

/-- The state after actions, one after the other. -/
def applyAll (st : ShellState) (actions : List Action) : ShellState :=
  actions.foldl (fun st a => (a.apply st).2) st

theorem applyAll_append (st : ShellState) (as bs : List Action) :
    applyAll st (as ++ bs) = applyAll (applyAll st as) bs := List.foldl_append

theorem exec_actions (hsh : sh ≠ .fish)
    (hactions : ∀ a ∈ actions, a.Known sh ∧ a.IsOperand sh ∧ a.KeepsBuiltins)
    (hshadow : NoBuiltinShadowed st.aliases) (ok : Bool) :
    (exec sh.builtin ok (actions.flatMap (commands sh)) st).2 = applyAll st actions := by
  induction actions generalizing st ok with
  | nil => rfl
  | cons a rest ih =>
    obtain ⟨hknown, hoperand, hkeeps⟩ := hactions a mem_cons_self
    rw [flatMap_cons, exec_append, exec_commands hsh hshadow hknown hoperand,
      ih (fun b hb => hactions b (mem_cons_of_mem a hb)) (noBuiltinShadowed_apply hshadow hkeeps)]
    rfl

theorem eval_actions (hsh : sh ≠ .fish) {snippet : String}
    (hsnippet : snippet.toList = (actions.map .run).flatMap (SnippetLine.text sh))
    (hactions : ∀ a ∈ actions, a.BareName ∧ a.Known sh ∧ a.IsOperand sh ∧ a.KeepsBuiltins)
    (hshadow : NoBuiltinShadowed st.aliases) :
    sh.eval snippet st = some (applyAll st actions) := by
  rw [flatMap_map] at hsnippet
  have hlines : ∀ a ∈ actions, ShellReader.IsLine sh.dialect ((SnippetLine.run a).text sh)
      (a.commands sh) := fun a ha => isLine_run (hactions a ha).1 (hactions a ha).2.1
  rw [eval, hsnippet, commands_lines _ _ _ hlines, map_some,
    exec_actions hsh (fun a ha => (hactions a ha).2) hshadow]

end Eval

/-! ## The round trip -/

/-- A name that an alias can have: no blank, operator or quote, and no slash, dollar or equals sign
in it. -/
def isAliasName (name : List Char) : Bool :=
  name != [] && name.all fun c => !" \t\n|&;()<>/$`=\\'\"".toList.contains c

/-- A state a shell can be in: names it accepts, and no builtin shadowed. -/
structure ValidShellState (st : ShellState) : Prop where
  dirs : ∀ name ∈ st.pwd, ValidName name
  optionNames : ∀ name value, st.opts.get name = some value →
    isPlainWord name.toList = true ∧ beginsWith ['-', '+'] name.toList = false
  optionValues : ∀ name value, st.opts.get name = some value → value = "on" ∨ value = "off"
  aliasNames : ∀ name value, st.aliases.get name = some value → isAliasName name.toList = true
  builtins : NoBuiltinShadowed st.aliases

/-- The name of every alias that changed can be written as it is: it stands for itself, and the
command that restores or removes the alias does not take it for an option. -/
def BareAliases (sh : Shell) (pre post : ShellState) : Prop :=
  ∀ name, pre.aliases.get name ≠ post.aliases.get name →
    isPlainWord name.toList = true ∧
      beginsWith (if pre.aliases.get name = none then ['-'] else sh.aliasFlags) name.toList = false

theorem equals_not_mem_of_isAliasName {name : List Char} (hname : isAliasName name = true) :
    '=' ∉ name := by
  intro hmem
  simp only [isAliasName, Bool.and_eq_true, List.all_eq_true] at hname
  exact absurd (hname.2 '=' hmem) (by decide)

/-- The pairs the hook sends are the options and the aliases. -/
def Reports (st : ShellState) (opts aliases : List (String × String)) : Prop :=
  pairsToMap opts = st.opts ∧ pairsToMap aliases = st.aliases

section Diff

variable {pre post : EnvMap} {name : String}

theorem mem_allNames : name ∈ allNames pre post ↔ pre.get name ≠ none ∨ post.get name ≠ none := by
  rw [allNames, mem_keys_ofList]
  simp only [List.map_map, Function.comp_def, List.map_id', mem_append,
    mem_keys_iff, ne_none_iff_exists']

theorem mem_diffOptionalMap {p q : Option String} :
    (name, p, q) ∈ diffOptionalMap pre post ↔
      p = pre.get name ∧ q = post.get name ∧ pre.get name ≠ post.get name := by
  simp only [diffOptionalMap, mem_filterMap, ite_none_right_eq_some, some.injEq,
    mk.injEq]
  constructor
  · rintro ⟨n, -, hne, rfl, rfl, rfl⟩
    exact ⟨rfl, rfl, hne⟩
  · rintro ⟨rfl, rfl, hne⟩
    refine ⟨name, mem_allNames.mpr ?_, hne, rfl, rfl, rfl⟩
    by_contra hboth
    simp only [not_or, not_not] at hboth
    exact hne (hboth.1.trans hboth.2.symm)

theorem mem_diffStringMap (hnames : ∀ name, pre.get name = none ↔ post.get name = none)
    {p q : String} :
    (name, p, q) ∈ diffStringMap pre post ↔
      pre.get name = some p ∧ post.get name = some q ∧ p ≠ q := by
  simp only [diffStringMap, mem_filterMap, ite_none_right_eq_some, some.injEq, mk.injEq]
  constructor
  · rintro ⟨n, hmem, hne, rfl, rfl, rfl⟩
    cases hpre : pre.get n with
    | none => simp [hpre, (hnames n).mp hpre] at hne
    | some v =>
      cases hpost : post.get n with
      | none => exact absurd ((hnames n).mpr hpost) (by simp [hpre])
      | some w => exact ⟨rfl, rfl, by simpa [hpre, hpost] using hne⟩
  · rintro ⟨hp, hq, hne⟩
    exact ⟨name, mem_allNames.mpr (.inl (by simp [hp])), by simpa [hp, hq] using hne, rfl,
      by simp [hp], by simp [hq]⟩

theorem diffOptionalMap_eq_nil : diffOptionalMap pre post = [] ↔ pre = post := by
  rw [eq_nil_iff_forall_not_mem]
  constructor
  · intro h
    refine ext_get fun name => ?_
    by_contra hne
    exact h _ (mem_diffOptionalMap.mpr ⟨rfl, rfl, hne⟩)
  · rintro rfl ⟨name, p, q⟩ hmem
    exact (mem_diffOptionalMap.mp hmem).2.2 rfl

theorem diffStringMap_eq_nil (hnames : ∀ name, pre.get name = none ↔ post.get name = none) :
    diffStringMap pre post = [] ↔ pre = post := by
  rw [eq_nil_iff_forall_not_mem]
  constructor
  · intro h
    refine ext_get fun name => ?_
    cases hpre : pre.get name with
    | none => exact ((hnames name).mp hpre).symm
    | some p =>
      cases hpost : post.get name with
      | none => exact absurd ((hnames name).mpr hpost) (by simp [hpre])
      | some q =>
        by_contra hne
        exact h _ ((mem_diffStringMap hnames).mpr ⟨hpre, hpost, fun heq => hne (by rw [heq])⟩)
  · rintro rfl ⟨name, p, q⟩ hmem
    obtain ⟨hp, hq, hne⟩ := (mem_diffStringMap hnames).mp hmem
    exact hne (some.inj (hp.symm.trans hq))

end Diff

section Restore

variable {sh : Shell} {target start : EnvMap} {names : List String} {pre post : ShellState}

/-- The action for an option that was on or off. -/
def optAction (o : String × String × String) : Action :=
  .setOption o.1.toList (decide (o.2.1 = "on"))

/-- The action for an alias. -/
def aliasAction (a : String × Option String × Option String) : Action :=
  match a.2.1 with
  | some expansion => .setAlias a.1.toList expansion.toList
  | none => .unalias a.1.toList

/-- The actions that undo a change of the state. -/
def undoActions (pre post : ShellState) : List Action :=
  (if pre.pwd ≠ post.pwd then [.cd (absolute pre.pwd).display.toList] else [])
    ++ (diffStringMap pre.opts post.opts).map optAction
    ++ (diffOptionalMap pre.aliases post.aliases).map aliasAction

theorem onOff_of_value {value : String} (h : value = "on" ∨ value = "off") :
    onOff (decide (value = "on")) = value := by
  rcases h with rfl | rfl <;> decide

/-- The map agrees with `target` at the names listed, and with `rest` at all others. -/
structure Patches (target rest : EnvMap) (names : List String) (m : EnvMap) : Prop where
  listed : ∀ name ∈ names, m.get name = target.get name
  others : ∀ name, name ∉ names → m.get name = rest.get name

theorem Patches.nil (target m : EnvMap) : Patches target m [] m :=
  ⟨fun _ h => absurd h not_mem_nil, fun _ _ => rfl⟩

theorem Patches.cons {mid m : EnvMap} {name : String}
    (hmid : ∀ n, mid.get n = if n = name then target.get name else start.get n)
    (h : Patches target mid names m) : Patches target start (name :: names) m := by
  have hname : mid.get name = target.get name := by rw [hmid, if_pos rfl]
  refine ⟨fun n hn => ?_, fun n hn => ?_⟩
  · by_cases hmem : n ∈ names
    · exact h.listed n hmem
    · rcases mem_cons.mp hn with rfl | hn
      · rw [h.others n hmem, hname]
      · exact absurd hn hmem
  · rw [mem_cons, not_or] at hn
    rw [h.others n hn.2, hmid, if_neg hn.1]

theorem applyAll_optActions (target : EnvMap) (l : List (String × String × String))
    (st : ShellState) (h : ∀ o ∈ l, st.opts.get o.1 ≠ none ∧ target.get o.1 = some o.2.1 ∧
      (o.2.1 = "on" ∨ o.2.1 = "off")) :
    ∃ opts, applyAll st (l.map optAction) = { st with opts := opts } ∧
      Patches target st.opts (l.map fst) opts := by
  induction l generalizing st with
  | nil => exact ⟨st.opts, rfl, .nil _ _⟩
  | cons o rest ih =>
    obtain ⟨hknown, htarget, hvalue⟩ := h o mem_cons_self
    have hstep : ((optAction o).apply st).2 = { st with opts := st.opts.insert o.1 o.2.1 } := by
      simp [optAction, apply, hknown, onOff_of_value hvalue]
    have hget : ∀ name, (st.opts.insert o.1 o.2.1).get name =
        if name = o.1 then target.get o.1 else st.opts.get name := by
      intro name
      rw [get_insert, htarget]
    obtain ⟨opts, hopts, hpatches⟩ := ih { st with opts := st.opts.insert o.1 o.2.1 } (by
      intro o' ho'
      obtain ⟨hknown', hrest⟩ := h o' (mem_cons_of_mem o ho')
      refine ⟨?_, hrest⟩
      rw [get_insert]
      split_ifs
      · simp
      · exact hknown')
    refine ⟨opts, ?_, hpatches.cons hget⟩
    rw [map_cons, applyAll, foldl_cons, hstep]
    exact hopts

theorem apply_aliasAction (target : EnvMap) (st : ShellState)
    {a : String × Option String × Option String} (h : a.2.1 = target.get a.1) :
    ∃ mid : EnvMap, ((aliasAction a).apply st).2 = { st with aliases := mid } ∧
      ∀ name, mid.get name = if name = a.1 then target.get a.1 else st.aliases.get name := by
  rw [← h]
  cases hpre : a.2.1 with
  | some expansion =>
    refine ⟨st.aliases.insert a.1 expansion, by simp [aliasAction, hpre, apply], fun name => ?_⟩
    rw [get_insert]
  | none =>
    by_cases hget : st.aliases.get a.1 = none
    · refine ⟨st.aliases, by simp [aliasAction, hpre, apply, hget], fun name => ?_⟩
      by_cases hname : name = a.1
      · rw [if_pos hname, hname, hget]
      · rw [if_neg hname]
    · refine ⟨st.aliases.erase a.1, by simp [aliasAction, hpre, apply, hget], fun name => ?_⟩
      rw [get_erase]

theorem applyAll_aliasActions (target : EnvMap)
    (l : List (String × Option String × Option String)) (st : ShellState)
    (h : ∀ a ∈ l, a.2.1 = target.get a.1) :
    ∃ aliases, applyAll st (l.map aliasAction) = { st with aliases := aliases } ∧
      Patches target st.aliases (l.map fst) aliases := by
  induction l generalizing st with
  | nil => exact ⟨st.aliases, rfl, .nil _ _⟩
  | cons a rest ih =>
    obtain ⟨mid, hstep, hmid⟩ := apply_aliasAction target st (h a mem_cons_self)
    obtain ⟨aliases, haliases, hpatches⟩ := ih { st with aliases := mid } fun b hb =>
      h b (mem_cons_of_mem a hb)
    refine ⟨aliases, ?_, hpatches.cons hmid⟩
    rw [map_cons, applyAll, foldl_cons, hstep]
    exact haliases

theorem Patches.eq_target {m : EnvMap} (h : Patches target start names m)
    (hnames : ∀ name, target.get name ≠ start.get name → name ∈ names) : m = target := by
  refine ext_get fun name => ?_
  by_cases hmem : name ∈ names
  · exact h.listed name hmem
  · rw [h.others name hmem]
    by_contra hne
    exact hmem (hnames name fun heq => hne heq.symm)

theorem followDir_absolute (base names : List String) :
    followDir base (absolute names) = names := by
  have hfold : ∀ (l dir : List String), followDir dir (l.map .normal) = dir ++ l := by
    intro l
    induction l with
    | nil => intro dir; simp [followDir]
    | cons n rest ih =>
      intro dir
      have hrest := ih (dir ++ [n])
      simpa [followDir] using hrest
  exact hfold names []

section

variable (hnames : ∀ name, pre.opts.get name = none ↔ post.opts.get name = none)

include hnames

/-- **The actions give back the state from before.** -/
theorem applyAll_undoActions (hpre : ValidShellState pre) :
    applyAll post (undoActions pre post) = pre := by
  have hcd : applyAll post (if pre.pwd ≠ post.pwd then
      [.cd (absolute pre.pwd).display.toList] else []) = { post with pwd := pre.pwd } := by
    split_ifs with hpwd
    · simp [applyAll, apply, ofString_display (proper_absolute hpre.dirs), followDir_absolute]
    · rw [not_not.mp hpwd]
      rfl
  obtain ⟨opts, hopts, hoptsPatch⟩ := applyAll_optActions pre.opts
    (diffStringMap pre.opts post.opts) { post with pwd := pre.pwd } (by
      rintro ⟨name, p, q⟩ ho
      obtain ⟨hp, hq, _⟩ := (mem_diffStringMap hnames).mp ho
      exact ⟨by simp [hq], hp, hpre.optionValues name p hp⟩)
  obtain ⟨aliases, haliases, haliasesPatch⟩ := applyAll_aliasActions pre.aliases
    (diffOptionalMap pre.aliases post.aliases) { post with pwd := pre.pwd, opts := opts } (by
      rintro ⟨name, p, q⟩ ha
      exact (mem_diffOptionalMap.mp ha).1)
  have hoptsEq : opts = pre.opts := by
    refine hoptsPatch.eq_target fun name hne => ?_
    obtain ⟨p, q, hp, hq⟩ : ∃ p q, pre.opts.get name = some p ∧ post.opts.get name = some q := by
      cases hp : pre.opts.get name with
      | none => exact absurd (hp.trans ((hnames name).mp hp).symm) hne
      | some p =>
        cases hq : post.opts.get name with
        | none => exact absurd ((hnames name).mpr hq) (by simp [hp])
        | some q => exact ⟨p, q, rfl, rfl⟩
    refine mem_map.mpr ⟨(name, p, q), (mem_diffStringMap hnames).mpr ⟨hp, hq, ?_⟩, rfl⟩
    rintro rfl
    exact hne (hp.trans hq.symm)
  have haliasesEq : aliases = pre.aliases := by
    refine haliasesPatch.eq_target fun name hne => ?_
    exact mem_map.mpr ⟨(name, _, _), mem_diffOptionalMap.mpr ⟨rfl, rfl, hne⟩, rfl⟩
  rw [undoActions, applyAll_append, applyAll_append, hcd, hopts, haliases, hoptsEq, haliasesEq]

theorem snippetLines_undo (hsh : sh ≠ .fish) (hpre : ValidShellState pre) :
    snippetLines sh (if pre.pwd ≠ post.pwd then some (.absolute pre.pwd) else none)
        ((diffStringMap pre.opts post.opts).map fun o => ⟨o.1, o.2.1, o.2.2⟩)
        ((diffOptionalMap pre.aliases post.aliases).map fun a => ⟨a.1, a.2.1, a.2.2⟩) =
      (undoActions pre post).map .run := by
  have hopt : ∀ o ∈ diffStringMap pre.opts post.opts,
      optSnippet sh ⟨o.1, o.2.1, o.2.2⟩ = .run (optAction o) := by
    rintro ⟨name, p, q⟩ ho
    obtain ⟨hp, hq, hne⟩ := (mem_diffStringMap hnames).mp ho
    have hsnippet : optSnippet sh ⟨name, p, q⟩ =
        if p = "on" ∧ q ≠ "on" then .run (.setOption name.toList true)
        else if p = "off" ∧ q ≠ "off" then .run (.setOption name.toList false)
        else .note (noteText ⟨name, p, q⟩ "").toList := by
      cases sh with
      | fish => exact absurd rfl hsh
      | bash => rfl
      | zsh => rfl
    rw [hsnippet]
    rcases hpre.optionValues name p hp with rfl | rfl
    · rw [if_pos ⟨rfl, Ne.symm hne⟩]
      rfl
    · rw [if_neg (by simp), if_pos ⟨rfl, Ne.symm hne⟩]
      rfl
  have halias : ∀ a : String × Option String × Option String,
      aliasSnippet ⟨a.1, a.2.1, a.2.2⟩ = .run (aliasAction a) := by
    rintro ⟨name, p, q⟩
    cases p <;> rfl
  have hpwd : (Option.map (fun p : PathBuf => SnippetLine.run (.cd p.display.toList))
      (if pre.pwd ≠ post.pwd then some (.absolute pre.pwd) else none)).toList =
      (if pre.pwd ≠ post.pwd then [.cd (absolute pre.pwd).display.toList]
        else []).map .run := by
    split_ifs <;> rfl
  rw [snippetLines, hpwd, undoActions, map_append, map_append, List.map_map, List.map_map,
    List.map_map, List.map_map]
  congr 1
  · congr 1
    exact map_congr_left hopt
  · exact map_congr_left fun a _ => halias a

theorem undoActions_valid (hsh : sh ≠ .fish) (hpre : ValidShellState pre)
    (hbare : BareAliases sh pre post) :
    ∀ a ∈ undoActions pre post, a.BareName ∧ a.Known sh ∧ a.IsOperand sh ∧ a.KeepsBuiltins := by
  intro a ha
  simp only [undoActions, mem_append, List.mem_map] at ha
  rcases ha with (ha | ⟨⟨name, p, q⟩, ho, rfl⟩) | ⟨⟨name, p, q⟩, ho, rfl⟩
  · split_ifs at ha
    · obtain rfl := mem_singleton.mp ha
      exact ⟨trivial, trivial, trivial, trivial⟩
    · cases ha
  · obtain ⟨hp, -, -⟩ := (mem_diffStringMap hnames).mp ho
    obtain ⟨hplain, hflag⟩ := hpre.optionNames name p hp
    refine ⟨hplain, ?_, hflag, trivial⟩
    cases sh with
    | fish => exact absurd rfl hsh
    | bash | zsh =>
      cases hon : decide (p = "on") <;> simp [optAction, Action.Known, hon, optionCall]
  · obtain ⟨rfl, -, hne⟩ := mem_diffOptionalMap.mp ho
    obtain ⟨hplain, hflag⟩ := hbare name hne
    cases hp : pre.aliases.get name with
    | some expansion =>
      rw [if_neg (by simp [hp])] at hflag
      have hequals := equals_not_mem_of_isAliasName (hpre.aliasNames name expansion hp)
      refine ⟨hplain, trivial, ⟨hequals, hflag⟩, ?_⟩
      intro hmem
      rw [String.ofList_toList] at hmem
      rw [hpre.builtins name hmem] at hp
      cases hp
    | none =>
      rw [if_pos hp] at hflag
      exact ⟨hplain, trivial, hflag, trivial⟩

end

theorem toList_snippet (sh : Shell) (pwdBefore : Option PathBuf) (opts : List OptDiff)
    (aliases : List AliasDiff) :
    ∃ snippet, sh.snippet (.shellStateRestore pwdBefore opts aliases []
        (some (renderBash pwdBefore opts aliases [])) (some (renderZsh pwdBefore opts aliases []))
        (some (renderFish pwdBefore opts aliases []))) = some snippet ∧
      snippet.toList = (snippetLines sh pwdBefore opts aliases).flatMap (SnippetLine.text sh) := by
  cases sh with
  | bash => exact ⟨_, rfl, toList_renderBash _ _ _⟩
  | zsh => exact ⟨_, rfl, toList_renderZsh _ _ _⟩
  | fish => exact ⟨_, rfl, toList_renderFish _ _ _⟩

theorem planNodes_shellStateDiff (sh : Shell) (r : Renderers) (order : HashOrder)
    (probe : StateProbe) (store : PlannerStore) {ev : CaptureEvent}
    (hcomplete : ev.isPartial = false) {pwdBefore pwdAfter : PathBuf}
    {opts : List (String × String × String)}
    {aliases : List (String × Option String × Option String)}
    (hkind : ev.kind = .shellStateDiff pwdBefore pwdAfter opts aliases [])
    (hchanged : ¬ (pwdBefore = pwdAfter ∧ opts = [] ∧ aliases = [])) :
    ∃ node snippet, planNodes r.withShellState order [ev] probe store = [node] ∧
      sh.snippet node.op = some snippet ∧
      snippet.toList = (snippetLines sh (if pwdBefore ≠ pwdAfter then some pwdBefore else none)
        (opts.map fun o => ⟨o.1, o.2.1, o.2.2⟩)
        (aliases.map fun a => ⟨a.1, a.2.1, a.2.2⟩)).flatMap (SnippetLine.text sh) := by
  obtain ⟨snippet, hsnippet, htext⟩ := toList_snippet sh
    (if pwdBefore ≠ pwdAfter then some pwdBefore else none)
    (opts.map fun o => ⟨o.1, o.2.1, o.2.2⟩) (aliases.map fun a => ⟨a.1, a.2.1, a.2.2⟩)
  have hpath : eventPath ev = none := by
    rw [eventPath, hkind]
  refine ⟨.fresh _ none, snippet, ?_, hsnippet, htext⟩
  rw [planNodes_of_eventPath _ order probe store hcomplete hpath, emitForEvent, hkind]
  have hempty : ¬ (pwdBefore = pwdAfter ∧ opts = [] ∧ aliases = [] ∧
      ([] : List (String × Option String × Option String)) = []) := by
    simpa using hchanged
  exact if_neg hempty

/-- **The shell-state round trip.** A difference is journaled exactly when the states differ, and
the snippet planned for it, evaluated in the state after the command, gives the state before if the
names of the aliases that changed can be written as they are. -/
theorem shellState_restored (hsh : sh ≠ .fish) {pre post : ShellState}
    (hpre : ValidShellState pre) (hpost : ValidShellState post)
    (hnames : ∀ name, pre.opts.get name = none ↔ post.opts.get name = none)
    {opts aliases opts' aliases' : List (String × String)} (hreport : Reports pre opts aliases)
    (hreport' : Reports post opts' aliases') (stash : ShellStatePreStash) (command : CommandId)
    (ts : TimePoint) (r : Renderers) (order : HashOrder) (probe : StateProbe)
    (store : PlannerStore) {stash' : ShellStatePreStash} {journaled : Option CaptureEvent}
    (hpost' : handlePost (handlePre stash command (.absolute pre.pwd) opts aliases) command
      (.absolute post.pwd) opts' aliases' ts = (stash', journaled)) :
    (journaled ≠ none ↔ pre ≠ post) ∧ (BareAliases sh pre post → ∀ ev, journaled = some ev →
        ∃ node snippet, planNodes r.withShellState order [ev] probe store = [node] ∧
          sh.snippet node.op = some snippet ∧ sh.eval snippet post = some pre) := by
  obtain ⟨hopts, haliases⟩ := hreport
  obtain ⟨hopts', haliases'⟩ := hreport'
  simp only [handlePost, handlePre, Function.update_self, hopts, haliases, hopts', haliases',
    mk.injEq] at hpost'
  obtain ⟨-, rfl⟩ := hpost'
  have hsame : (absolute pre.pwd = absolute post.pwd ∧
      diffStringMap pre.opts post.opts = [] ∧ diffOptionalMap pre.aliases post.aliases = []) ↔
      pre = post := by
    rw [absolute_inj, diffStringMap_eq_nil hnames, diffOptionalMap_eq_nil]
    cases pre
    cases post
    simp
  refine ⟨?_, ?_⟩
  · by_cases heq : pre = post
    · rw [if_pos (hsame.mpr heq)]
      simp [heq]
    · rw [if_neg fun h => heq (hsame.mp h)]
      simp [heq]
  · intro hbare ev hev
    rw [ite_none_left_eq_some] at hev
    obtain ⟨hchanged, hev⟩ := hev
    have hkind : ev.kind = .shellStateDiff (.absolute pre.pwd) (.absolute post.pwd)
        (diffStringMap pre.opts post.opts) (diffOptionalMap pre.aliases post.aliases) [] := by
      rw [← some.inj hev]
    have hcomplete : ev.isPartial = false := by rw [← some.inj hev]
    obtain ⟨node, snippet, hplan, hsnippet, htext⟩ := planNodes_shellStateDiff sh r order probe
      store hcomplete hkind hchanged
    refine ⟨node, snippet, hplan, hsnippet, ?_⟩
    simp only [ne_eq, absolute_inj] at htext
    rw [snippetLines_undo hnames hsh hpre] at htext
    rw [eval_actions hsh htext (undoActions_valid hnames hsh hpre hbare) hpost.builtins,
      applyAll_undoActions hnames hpre]

/-- A state, and the state after `cd /tmp`, `set -o errexit`, `alias g=git` and `unalias ll`. -/
def homeState : ShellState :=
  ⟨["home", "it's"], .ofList [("errexit", "off")], .ofList [("ll", "ls -l 'x y'")]⟩

def tmpState : ShellState := ⟨["tmp"], .ofList [("errexit", "on")], .ofList [("g", "git")]⟩

theorem validShellState_of_entries {st : ShellState}
    (hdirs : ∀ name ∈ st.pwd, name ≠ "" ∧ '/' ∉ name.toList ∧ name ≠ "." ∧ name ≠ "..")
    (hopts : ∀ e ∈ st.opts.entries, (isPlainWord e.1.toList = true ∧
      beginsWith ['-', '+'] e.1.toList = false) ∧ (e.2 = "on" ∨ e.2 = "off"))
    (haliases : ∀ e ∈ st.aliases.entries, isAliasName e.1.toList = true)
    (hbuiltins : ∀ name ∈ builtinNames, st.aliases.get name = none) : ValidShellState st where
  dirs := fun name hname =>
    ⟨(hdirs name hname).1, (hdirs name hname).2.1, (hdirs name hname).2.2.1,
      (hdirs name hname).2.2.2⟩
  optionNames := fun _ _ hget => (hopts _ (get_eq_some_iff.mp hget)).1
  optionValues := fun _ _ hget => (hopts _ (get_eq_some_iff.mp hget)).2
  aliasNames := fun _ _ hget => haliases _ (get_eq_some_iff.mp hget)
  builtins := hbuiltins

theorem bareAliases_of_diff {pre post : ShellState}
    (hdiff : ∀ a ∈ diffOptionalMap pre.aliases post.aliases, isPlainWord a.1.toList = true ∧
      beginsWith (if a.2.1 = none then ['-'] else sh.aliasFlags) a.1.toList = false) :
    BareAliases sh pre post :=
  fun _ hne => hdiff _ (mem_diffOptionalMap.mpr ⟨rfl, rfl, hne⟩)

theorem shellState_restored_home :
    ∃ ev, (handlePost (handlePre (fun _ => none) ⟨0, 1⟩ (.absolute homeState.pwd)
        homeState.opts.entries homeState.aliases.entries) ⟨0, 1⟩ (.absolute tmpState.pwd)
        tmpState.opts.entries tmpState.aliases.entries ⟨0, 0⟩).2 = some ev ∧
      ∃ node snippet, planNodes (Renderers.silent.withShellState) .insertion [ev] bareProbe
          fullStore = [node] ∧
        bash.snippet node.op = some snippet ∧
        bash.eval snippet tmpState = some homeState := by
  have hpre : ValidShellState homeState := by
    apply validShellState_of_entries <;> decide +kernel
  have hpost : ValidShellState tmpState := by
    apply validShellState_of_entries <;> decide +kernel
  have hbare : BareAliases .bash homeState tmpState := by
    apply bareAliases_of_diff
    decide +kernel
  have hnames : ∀ name, homeState.opts.get name = none ↔ tmpState.opts.get name = none := by
    intro name
    simp only [homeState, tmpState, ofList, foldl_cons, foldl_nil, get_insert]
    split_ifs <;> simp
  have hreport : Reports homeState homeState.opts.entries homeState.aliases.entries :=
    ⟨ofList_entries _, ofList_entries _⟩
  have hreport' : Reports tmpState tmpState.opts.entries tmpState.aliases.entries :=
    ⟨ofList_entries _, ofList_entries _⟩
  obtain ⟨hjournaled, hrestored⟩ := shellState_restored (show Shell.bash ≠ .fish by decide) hpre
    hpost hnames hreport hreport' (fun _ => none) ⟨0, 1⟩ ⟨0, 0⟩ .silent .insertion bareProbe
    fullStore rfl
  obtain ⟨ev, hev⟩ := ne_none_iff_exists'.mp (hjournaled.mpr (by decide +kernel))
  exact ⟨ev, hev, hrestored hbare ev hev⟩

/-- States without and with an alias of the name `-x`. -/
def noAliasState : ShellState := ⟨["tmp"], .ofList [], .ofList []⟩

def dashAliasState : ShellState := ⟨["tmp"], .ofList [], .ofList [("-x", "git")]⟩

/-- What becomes of `st` when the snippet planned for the change from `pre` to `st` is evaluated. -/
def undoneBy (sh : Shell) (pre st : ShellState) : Option (Option ShellState) :=
  (handlePost (handlePre (fun _ => none) ⟨0, 1⟩ (.absolute pre.pwd) pre.opts.entries
      pre.aliases.entries) ⟨0, 1⟩ (.absolute st.pwd) st.opts.entries st.aliases.entries
      ⟨0, 0⟩).2.map fun ev =>
    (planNodes (Renderers.silent.withShellState) .insertion [ev] bareProbe fullStore).head?.bind
      fun node => (sh.snippet node.op).bind fun snippet => sh.eval snippet st

/-- An alias named like an option is neither removed nor put back: `unalias -x` and `alias -x='git'`
are errors. -/
theorem dashed_alias_stays :
    ValidShellState noAliasState ∧ ValidShellState dashAliasState ∧
      undoneBy .bash noAliasState dashAliasState = some (some dashAliasState) ∧
      undoneBy .bash dashAliasState noAliasState = some (some noAliasState) := by
  refine ⟨?_, ?_, by decide +kernel, by decide +kernel⟩
  · apply validShellState_of_entries <;> decide +kernel
  · apply validShellState_of_entries <;> decide +kernel

end Restore

end ShitUndo
