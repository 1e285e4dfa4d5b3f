import ShitUndo.ShellRestore
import ShitUndo.Lib.ShellWords

/-!
# Captured names in snippets

The renderers of `shell_state_render.rs` quote directories and the texts of aliases. The names of
options and aliases they write as they are, and the values of options they put into comments. All of
these come from the wire unchecked.
-/

namespace ShitUndo

open List ShellReader SnippetLine Renderers

/-! ## What snippets should run -/

/-- The lines of the snippet for a difference without functions. -/
def recordedLines (sh : Shell) (pwdBefore pwdAfter : PathBuf)
    (opts : List (String × String × String))
    (aliases : List (String × Option String × Option String)) : List SnippetLine :=
  snippetLines sh (if pwdBefore ≠ pwdAfter then some pwdBefore else none)
    (opts.map fun o => ⟨o.1, o.2.1, o.2.2⟩) (aliases.map fun a => ⟨a.1, a.2.1, a.2.2⟩)

/-- The shell reads the snippet as the commands of these lines, and takes each of them for the
action that it is meant to be. -/
structure RunsRecorded (sh : Shell) (lines : List SnippetLine) (snippet : String) : Prop where
  reads : commands sh.dialect snippet.toList = some (lines.flatMap (commands sh))
  means : ∀ a, .run a ∈ lines → sh.action (a.words sh) = some a

/-- The option is turned on or off. -/
def TurnsOption (o : String × String × String) : Prop :=
  (o.2.1 = "on" ∧ o.2.2 ≠ "on") ∨ (o.2.1 = "off" ∧ o.2.2 ≠ "off")

instance : DecidablePred TurnsOption := fun o =>
  inferInstanceAs (Decidable ((o.2.1 = "on" ∧ o.2.2 ≠ "on") ∨ (o.2.1 = "off" ∧ o.2.2 ≠ "off")))

/-- **Every name that is written as it is stands for itself**: it is a plain word, does not look
like an option, and has no equals sign where one would end it. -/
structure PlainNames (opts : List (String × String × String))
    (aliases : List (String × Option String × Option String)) : Prop where
  options : ∀ o ∈ opts, TurnsOption o →
    isPlainWord o.1.toList = true ∧ beginsWith ['-', '+'] o.1.toList = false
  restored : ∀ a ∈ aliases, a.2.1 ≠ none → isPlainWord a.1.toList = true ∧
    '=' ∉ a.1.toList ∧ beginsWith ['-', '+'] a.1.toList = false
  removed : ∀ a ∈ aliases, a.2.1 = none →
    isPlainWord a.1.toList = true ∧ beginsWith ['-'] a.1.toList = false

/-! ## Reading a snippet line by line -/

section Lines

open ShellReader (IsLine commands newline)

variable {sh : Shell} {a : Action}

/-- **The first command of a text shows that the name on its line is a plain word.** -/
theorem bareName_of_commands (hknown : a.Known sh) (hoperand : a.IsOperand sh) {rest : List Char}
    {cs : List ShellReader.Command} (h : commands sh.dialect ((SnippetLine.run a).text sh ++ rest) =
      some (a.commands sh ++ cs)) : a.BareName := by
  cases a with
  | succeed => trivial
  | cd dir => trivial
  | setOption name on =>
    obtain ⟨call, hcall⟩ := Option.isSome_iff_exists.mp hknown
    have hne : (sh.optionCall on).getD [] ≠ [] := by
      cases sh <;> cases on <;> cases hcall <;> simp [Shell.optionCall]
    rw [text, Action.text, append_assoc, append_assoc] at h
    obtain ⟨es, hes⟩ := readAll_of_commands hne (reads_optionCall sh.dialect sh on)
      (h.trans (by
        rw [Action.commands, Action.words, ShellReader.Command.simple, map_append]
        · rfl
        · simp))
    exact plainWord_of_newline hes
  | setAlias name expansion =>
    rw [text, Action.text, append_assoc, append_assoc, append_assoc] at h
    obtain ⟨es, hes⟩ := readAll_of_commands (by decide) (reads_aliasCall sh.dialect) h
    exact plainWord_of_equals hoperand.1 hes
  | unalias name =>
    obtain ⟨after, hafter⟩ : ∃ after, sh.afterRemove = ' ' :: '2' :: '>' :: after := by
      cases sh <;> exact ⟨_, rfl⟩
    have hne : sh.removeCall ≠ [] := by cases sh <;> decide
    rw [text, Action.text, append_assoc, append_assoc, append_assoc, hafter] at h
    obtain ⟨es, hes⟩ := readAll_of_commands hne (reads_removeCall sh.dialect sh)
      (h.trans (by rw [Action.commands, map_append, append_assoc]; rfl))
    exact plainWord_of_redirect hes

theorem commands_lines_iff {lines : List SnippetLine}
    (hknown : ∀ a, .run a ∈ lines → a.Known sh) (hoperand : ∀ a, .run a ∈ lines → a.IsOperand sh)
    (hquiet : ∀ text, .note text ∈ lines → '\n' ∉ text) :
    commands sh.dialect (lines.flatMap (text sh)) = some (lines.flatMap (commands sh)) ↔
      ∀ a, .run a ∈ lines → a.BareName := by
  have hline : ∀ line ∈ lines, (∀ a, line = .run a → a.BareName) →
      IsLine sh.dialect (line.text sh) (line.commands sh) := by
    intro line hmem hbare
    cases line with
    | run a => exact isLine_run (hbare a rfl) (hknown a hmem)
    | note text => exact isLine_note (hquiet text hmem)
  constructor
  · intro h
    -- line by line: what is read first shows the name on the first line to be plain, and then the
    -- rest is read on its own
    induction lines with
    | nil => exact fun a ha => absurd ha not_mem_nil
    | cons line rest ih =>
      rw [flatMap_cons, flatMap_cons] at h
      have hfirst : ∀ a, line = .run a → a.BareName := by
        rintro a rfl
        exact bareName_of_commands (hknown a mem_cons_self) (hoperand a mem_cons_self) h
      rw [commands_append (hline line mem_cons_self hfirst)] at h
      obtain ⟨cs, hcs, heq⟩ := Option.map_eq_some_iff.mp h
      rw [append_cancel_left_eq] at heq
      subst heq
      have hrest := ih (fun a ha => hknown a (mem_cons_of_mem _ ha))
        (fun a ha => hoperand a (mem_cons_of_mem _ ha))
        (fun t ht => hquiet t (mem_cons_of_mem _ ht))
        (fun l hl => hline l (mem_cons_of_mem _ hl)) hcs
      intro a ha
      rcases mem_cons.mp ha with heq | ha
      · exact hfirst a heq.symm
      · exact hrest a ha
  · intro hbare
    exact commands_lines _ _ _ fun line hmem =>
      hline line hmem fun a ha => hbare a (ha ▸ hmem)

end Lines

/-! ## The names of a difference -/

variable {aliases : List (String × Option String × Option String)}
  {opts : List (String × String × String)}

section Names

variable {sh : Shell} {a : Action} {pwdBefore pwdAfter : PathBuf} {o : String × String × String}

theorem mem_recordedLines {line : SnippetLine} :
    line ∈ recordedLines sh pwdBefore pwdAfter opts aliases ↔
      (pwdBefore ≠ pwdAfter ∧ line = .run (.cd pwdBefore.display.toList)) ∨
        (∃ o ∈ opts, optSnippet sh ⟨o.1, o.2.1, o.2.2⟩ = line) ∨
        ∃ al ∈ aliases, aliasSnippet ⟨al.1, al.2.1, al.2.2⟩ = line := by
  have hcd : line ∈ (Option.map (fun p : PathBuf => SnippetLine.run (.cd p.display.toList))
      (if pwdBefore ≠ pwdAfter then some pwdBefore else none)).toList ↔
      pwdBefore ≠ pwdAfter ∧ line = .run (.cd pwdBefore.display.toList) := by
    split_ifs with hpwd <;> simp [hpwd]
  rw [recordedLines, snippetLines, mem_append, mem_append, hcd, or_assoc]
  simp only [mem_map, exists_exists_and_eq_and]

theorem optSnippet_of_turns (sh : Shell) (hsh : sh ≠ .fish) (h : TurnsOption o) :
    ∃ on, optSnippet sh ⟨o.1, o.2.1, o.2.2⟩ = .run (.setOption o.1.toList on) := by
  have hon : o.2.1 = "on" ∧ o.2.2 ≠ "on" ∨
      ¬ (o.2.1 = "on" ∧ o.2.2 ≠ "on") ∧ o.2.1 = "off" ∧ o.2.2 ≠ "off" := by
    rcases h with h | h
    · exact .inl h
    · exact .inr ⟨fun hon => absurd (hon.1.symm.trans h.1) (by decide), h⟩
  cases sh with
  | fish => exact absurd rfl hsh
  | bash | zsh =>
    rcases hon with h | ⟨h, h'⟩
    · exact ⟨true, if_pos h⟩
    · exact ⟨false, (if_neg h).trans (if_pos h')⟩

theorem turns_of_optSnippet (h : optSnippet sh ⟨o.1, o.2.1, o.2.2⟩ = .run a) :
    sh ≠ .fish ∧ TurnsOption o ∧ ∃ on, a = .setOption o.1.toList on := by
  have hcases : ∀ note : SnippetLine, (∀ b, note ≠ .run b) →
      (if o.2.1 = "on" ∧ o.2.2 ≠ "on" then .run (.setOption o.1.toList true)
        else if o.2.1 = "off" ∧ o.2.2 ≠ "off" then .run (.setOption o.1.toList false)
        else note) = SnippetLine.run a → TurnsOption o ∧ ∃ on, a = .setOption o.1.toList on := by
    intro note hnote hrun
    split_ifs at hrun with hon hoff
    · exact ⟨.inl hon, true, (SnippetLine.run.inj hrun).symm⟩
    · exact ⟨.inr hoff, false, (SnippetLine.run.inj hrun).symm⟩
    · exact absurd hrun (hnote a)
  cases sh with
  | fish => cases h
  | bash | zsh => exact ⟨by decide, hcases _ (fun _ hb => by cases hb) h⟩

theorem known_of_mem (h : .run a ∈ recordedLines sh pwdBefore pwdAfter opts aliases) :
    a.Known sh := by
  rcases mem_recordedLines.mp h with ⟨-, hcd⟩ | ⟨o, -, ho⟩ | ⟨al, -, hal⟩
  · rw [run.inj hcd]
    trivial
  · obtain ⟨hsh, -, on, rfl⟩ := turns_of_optSnippet ho
    cases sh with
    | fish => exact absurd rfl hsh
    | bash | zsh => cases on <;> rfl
  · unfold aliasSnippet at hal
    cases hpre : al.2.1 with
    | none | some e =>
      simp only [hpre] at hal
      rw [← run.inj hal]
      trivial

theorem plainNames_iff (pwdBefore pwdAfter : PathBuf) :
    (∀ sh a, .run a ∈ recordedLines sh pwdBefore pwdAfter opts aliases →
        a.BareName ∧ a.IsOperand sh) ↔ PlainNames opts aliases := by
  constructor
  · intro h
    refine ⟨fun o ho hturns => ?_, fun al hal hsome => ?_, fun al hal hnone => ?_⟩
    · obtain ⟨on, hline⟩ := optSnippet_of_turns .bash (by decide) hturns
      exact h .bash _ (mem_recordedLines.mpr (.inr (.inl ⟨o, ho, hline⟩)))
    · obtain ⟨e, he⟩ := Option.ne_none_iff_exists'.mp hsome
      have hline : aliasSnippet ⟨al.1, al.2.1, al.2.2⟩ = .run (.setAlias al.1.toList e.toList) := by
        simp [aliasSnippet, he]
      exact h .zsh _ (mem_recordedLines.mpr (.inr (.inr ⟨al, hal, hline⟩)))
    · have hline : aliasSnippet ⟨al.1, al.2.1, al.2.2⟩ = .run (.unalias al.1.toList) := by
        simp [aliasSnippet, hnone]
      exact h .zsh _ (mem_recordedLines.mpr (.inr (.inr ⟨al, hal, hline⟩)))
  · intro h sh a ha
    rcases mem_recordedLines.mp ha with ⟨-, hcd⟩ | ⟨o, ho, hline⟩ | ⟨al, hal, hline⟩
    · rw [run.inj hcd]
      exact ⟨trivial, trivial⟩
    · obtain ⟨-, hturns, on, rfl⟩ := turns_of_optSnippet hline
      exact h.options o ho hturns
    unfold aliasSnippet at hline
    cases hpre : al.2.1 with
    | none =>
      simp only [hpre] at hline
      rw [← run.inj hline]
      exact h.removed al hal hpre
    | some e =>
      simp only [hpre] at hline
      obtain ⟨hplain, hequals, hflag⟩ := h.restored al hal (by simp [hpre])
      rw [← run.inj hline]
      refine ⟨hplain, hequals, ?_⟩
      cases sh with
      | zsh => exact hflag
      | bash | fish => exact beginsWith_dash hflag

theorem quiet_of_mem (h : ∀ o ∈ opts, '\n' ∉ o.1.toList ∧ '\n' ∉ o.2.1.toList ∧ '\n' ∉ o.2.2.toList)
    {text : List Char} (hmem : .note text ∈ recordedLines sh pwdBefore pwdAfter opts aliases) :
    '\n' ∉ text := by
  rcases mem_recordedLines.mp hmem with ⟨-, hcd⟩ | ⟨o, ho, hline⟩ | ⟨al, -, hal⟩
  · cases hcd
  · obtain ⟨hname, hpre, hpost⟩ := h o ho
    have hnote : ∀ remark : String, '\n' ∉ remark.toList →
        '\n' ∉ (noteText ⟨o.1, o.2.1, o.2.2⟩ remark).toList := by
      intro remark hremark
      have h₁ : '\n' ∉ " manual: option `".toList := by decide +kernel
      have h₂ : '\n' ∉ "` was `".toList := by decide +kernel
      have h₃ : '\n' ∉ "`, now `".toList := by decide +kernel
      have h₄ : '\n' ∉ "`".toList := by decide +kernel
      unfold noteText
      simp only [String.toList_append, mem_append, h₁, h₂, h₃, h₄, hname, hpre, hpost, hremark,
        or_self, not_false_iff]
    have hcases : ∀ on off : Action,
        (if o.2.1 = "on" ∧ o.2.2 ≠ "on" then .run on
          else if o.2.1 = "off" ∧ o.2.2 ≠ "off" then .run off
          else .note (noteText ⟨o.1, o.2.1, o.2.2⟩ "").toList) = note text →
        '\n' ∉ text := by
      intro on off heq
      split_ifs at heq
      rw [← note.inj heq]
      exact hnote "" (by decide)
    cases sh with
    | fish =>
      rw [← note.inj hline]
      exact hnote fishRemark (by decide +kernel)
    | bash | zsh => exact hcases _ _ hline
  · unfold aliasSnippet at hal
    cases hpre : al.2.1 <;> simp [hpre] at hal

end Names

/-! ## No other commands -/

/-- **No command is taken from a captured string, exactly if the names are plain.** This is about
the snippets in the plan of every difference without functions whose options have no line break in
their names and values. -/
theorem snippets_run_recorded_iff (r : Renderers) (order : HashOrder) (probe : StateProbe)
    (store : PlannerStore) {ev : CaptureEvent} (hcomplete : ev.isPartial = false)
    {pwdBefore pwdAfter : PathBuf} {opts : List (String × String × String)}
    {aliases : List (String × Option String × Option String)}
    (hkind : ev.kind = .shellStateDiff pwdBefore pwdAfter opts aliases [])
    (hquiet : ∀ o ∈ opts, '\n' ∉ o.1.toList ∧ '\n' ∉ o.2.1.toList ∧ '\n' ∉ o.2.2.toList) :
    (∀ node ∈ planNodes r.withShellState order [ev] probe store, ∀ sh snippet,
        sh.snippet node.op = some snippet →
          RunsRecorded sh (recordedLines sh pwdBefore pwdAfter opts aliases) snippet) ↔
      PlainNames opts aliases := by
  by_cases hchanged : pwdBefore = pwdAfter ∧ opts = [] ∧ aliases = []
  · obtain ⟨rfl, rfl, rfl⟩ := hchanged
    have hnone : planNodes r.withShellState order [ev] probe store = [] := by
      have hpath : eventPath ev = none := by rw [eventPath, hkind]
      rw [planNodes_of_eventPath _ order probe store hcomplete hpath, emitForEvent, hkind]
      exact if_pos ⟨rfl, rfl, rfl, rfl⟩
    rw [hnone]
    refine ⟨fun _ => ⟨?_, ?_, ?_⟩, fun _ node hnode => absurd hnode not_mem_nil⟩
    all_goals exact fun x hx => absurd hx not_mem_nil
  · rw [← plainNames_iff pwdBefore pwdAfter]
    constructor
    · intro h sh a ha
      obtain ⟨node, snippet, hplan, hsnippet, htext⟩ := planNodes_shellStateDiff sh r order probe
        store hcomplete hkind hchanged
      obtain ⟨hreads, hmeans⟩ := h node (by rw [hplan]; exact mem_singleton_self _) sh snippet
        hsnippet
      have hoperand : ∀ b, .run b ∈ recordedLines sh pwdBefore pwdAfter opts aliases →
          b.IsOperand sh := fun b hb => (action_words_iff (known_of_mem hb)).mp (hmeans b hb)
      rw [htext] at hreads
      have hbare := (commands_lines_iff (fun b hb => known_of_mem hb) hoperand
        fun t ht => quiet_of_mem hquiet ht).mp hreads
      exact ⟨hbare a ha, hoperand a ha⟩
    · intro h node hnode sh snippet hsnippet
      obtain ⟨node', snippet', hplan, hsnippet', htext⟩ := planNodes_shellStateDiff sh r order
        probe store hcomplete hkind hchanged
      rw [hplan, mem_singleton] at hnode
      subst hnode
      obtain rfl := Option.some.inj (hsnippet.symm.trans hsnippet')
      refine ⟨?_, fun a ha => (action_words_iff (known_of_mem ha)).mpr (h sh a ha).2⟩
      rw [htext]
      exact (commands_lines_iff (fun b hb => known_of_mem hb) (fun b hb => (h sh b hb).2)
        fun t ht => quiet_of_mem hquiet ht).mpr fun a ha => (h sh a ha).1

/-- A difference without functions and without a change of directory. -/
def shellDiffEvent (opts : List (String × String × String))
    (aliases : List (String × Option String × Option String)) : CaptureEvent :=
  ⟨⟨0⟩, ⟨0, 1⟩, ⟨0, 0⟩, false, .shellStateDiff [] [] opts aliases []⟩

/-- Some shell runs these words as a command when it evaluates a snippet of the plan. -/
def RunsWords (sh : Shell) (ev : CaptureEvent) (words : List String) : Prop :=
  ∃ node ∈ planNodes silent.withShellState .insertion [ev] bareProbe fullStore,
    ∃ snippet cmds, sh.snippet node.op = some snippet ∧
      commands sh.dialect snippet.toList = some cmds ∧
      words.map String.toList ∈ cmds.map ShellReader.Command.words

theorem runsWords_of_lines {sh : Shell} {words : List String} (hne : ¬ (opts = [] ∧ aliases = []))
    (hrun : ((commands sh.dialect
      ((recordedLines sh [] [] opts aliases).flatMap (text sh))).getD []).any
        (fun c => c.words = words.map String.toList) = true) :
    RunsWords sh (shellDiffEvent opts aliases) words := by
  have hcomplete : (shellDiffEvent opts aliases).isPartial = false := rfl
  obtain ⟨node, snippet, hplan, hsnippet, htext⟩ := planNodes_shellStateDiff sh .silent .insertion
    bareProbe fullStore hcomplete rfl (by simpa using hne)
  refine ⟨node, by rw [hplan]; exact mem_singleton_self _, snippet, ?_⟩
  rw [recordedLines, ← htext] at hrun
  cases hcmds : commands sh.dialect snippet.toList with
  | none => simp [hcmds] at hrun
  | some cmds =>
    rw [hcmds, Option.getD_some, any_eq_true] at hrun
    obtain ⟨c, hc, hwords⟩ := hrun
    exact ⟨cmds, hsnippet, rfl, mem_map.mpr ⟨c, hc, of_decide_eq_true hwords⟩⟩

/-- The name of an option, the name of an alias, and the value of an option, each with a command in
it that is run. -/
theorem snippets_run_captured_text :
    RunsWords .bash (shellDiffEvent [("x; rm -rf /tmp/x", "on", "off")] [])
        ["rm", "-rf", "/tmp/x"] ∧
      RunsWords .zsh (shellDiffEvent [] [("a; rm -rf /tmp/x; b", none, some "git")])
        ["rm", "-rf", "/tmp/x"] ∧
      RunsWords .fish (shellDiffEvent [("histchars", "!\nrm -rf /tmp/x #", "")] [])
        ["rm", "-rf", "/tmp/x"] := by
  refine ⟨runsWords_of_lines (by decide) ?_, runsWords_of_lines (by decide) ?_,
    runsWords_of_lines (by decide) ?_⟩
  all_goals decide +kernel

theorem snippets_run_recorded_plain :
    (planNodes silent.withShellState .insertion
        [shellDiffEvent [("errexit", "on", "off")] [("ll", some "ls -l", none), ("g", none, none)]]
        bareProbe fullStore).length = 1 ∧
      ∀ node ∈ planNodes silent.withShellState .insertion
        [shellDiffEvent [("errexit", "on", "off")] [("ll", some "ls -l", none), ("g", none, none)]]
        bareProbe fullStore,
      ∀ sh snippet, sh.snippet node.op = some snippet →
        RunsRecorded sh (recordedLines sh [] [] [("errexit", "on", "off")]
          [("ll", some "ls -l", none), ("g", none, none)]) snippet :=
  ⟨by decide, (snippets_run_recorded_iff _ _ _ _ rfl rfl (by decide)).mpr
    ⟨by decide, by decide, by decide⟩⟩

end ShitUndo
