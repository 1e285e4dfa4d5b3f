import ShitUndo.EnvDiff

/-!
# Undoing a package transaction

`PackageExecutor` (`executors/package.rs`) undoes what a package manager did. Without a transaction
id it compares the packages before and after, removes what is new and installs again what is gone
or has another version. With one, apt and dnf are asked to roll the transaction back themselves,
after a look at their history (`native_delegation_for` in `plan.rs`).

* `package_rollback_iff`: the invocations of `synthesizeArgv` always lead back, but for brew only if
  the versions to restore are the newest.
* `native_rollback_iff`: when a later transaction keeps the executor from rolling back.
-/

namespace ShitUndo

open List Option Function SortedMap Prod

/-! ## Synthesis -/

/-- Packages and their versions, in the order of their names. -/
abbrev Packages := SortedMap String String

section Synthesis

variable (installed : List String) (removed changed : List (String × String))

def aptArgv : List (List String) :=
  (if installed = [] then [] else [["apt-get", "remove", "-y"] ++ installed])
    ++ (if removed ++ changed = [] then [] else
      [["apt-get", "install", "-y", "--allow-downgrades"]
        ++ (removed ++ changed).map fun e => e.1 ++ "=" ++ e.2])

def pacmanArgv : List (List String) :=
  (if installed = [] then [] else [["pacman", "-R", "--noconfirm"] ++ installed])
    ++ (removed ++ changed).map fun e =>
      ["pacman", "-U", "--noconfirm",
        "/var/cache/pacman/pkg/" ++ e.1 ++ "-" ++ e.2 ++ "-x86_64.pkg.tar.zst"]

def dnfArgv (historyId : Option String) : List (List String) :=
  match historyId.filter fun id => id.toList.all Char.isDigit && decide (id ≠ "") with
  | some id => [["dnf", "history", "undo", "-y", id]]
  | none =>
    (if installed = [] then [] else [["dnf", "remove", "-y"] ++ installed])
      ++ (if removed ++ changed = [] then [] else
        [["dnf", "install", "-y"] ++ (removed ++ changed).map fun e => e.1 ++ "-" ++ e.2])

def brewArgv : List (List String) :=
  installed.map (fun name => ["brew", "uninstall", name])
    ++ (removed ++ changed).map fun e => ["brew", "install", e.1]

def pkgArgv : List (List String) :=
  (if installed = [] then [] else [["/usr/sbin/pkg", "delete", "-y"] ++ installed])
    ++ (removed ++ changed).map fun e => ["/usr/sbin/pkg", "install", "-y", e.1 ++ "-" ++ e.2]

end Synthesis

section Diff

variable (before after : List (String × String))

/-- Packages that are new. -/
def installedSince : List String :=
  (after.filter fun e => (before.lookup e.1).isNone).map fst

/-- Packages that are gone, with the version they had. -/
def removedSince : List (String × String) := before.filter fun e => (after.lookup e.1).isNone

/-- Packages that have another version, with the one they had. -/
def changedSince : List (String × String) :=
  before.filter fun e => (after.lookup e.1).any fun v => decide (v ≠ e.2)

def synthesizeArgv (manager : PackageManager) (_originalOp : PackageOpKind)
    (repoStateHint : Option String) : List (List String) :=
  let installed := installedSince before after
  let removed := removedSince before after
  let changed := changedSince before after
  if installed = [] ∧ removed = [] ∧ changed = [] then []
  else
    match manager with
    | .apt | .dpkg => aptArgv installed removed changed
    | .pacman => pacmanArgv installed removed changed
    | .dnf => dnfArgv installed removed changed repoStateHint
    | .brew => brewArgv installed removed changed
    | .pkg => pkgArgv installed removed changed

end Diff

/-! ## What the invocations mean -/

/-- A documented invocation of a package manager: remove packages, or install packages, each at a
version or at the newest one. -/
inductive PackageAction where
  | remove (names : List String)
  | install (specs : List (String × Option String))
deriving DecidableEq, Repr

/-- How a package is named to be installed. -/
def specText (manager : PackageManager) (spec : String × Option String) : String :=
  match spec.2 with
  | none => spec.1
  | some version =>
    match manager with
    | .apt | .dpkg => spec.1 ++ "=" ++ version
    | .pacman => "/var/cache/pacman/pkg/" ++ spec.1 ++ "-" ++ version ++ "-x86_64.pkg.tar.zst"
    | .dnf | .pkg => spec.1 ++ "-" ++ version
    | .brew => spec.1 ++ "@" ++ version

/-- The command line. -/
def PackageAction.argv (manager : PackageManager) : PackageAction → List String
  | .remove names =>
    (match manager with
      | .apt | .dpkg => ["apt-get", "remove", "-y"]
      | .pacman => ["pacman", "-R", "--noconfirm"]
      | .dnf => ["dnf", "remove", "-y"]
      | .brew => ["brew", "uninstall"]
      | .pkg => ["/usr/sbin/pkg", "delete", "-y"]) ++ names
  | .install specs =>
    (match manager with
      | .apt | .dpkg => ["apt-get", "install", "-y", "--allow-downgrades"]
      | .pacman => ["pacman", "-U", "--noconfirm"]
      | .dnf => ["dnf", "install", "-y"]
      | .brew => ["brew", "install"]
      | .pkg => ["/usr/sbin/pkg", "install", "-y"]) ++ specs.map (specText manager)

/-- What it does. -/
def PackageAction.apply (newest : String → String) (m : Packages) : PackageAction → Packages
  | .remove names => names.foldl erase m
  | .install specs => specs.foldl (fun m spec => m.insert spec.1 (spec.2.getD (newest spec.1))) m

/-- The version that is asked for. -/
def askedVersion (manager : PackageManager) (version : String) : Option String :=
  if manager = .brew then none else some version

/-- What `synthesize_argv` asks for without a transaction id. -/
def rollbackActions (manager : PackageManager) (before after : List (String × String)) :
    List PackageAction :=
  let installed := installedSince before after
  let specs := (removedSince before after ++ changedSince before after).map fun e =>
    (e.1, askedVersion manager e.2)
  match manager with
  | .apt | .dpkg | .dnf =>
    (if installed = [] then [] else [.remove installed])
      ++ (if specs = [] then [] else [.install specs])
  | .pacman | .pkg =>
    (if installed = [] then [] else [.remove installed]) ++ specs.map fun spec => .install [spec]
  | .brew => installed.map (fun name => .remove [name]) ++ specs.map fun spec => .install [spec]

theorem synthesizeArgv_eq (manager : PackageManager) (op : PackageOpKind)
    (before after : List (String × String)) :
    synthesizeArgv before after manager op none =
      (rollbackActions manager before after).map (PackageAction.argv manager) := by
  unfold synthesizeArgv rollbackActions
  dsimp only
  generalize installedSince before after = installed
  generalize removedSince before after = removed
  generalize changedSince before after = changed
  by_cases hnone : installed = [] ∧ removed = [] ∧ changed = []
  · rw [if_pos hnone]
    obtain ⟨rfl, rfl, rfl⟩ := hnone
    cases manager <;> rfl
  rw [if_neg hnone]
  have hspecs : ∀ m : PackageManager,
      ((removed ++ changed).map fun e => (e.1, askedVersion m e.2)) = [] ↔
        removed ++ changed = [] := fun m => map_eq_nil_iff
  cases manager with
  | apt | dpkg =>
    simp only [aptArgv, hspecs]
    split_ifs <;> simp [PackageAction.argv, specText, askedVersion, comp_def]
  | dnf =>
    simp only [dnfArgv, hspecs, filter_none]
    split_ifs <;> simp [PackageAction.argv, specText, askedVersion, comp_def]
  | pacman =>
    simp only [pacmanArgv]
    split_ifs <;> simp [PackageAction.argv, specText, askedVersion, comp_def]
  | pkg =>
    simp only [pkgArgv]
    split_ifs <;> simp [PackageAction.argv, specText, askedVersion, comp_def]
  | brew =>
    simp [brewArgv, PackageAction.argv, specText, askedVersion, comp_def]

/-! ## Where they lead -/

section Rollback

variable {before after : Packages} {name version : String} {newest : String → String}

theorem mem_installedSince :
    name ∈ installedSince before.entries after.entries ↔
      after.get name ≠ none ∧ before.get name = none := by
  simp only [installedSince, List.mem_map, mem_filter, isNone_iff_eq_none]
  constructor
  · rintro ⟨e, ⟨he, hnone⟩, rfl⟩
    have hget : after.get e.1 = some e.2 := get_eq_some_iff.mpr he
    exact ⟨hget ▸ some_ne_none _, hnone⟩
  · rintro ⟨hsome, hnone⟩
    obtain ⟨v, hv⟩ := ne_none_iff_exists'.mp hsome
    exact ⟨(name, v), ⟨get_eq_some_iff.mp hv, hnone⟩, rfl⟩

theorem nodup_reinstalled (before after : Packages) :
    ((removedSince before.entries after.entries
      ++ changedSince before.entries after.entries).map fst).Nodup := by
  rw [map_append, nodup_append]
  refine ⟨before.nodup_keys.sublist (filter_sublist.map _),
    before.nodup_keys.sublist (filter_sublist.map _), ?_⟩
  -- a package is not both gone and changed
  intro k hk k' hk' hkk
  obtain ⟨e, he, rfl⟩ := mem_map.mp hk
  obtain ⟨e', he', rfl⟩ := mem_map.mp hk'
  have hgone := (mem_filter.mp he).2
  have hthere := (mem_filter.mp he').2
  rw [isNone_iff_eq_none] at hgone
  rw [← hkk, hgone] at hthere
  cases hthere

theorem lookup_reinstalled :
    (removedSince before.entries after.entries
        ++ changedSince before.entries after.entries).lookup name = some version ↔
      before.get name = some version ∧ after.get name ≠ some version := by
  rw [lookup_eq_some_iff_mem (nodup_reinstalled before after), mem_append,
    removedSince, changedSince, mem_filter, mem_filter, ← and_or_left,
    get_eq_some_iff]
  refine and_congr_right fun _ => ?_
  change ((after.get name).isNone = true ∨ (after.get name).any _ = true) ↔ _
  cases after.get name with
  | none => simp
  | some v => simp

theorem foldl_rollbackActions (manager : PackageManager)
    (entries entries' : List (String × String)) (m : Packages) :
    (rollbackActions manager entries entries').foldl (PackageAction.apply newest) m =
      ((removedSince entries entries' ++ changedSince entries entries').map fun e =>
          (e.1, (askedVersion manager e.2).getD (newest e.1))).foldl
        (fun m e => m.insert e.1 e.2)
        ((installedSince entries entries').foldl erase m) := by
  unfold rollbackActions
  dsimp only
  generalize installedSince entries entries' = installed
  generalize removedSince entries entries' ++ changedSince entries entries' = reinstalled
  have hremove : ∀ m : Packages,
      ((if installed = [] then [] else [.remove installed]) : List PackageAction).foldl
        (PackageAction.apply newest) m = installed.foldl erase m := by
    intro m
    split_ifs with hnone
    · rw [hnone]
      rfl
    · rfl
  have hinstall : ∀ (specs : List (String × Option String)) (m : Packages),
      ((if specs = [] then [] else [.install specs]) : List PackageAction).foldl
        (PackageAction.apply newest) m =
      specs.foldl (fun m spec => m.insert spec.1 (spec.2.getD (newest spec.1))) m := by
    intro specs m
    split_ifs with hnone
    · rw [hnone]
      rfl
    · rfl
  cases manager <;>
    simp only [foldl_append, hremove, hinstall, foldl_map, PackageAction.apply,
      foldl_cons, foldl_nil]

theorem get_foldl_erase (names : List String) (m : Packages) :
    (names.foldl erase m).get name = if name ∈ names then none else m.get name := by
  induction names generalizing m with
  | nil => simp
  | cons n rest ih =>
    rw [foldl_cons, ih, get_erase]
    by_cases hrest : name ∈ rest
    · simp [hrest]
    · by_cases hn : name = n <;> simp [hrest, hn]

theorem lookup_map_versions (f : String × String → String) (l : List (String × String)) :
    (l.map fun e => (e.1, f e)).lookup name = (l.lookup name).map fun v => f (name, v) := by
  induction l with
  | nil => rfl
  | cons e rest ih =>
    rw [map_cons, lookup_cons_ite, lookup_cons_ite, ih]
    by_cases hname : name = e.1
    · rw [if_pos hname, if_pos hname, hname]
      rfl
    · rw [if_neg hname, if_neg hname]

/-- **What is installed after the undo.** -/
theorem get_rollback (manager : PackageManager) :
    ((rollbackActions manager before.entries after.entries).foldl (PackageAction.apply newest)
        after).get name =
      (before.get name).map fun version =>
        if after.get name = some version then version
        else (askedVersion manager version).getD (newest name) := by
  have hkeys : (((removedSince before.entries after.entries
      ++ changedSince before.entries after.entries).map fun e =>
        (e.1, (askedVersion manager e.2).getD (newest e.1))).map fst).Nodup := by
    rw [List.map_map]
    exact nodup_reinstalled before after
  rw [foldl_rollbackActions, get_foldl_insert hkeys, get_foldl_erase, lookup_map_versions]
  have hlookup : ∀ version, (removedSince before.entries after.entries
      ++ changedSince before.entries after.entries).lookup name = some version ↔
        before.get name = some version ∧ after.get name ≠ some version :=
    fun _ => lookup_reinstalled
  generalize (removedSince before.entries after.entries
    ++ changedSince before.entries after.entries).lookup name = found at *
  cases found with
  | some version =>
    -- a package that is installed again
    obtain ⟨hbefore, hafter⟩ := (hlookup version).mp rfl
    rw [hbefore, map_some, map_some, if_neg hafter]
    rfl
  | none =>
    simp only [map_none, none_or, mem_installedSince]
    cases hbefore : before.get name with
    | none => by_cases hafter : after.get name = none <;> simp [hafter]
    | some version =>
      have hsame : after.get name = some version := by
        by_contra hafter
        cases (hlookup version).mpr ⟨hbefore, hafter⟩
      simp [hsame]

end Rollback

/-- **The invocations lead back to the packages before, for every manager but brew; for brew if and
only if each version to restore is the newest one**, since brew is not told the version. -/
theorem package_rollback_iff (newest : String → String) (manager : PackageManager)
    (op : PackageOpKind) (before after : Packages) :
    synthesizeArgv before.entries after.entries manager op none =
        (rollbackActions manager before.entries after.entries).map (PackageAction.argv manager) ∧
      ((rollbackActions manager before.entries after.entries).foldl (PackageAction.apply newest)
          after = before ↔
        (manager = .brew → ∀ name version, before.get name = some version →
          after.get name ≠ some version → newest name = version)) := by
  refine ⟨synthesizeArgv_eq manager op _ _, ?_⟩
  constructor
  · intro hback hbrew name version hbefore hafter
    have hget : ((rollbackActions manager before.entries after.entries).foldl
        (PackageAction.apply newest) after).get name = _ := get_rollback manager
    rw [hback, hbefore, map_some, if_neg hafter, askedVersion, if_pos hbrew] at hget
    exact (some.inj hget).symm
  · intro hnewest
    refine ext_get fun name => ?_
    rw [get_rollback]
    cases hbefore : before.get name with
    | none => rfl
    | some version =>
      rw [map_some]
      congr 1
      by_cases hafter : after.get name = some version
      · rw [if_pos hafter]
      · rw [if_neg hafter, askedVersion]
        split_ifs with hbrew
        · exact hnewest hbrew name version hbefore hafter
        · rfl

/-- `brew upgrade jq`: the undo installs the newest version again. -/
theorem brew_upgrade_not_undone :
    synthesizeArgv [("jq", "1.6")] [("jq", "1.7")] .brew .upgrade none =
        [["brew", "install", "jq"]] ∧
      (rollbackActions .brew [("jq", "1.6")] [("jq", "1.7")]).map (PackageAction.argv .brew) =
        [["brew", "install", "jq"]] ∧
      (rollbackActions .brew [("jq", "1.6")] [("jq", "1.7")]).foldl
          (PackageAction.apply fun _ => "1.7") (.ofList [("jq", "1.7")]) =
        .ofList [("jq", "1.7")] ∧
      ofList [("jq", "1.7")] ≠ ofList [("jq", "1.6")] := by
  decide +kernel

/-! ## The executor -/

/-- `PkgRunner`: run an invocation, or read what a command prints. -/
structure PkgRunner (σ : Type) where
  run : List String → σ → Except String Unit × σ
  capture : List String → σ → Except String Bytes

/-- `str::contains`. -/
def textContains (text pat : String) : Bool := decide (pat.toList <:+: text.toList)

section Execute

variable {σ : Type} (malformed : Bytes → String) (runner : PkgRunner σ)

/-- The guard of a delegation, and why it does not let the delegation run. -/
def delegationGuard (d : NativeDelegation) (s : σ) : Except String Unit :=
  match d.guardCommand, d.guardMatch with
  | some guardCmd, some guardSubstr =>
    if guardCmd = [] then .ok ()
    else
      match runner.capture guardCmd s with
      | .ok stdout =>
        if !textContains (fromUtf8Lossy malformed stdout) guardSubstr then
          .error ("delegation guard mismatch: `" ++ guardSubstr ++ "` not in `"
            ++ guardCmd.head?.getD "?" ++ "` output")
        else .ok ()
      | .error e => .error ("delegation guard: " ++ e)
  | _, _ => .ok ()

/-- One invocation, and what is made of its failure. -/
def runPackage (argv : List String) (s : σ) : ExecutionOutcome × σ :=
  match runner.run argv s with
  | (.ok (), s) => (.applied, s)
  | (.error e, s) => (.failed (argv.head?.getD "?" ++ ": " ++ e), s)

/-- Invocations one after the other, up to the first that fails. -/
def runPackages : List (List String) → σ → ExecutionOutcome × σ
  | [], s => (.applied, s)
  | argv :: rest, s =>
    match runPackage runner argv s with
    | (.applied, s) => runPackages rest s
    | failed => failed

/-- `PackageExecutor::execute`. -/
def executePackage (op : InverseOp) (dryRun : Bool) (_policy : ConflictPolicy) (s : σ) :
    ExecutionOutcome × σ :=
  match op with
  | .packageRollback manager originalOp packagesBefore packagesAfter repoStateHint delegation =>
    match delegation with
    | some d =>
      match delegationGuard malformed runner d s with
      | .error e => (.failed e, s)
      | .ok () => if dryRun then (.wouldApply, s) else runPackage runner d.argv s
    | none =>
      let invocations :=
        synthesizeArgv packagesBefore packagesAfter manager originalOp repoStateHint
      if invocations = [] then (.skipped "no-op diff (packages_before == packages_after)", s)
      else if dryRun then (.wouldApply, s)
      else runPackages runner invocations s
  | _ => (.skipped "package executor reached non-package op", s)

end Execute

/-! ## A look at the history -/

/-- A transaction in the history of apt or dnf, with what is printed behind its id. -/
structure Transaction where
  id : Nat
  text : String
deriving DecidableEq, Repr

/-- The history, oldest transaction first, and what is printed above it. -/
structure History where
  header : String
  transactions : List Transaction
  increasing : transactions.Pairwise fun a b => a.id < b.id

/-- A line of `apt history list` (`<id>: <date> ...`), or of `dnf history list`, where the ids are
right-aligned in a column. -/
def historyLine (manager : PackageManager) (tx : Transaction) : List Char :=
  match manager with
  | .dnf =>
    replicate (6 - (decimal tx.id).length) ' ' ++ decimal tx.id ++ " | ".toList
      ++ tx.text.toList
  | _ => decimal tx.id ++ ": ".toList ++ tx.text.toList

/-- What the guard command prints, with the newest transaction first or last. -/
def History.print (h : History) (manager : PackageManager) (newestFirst : Bool) : String :=
  let listed := if newestFirst then h.transactions.reverse else h.transactions
  String.ofList (h.header.toList ++ '\n' :: listed.flatMap fun tx =>
    historyLine manager tx ++ ['\n'])

/-- A machine whose package manager has this history. It keeps the invocations that were run. -/
def historyRunner (h : History) (manager : PackageManager) (newestFirst : Bool)
    (result : List String → Except String Unit) : PkgRunner (List (List String)) where
  run := fun argv log => (result argv, log ++ [argv])
  capture := fun _ _ => .ok (utf8 (h.print manager newestFirst))

/-- The op the planner makes of a transaction with this id. -/
def plannedRollback (manager : PackageManager) (op : PackageOpKind)
    (before after : List (String × String)) (id : Nat) : InverseOp :=
  .packageRollback manager op before after (some (toString id))
    (nativeDelegationFor manager (some (toString id)))

/-- The character the guard looks for behind an id. -/
def guardEnd (manager : PackageManager) : Char := if manager = .dnf then ' ' else ':'

/-- What the guard looks for. -/
def guardText (manager : PackageManager) (id : Nat) : List Char := decimal id ++ [guardEnd manager]

section Guard

variable {manager : PackageManager} {id : Nat}

theorem not_mem_decimal {n : Nat} {c : Char} (hc : c.isDigit = false) : c ∉ decimal n := by
  intro hmem
  rw [isDigit_of_mem_decimal hmem] at hc
  cases hc

theorem not_mem_guardText {c : Char} (hc : c.isDigit = false) (hend : c ≠ guardEnd manager) :
    c ∉ guardText manager id := by
  rw [guardText, mem_append, mem_singleton]
  rintro (hmem | hsame)
  · exact not_mem_decimal hc hmem
  · exact hend hsame

theorem guardText_infix_spaces (k : Nat) (l : List Char) :
    guardText manager id <:+: replicate k ' ' ++ l ↔ guardText manager id <:+: l := by
  induction k with
  | zero => rfl
  | succ k ih =>
    rw [replicate_succ, cons_append, infix_cons_iff, ih, or_iff_right]
    intro hstart
    obtain ⟨d, rest, hdigits⟩ := exists_cons_of_ne_nil (decimal_ne_nil id)
    rw [guardText, hdigits, cons_append, cons_prefix_cons] at hstart
    have hspace : ' ' ∈ decimal id := by
      rw [hdigits, hstart.1]
      exact mem_cons_self
    exact not_mem_decimal (by decide) hspace

theorem trimText_toString (n : Nat) : trimText (toString n) = toString n := by
  have hdigit : ∀ c ∈ decimal n, isWhiteSpace c = false := by
    intro c hc
    by_contra hspace
    have hword := isWordChar_of_isWhiteSpace (Bool.eq_true_of_not_eq_false hspace)
    simp [isWordChar, Char.isAlphanum, isDigit_of_mem_decimal hc] at hword
  have hdrop : ∀ l : List Char, (∀ c ∈ l, isWhiteSpace c = false) →
      l.dropWhile isWhiteSpace = l := by
    intro l hl
    cases l with
    | nil => rfl
    | cons c rest => rw [dropWhile_cons, hl c mem_cons_self, if_neg Bool.false_ne_true]
  rw [trimText, toList_toString, hdrop _ hdigit, hdrop _ (fun c hc =>
    hdigit c (mem_reverse.mp hc)), reverse_reverse, ← toList_toString,
    String.ofList_toList]

variable (hmanager : manager = .apt ∨ manager = .dnf)

include hmanager

/-- **The guard finds an id at the end of another one, or in the text of a transaction.** -/
theorem guardText_infix_line (tx : Transaction) :
    guardText manager id <:+: historyLine manager tx ↔
      decimal id <:+ decimal tx.id ∨ guardText manager id <:+: tx.text.toList := by
  have hnil : ∀ m, ¬ guardText m id <:+: [] := by
    intro m hinfix
    simp [guardText] at hinfix
  rcases hmanager with rfl | rfl
  · have hline : historyLine .apt tx = decimal tx.id ++ ':' :: ([] ++ ' ' :: tx.text.toList) := by
      simp [historyLine]
    have hend : guardText .apt id = decimal id ++ [':'] := rfl
    rw [hline, hend, infix_upto_iff (not_mem_decimal (by decide)) (not_mem_decimal (by decide)),
      ← hend, infix_around_iff (not_mem_guardText (by decide) (by decide)), or_iff_right (hnil _)]
  · have hline : historyLine .dnf tx = replicate (6 - (decimal tx.id).length) ' '
        ++ (decimal tx.id ++ ' ' :: ([] ++ '|' :: (replicate 1 ' ' ++ tx.text.toList))) := by
      simp [historyLine]
    have hend : guardText .dnf id = decimal id ++ [' '] := rfl
    rw [hline, guardText_infix_spaces, hend,
      infix_upto_iff (not_mem_decimal (by decide)) (not_mem_decimal (by decide)), ← hend,
      infix_around_iff (not_mem_guardText (by decide) (by decide)), or_iff_right (hnil _),
      guardText_infix_spaces]

/-- The guard's text for an id is somewhere in the history: in the header, at the end of an id, or
in the text of a transaction. -/
def History.Mentions (h : History) (manager : PackageManager) (id : Nat) : Prop :=
  guardText manager id <:+: h.header.toList ∨ ∃ tx ∈ h.transactions,
    decimal id <:+ decimal tx.id ∨ guardText manager id <:+: tx.text.toList

theorem guardText_infix_print (h : History) (newestFirst : Bool) :
    guardText manager id <:+: (h.print manager newestFirst).toList ↔ h.Mentions manager id := by
  have hbreak : '\n' ∉ guardText manager id := by
    refine not_mem_guardText (by decide) ?_
    rcases hmanager with rfl | rfl <;> decide
  -- line by line: nothing is found across the end of one
  have hlines : ∀ txs : List Transaction,
      guardText manager id <:+: (txs.flatMap fun tx => historyLine manager tx ++ ['\n']) ↔
        ∃ tx ∈ txs, decimal id <:+ decimal tx.id ∨ guardText manager id <:+: tx.text.toList := by
    intro txs
    induction txs with
    | nil => simp [guardText]
    | cons tx rest ih =>
      rw [flatMap_cons, append_assoc, singleton_append, infix_around_iff hbreak, ih,
        guardText_infix_line hmanager]
      simp only [exists_mem_cons_iff]
  unfold History.print History.Mentions
  dsimp only
  rw [String.toList_ofList, infix_around_iff hbreak, hlines]
  cases newestFirst with
  | true => simp only [if_true, mem_reverse]
  | false => simp only [Bool.false_eq_true, if_false]

theorem nativeDelegationFor_toString (id : Nat) :
    ∃ argv cmd, nativeDelegationFor manager (some (toString id)) =
      some ⟨argv, true, some cmd, some (String.ofList (guardText manager id))⟩ ∧ cmd ≠ [] := by
  have hne : toString id ≠ "" := by
    intro hempty
    have hnil := congrArg String.toList hempty
    rw [toList_toString] at hnil
    exact decimal_ne_nil id hnil
  have htext : ∀ c : Char, String.ofList (decimal id ++ [c]) =
      toString id ++ String.singleton c := by
    intro c
    rw [← String.toList_inj, String.toList_ofList, String.toList_append, toList_toString,
      String.toList_singleton]
  simp only [nativeDelegationFor, trimText_toString, if_neg hne]
  rcases hmanager with rfl | rfl
  · exact ⟨_, _, by rw [guardText, htext]; rfl, cons_ne_nil _ _⟩
  · exact ⟨_, _, by rw [guardText, htext]; rfl, cons_ne_nil _ _⟩

theorem guard_passes_iff (malformed : Bytes → String)
    (h : History) (newestFirst : Bool) (result : List String → Except String Unit)
    (id : Nat) (argv : List String) {cmd : List String} (hcmd : cmd ≠ [])
    (log : List (List String)) :
    delegationGuard malformed (historyRunner h manager newestFirst result)
        ⟨argv, true, some cmd, some (String.ofList (guardText manager id))⟩ log = .ok () ↔
      h.Mentions manager id := by
  rw [← guardText_infix_print hmanager h newestFirst]
  simp only [delegationGuard, historyRunner, if_neg hcmd, fromUtf8Lossy_utf8, textContains,
    String.toList_ofList]
  by_cases hfound : guardText manager id <:+: (h.print manager newestFirst).toList
  · simp [hfound]
  · simp [hfound]

end Guard

/-- **A later transaction keeps the rollback from running if and only if the id is not mentioned in
the history.** The id of the transaction itself is, as long as it is listed at all. -/
theorem native_rollback_iff (malformed : Bytes → String) (manager : PackageManager)
    (hmanager : manager = .apt ∨ manager = .dnf) (h : History) (newestFirst : Bool)
    (result : List String → Except String Unit) (op : PackageOpKind)
    (before after : List (String × String)) (id : Nat) (policy : ConflictPolicy) :
    ((∃ tx ∈ h.transactions, id < tx.id) →
        ∃ err, executePackage malformed (historyRunner h manager newestFirst result)
          (plannedRollback manager op before after id) false policy [] = (.failed err, [])) ↔
      (∀ tx ∈ h.transactions, tx.id ≤ id) ∨ ¬ h.Mentions manager id := by
  obtain ⟨argv, cmd, hplanned, hcmd⟩ := nativeDelegationFor_toString hmanager id
  have hguard := guard_passes_iff hmanager malformed h newestFirst result id argv hcmd []
  have hlater : (∃ tx ∈ h.transactions, id < tx.id) ↔ ¬ ∀ tx ∈ h.transactions, tx.id ≤ id := by
    simp only [not_forall, not_le, exists_prop]
  rw [hlater]
  simp only [executePackage, plannedRollback, hplanned]
  cases hpasses : delegationGuard malformed (historyRunner h manager newestFirst result)
      ⟨argv, true, some cmd, some (String.ofList (guardText manager id))⟩ [] with
  | error e =>
    have hnot : ¬ h.Mentions manager id := fun hmention => by
      rw [hguard.mpr hmention] at hpasses
      cases hpasses
    exact ⟨fun _ => .inr hnot, fun _ _ => ⟨e, rfl⟩⟩
  | ok u =>
    -- the verb runs, whatever comes of it
    have hmention : h.Mentions manager id := hguard.mp hpasses
    constructor
    · intro hfails
      by_contra hnot
      obtain ⟨err, hrun⟩ := hfails (not_or.mp hnot).1
      have hlog := congrArg snd hrun
      cases hresult : result argv <;> simp [runPackage, historyRunner, hresult] at hlog
    · rintro (hnone | hnot) hlate
      · exact absurd hnone hlate
      · exact absurd hmention hnot

/-! ## Three histories -/

/-- The last transaction is another one than the captured one, which is no longer listed. -/
def rotatedHistory : History := ⟨"", [⟨12, "jq"⟩], by decide⟩

theorem drift_stops_rollback :
    (∃ tx ∈ rotatedHistory.transactions, 7 < tx.id) ∧
    ∃ err, executePackage (fun _ => "") (historyRunner rotatedHistory .apt true fun _ => .ok ())
      (plannedRollback .apt .install [] [("jq", "1.7")] 7) false .abort [] = (.failed err, []) := by
  have hlate : ∃ tx ∈ rotatedHistory.transactions, 7 < tx.id := by decide
  have hnot : ¬ rotatedHistory.Mentions .apt 7 := by
    rw [History.Mentions]
    decide +kernel
  exact ⟨hlate, (native_rollback_iff _ .apt (.inl rfl) rotatedHistory true _ .install []
    [("jq", "1.7")] 7 .abort).mpr (.inr hnot) hlate⟩

/-- The captured transaction, and one after it. -/
def laterHistory : History := ⟨"", [⟨7, "jq"⟩, ⟨8, "vim"⟩], by decide⟩

/-- A history in which the captured transaction is not listed, but its id ends another one. -/
def longerIdHistory : History := ⟨"ID", [⟨17, "jq"⟩, ⟨18, "vim"⟩], by decide⟩

/-- Transaction 7 is rolled back although 8 came after it; and it is rolled back where only 17 and
18 are listed. -/
theorem rolled_back_despite_drift :
    executePackage (fun _ => "") (historyRunner laterHistory .apt true fun _ => .ok ())
        (plannedRollback .apt .install [] [("jq", "1.7")] 7) false .abort [] =
      (.applied, [["apt", "history-rollback", "7"]]) ∧
    executePackage (fun _ => "") (historyRunner longerIdHistory .dnf false fun _ => .ok ())
        (plannedRollback .dnf .install [] [("jq", "1.7")] 7) false .abort [] =
      (.applied, [["dnf", "history", "undo", "-y", "7"]]) := by
  decide +kernel

end ShitUndo
