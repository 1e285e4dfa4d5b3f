import ShitUndo.NetworkExecutor
import ShitUndo.EnvDiff
import ShitUndo.Lib.KeyedDiff

/-!
# Undoing `ufw`

`synthesise_ufw_inverse` (`network_diff.rs`) compares the rules of two `ufw status numbered` dumps
as sets. For up to ten changes it deletes the rules that are new and adds those that are gone, in
the order of their text; for more it resets the firewall and adds all rules again.

`ufw` is the effect of the invocations on the list of rules: a rule that is added comes last.
-/

namespace ShitUndo

open List KeyedDiff

open KeyedDiff (Edit)

/-! ## Reading the dump -/

def splitOnce (pat : List Char) : List Char → Option (List Char × List Char)
  | [] => none
  | c :: rest =>
    if pat.isPrefixOf (c :: rest) then some ([], (c :: rest).drop pat.length)
    else (splitOnce pat rest).map fun r => (c :: r.1, r.2)

/-- `str::lines`: a line ends with `\n` or `\r\n`. -/
def textLines (text : List Char) : List (List Char) :=
  let pieces := text.splitOn '\n'
  let last := pieces.getLast?.getD []
  pieces.dropLast.map (fun l => if l.getLast? = some '\r' then l.dropLast else l)
    ++ (if last = [] then [] else [last])

/-- The rule on a line of the table, if there is one. The index in brackets goes, and so do `(v6)`
markers and repeated spaces. -/
def ufwRuleOn (line : List Char) : Option String :=
  let trimmed := trimStart line
  if trimmed.head? ≠ some '[' then none
  else
    match splitOnce [']'] trimmed with
    | none => none
    | some (idx, rest) =>
      if !(trim (idx.drop 1)).all Char.isDigit then none
      else if trim rest = [] then none
      else
        let normalized := String.intercalate " "
          ((tokenize (String.ofList (trim rest))).filter fun t => decide (t ≠ "(v6)"))
        if normalized = "" then none else some normalized

/-- The rules of the numbered half of the dump, each once. -/
def ufwRulesIn (text : List Char) : List String :=
  let numbered := ((splitOnce "\n---\n".toList text).map Prod.snd).getD text
  (textLines numbered).foldl (fun rules line =>
    match ufwRuleOn line with
    | some rule => if rule ∈ rules then rules else rules ++ [rule]
    | none => rules) []

def parseUfwRules (blob : Bytes) : List String :=
  match String.fromUTF8? blob.toByteArray with
  | none => []
  | some text => ufwRulesIn text.toList

/-! ## Writing invocations -/

/-- `str::to_ascii_lowercase`. -/
def asciiLower (s : String) : String := String.ofList (s.toList.map Char.toLower)

/-- What `canonicalize_ufw_rule` has collected. -/
structure UfwRuleParts where
  toBuf : List String
  fromBuf : List String
  action : Option String
  direction : Option String

/-- One token. Before the action verb comes the destination, after it the direction and the
source. -/
def UfwRuleParts.step (parts : UfwRuleParts) (tok : String) : UfwRuleParts :=
  if parts.action.isNone then
    if tok ∈ ["ALLOW", "DENY", "REJECT", "LIMIT"] then
      { parts with action := some (asciiLower tok) }
    else { parts with toBuf := parts.toBuf ++ [tok] }
  else if parts.direction.isNone && decide (tok ∈ ["IN", "OUT", "FWD"]) then
    { parts with direction := some (asciiLower tok) }
  else { parts with fromBuf := parts.fromBuf ++ [tok] }

def ufwRuleParts (tokens : List String) : UfwRuleParts :=
  tokens.foldl UfwRuleParts.step ⟨[], [], none, none⟩

/-- The tokens of a rule. -/
def ufwTokens (rule : String) : List String :=
  (tokenize rule).filter fun t => decide (t ≠ "(v6)")

def canonicalizeUfwRule (rule : String) : List String :=
  let tokens := ufwTokens rule
  let parts := ufwRuleParts tokens
  match parts.action with
  | none => tokens
  | some act =>
    let dirIsDefault := parts.direction.all fun d => decide (d = "in")
    let fromJoined := String.intercalate " " parts.fromBuf
    let fromIsDefault := decide (asciiLower fromJoined = asciiLower "Anywhere" ∨ fromJoined = "")
    let simpleTo :=
      match parts.toBuf with
      | [tok] =>
        if ' ' ∈ tok.toList ∨ asciiLower tok = asciiLower "Anywhere" then none else some tok
      | _ => none
    match dirIsDefault && fromIsDefault, simpleTo with
    | true, some tok => [act, tok]
    | _, _ =>
      [act] ++ parts.direction.toList ++ (if fromIsDefault then [] else ["from", fromJoined])
        ++ (if parts.toBuf = [] then [] else ["to", "any", "port"] ++ parts.toBuf)

def ruleToDeleteArgv (rule : String) : List String := ["ufw", "delete"] ++ canonicalizeUfwRule rule

def ruleToAddArgv (rule : String) : List String := ["ufw"] ++ canonicalizeUfwRule rule

/-! ## Synthesis -/

def ufwResetThreshold : Nat := 10

/-- A `BTreeSet` of rules, in order. -/
def ruleSet (rules : List String) : List String := rules.dedup.insertionSort (· ≤ ·)

/-- `BTreeSet::difference`. -/
def ruleDifference (rules rules' : List String) : List String :=
  (ruleSet rules).filter fun rule => decide (rule ∉ ruleSet rules')

/-- `synthesise_ufw_inverse`, of the rules in the two dumps. -/
def ufwInverse (beforeRules afterRules : List String) : List (List String) :=
  let added := ruleDifference afterRules beforeRules
  let removed := ruleDifference beforeRules afterRules
  if added = [] ∧ removed = [] then []
  else if ufwResetThreshold < added.length + removed.length then
    ["ufw", "--force", "reset"] :: beforeRules.map ruleToAddArgv
  else added.map ruleToDeleteArgv ++ removed.map ruleToAddArgv

def synthesiseUfwInverse (before after : Bytes) : List (List String) :=
  ufwInverse (parseUfwRules before) (parseUfwRules after)

/-- The planner with this synthesis. -/
def Renderers.withUfw (r : Renderers) : Renderers :=
  { r with synthesiseUfwInverse := ShitUndo.synthesiseUfwInverse }

/-! ## What the invocations do -/

/-- What an invocation asks for, unless it is the reset. -/
def readUfw : List String → Option (Edit (List String))
  | "ufw" :: "delete" :: rule => some (.del rule)
  | "ufw" :: rule => some (.add rule)
  | _ => none

/-- `ufw`, on the list of rules, each as its arguments. -/
def ufw (argv : List String) (rules : List (List String)) : Option (List (List String)) :=
  if argv = ["ufw", "--force", "reset"] then some []
  else (readUfw argv).bind (Edit.apply id (fun _ _ => true) (fun _ => true) rules)

/-! ## Rules -/

theorem nodup_ufwRulesIn (text : List Char) : (ufwRulesIn text).Nodup := by
  unfold ufwRulesIn
  dsimp only
  generalize textLines _ = lines
  have hfold : ∀ (lines : List (List Char)) (rules : List String), rules.Nodup →
      (lines.foldl (fun rules line =>
        match ufwRuleOn line with
        | some rule => if rule ∈ rules then rules else rules ++ [rule]
        | none => rules) rules).Nodup := by
    intro lines
    induction lines with
    | nil =>
      intro rules hrules
      exact hrules
    | cons line rest ih =>
      intro rules hrules
      rw [foldl_cons]
      apply ih
      cases ufwRuleOn line with
      | none => exact hrules
      | some rule =>
        by_cases hmem : rule ∈ rules
        · simpa [hmem] using hrules
        · simpa [hmem] using nodup_append.mpr ⟨hrules, nodup_singleton rule, by
            rintro x hx y hy rfl
            exact hmem (mem_singleton.mp hy ▸ hx)⟩
  exact hfold lines [] nodup_nil

theorem nodup_parseUfwRules (blob : Bytes) : (parseUfwRules blob).Nodup := by
  unfold parseUfwRules
  split
  · exact nodup_nil
  · exact nodup_ufwRulesIn _

theorem parseUfwRules_utf8 (s : String) : parseUfwRules (utf8 s) = ufwRulesIn s.toList := by
  have hbytes : (utf8 s).toByteArray = s.toByteArray := String.utf8Encode_toList
  rw [parseUfwRules, hbytes, String.fromUTF8?, dif_pos s.isValidUTF8]
  rfl

/-- The verbs of `ufw` for rules. -/
def ufwVerbs : List String := ["allow", "deny", "reject", "limit"]

theorem mem_ufwVerbs {tokens : List String} {act : String}
    (hact : (ufwRuleParts tokens).action = some act) : act ∈ ufwVerbs := by
  have hfold : ∀ (tokens : List String) (parts : UfwRuleParts),
      (∀ act, parts.action = some act → act ∈ ufwVerbs) →
      ∀ act, (tokens.foldl UfwRuleParts.step parts).action = some act → act ∈ ufwVerbs := by
    intro tokens
    induction tokens with
    | nil =>
      intro parts hparts
      exact hparts
    | cons tok rest ih =>
      intro parts hparts
      rw [foldl_cons]
      refine ih _ fun act hact => ?_
      unfold UfwRuleParts.step at hact
      split_ifs at hact with hnone hverb hdir
      · cases hact
        simp only [mem_cons, not_mem_nil, or_false] at hverb
        rcases hverb with rfl | rfl | rfl | rfl <;> decide +kernel
      · exact hparts act hact
      · exact hparts act hact
      · exact hparts act hact
  exact hfold tokens _ (fun _ hnone => by cases hnone) act hact

/-- A rule with an action verb. -/
def HasAction (rule : String) : Prop := (ufwRuleParts (ufwTokens rule)).action ≠ none

instance (rule : String) : Decidable (HasAction rule) :=
  inferInstanceAs (Decidable (_ ≠ _))

theorem head?_canonicalizeUfwRule {rule : String} (h : HasAction rule) :
    ∃ act ∈ ufwVerbs, (canonicalizeUfwRule rule).head? = some act := by
  obtain ⟨act, hact⟩ := Option.ne_none_iff_exists'.mp h
  refine ⟨act, mem_ufwVerbs hact, ?_⟩
  unfold canonicalizeUfwRule
  simp only [hact]
  split <;> rfl

/-- Rules that are told apart by the arguments `ufw` is given for them. -/
structure CanonicalRules (rules : List String) : Prop where
  hasAction : ∀ rule ∈ rules, HasAction rule
  inj : ∀ rule ∈ rules, ∀ rule' ∈ rules,
    canonicalizeUfwRule rule = canonicalizeUfwRule rule' → rule = rule'

/-! ## The difference -/

section Difference

variable {rules rules' before after : List String}

/-- Rules of one list that are not in another one. -/
def notIn (rules rules' : List String) : List String :=
  rules.filter fun rule => decide (rule ∉ rules')

theorem mem_ruleSet {rule : String} : rule ∈ ruleSet rules ↔ rule ∈ rules := by
  rw [ruleSet, (perm_insertionSort _ _).mem_iff, mem_dedup]

theorem ruleDifference_perm (hrules : rules.Nodup) :
    (ruleDifference rules rules').Perm (notIn rules rules') := by
  have hset : (ruleSet rules).Perm rules := by
    rw [ruleSet, hrules.dedup]
    exact perm_insertionSort _ _
  have hsame : (fun rule => decide (rule ∉ ruleSet rules')) =
      fun rule => decide (rule ∉ rules') := by
    funext rule
    exact decide_eq_decide.mpr (not_congr mem_ruleSet)
  unfold ruleDifference notIn
  rw [hsame]
  exact hset.filter _

theorem ruleDifference_sorted (rules rules' : List String) :
    (ruleDifference rules rules').Pairwise (· < ·) := by
  have hle : (ruleSet rules).Pairwise (· ≤ ·) := pairwise_insertionSort _ _
  have hne : (ruleSet rules).Nodup :=
    (perm_insertionSort _ _).nodup_iff.mpr (nodup_dedup rules)
  exact (hle.and hne).imp (fun h => lt_of_le_of_ne h.1 h.2) |>.filter _

end Difference

/-! ## The list after the undo -/

section Undo

variable {before after rules rules' : List String}

theorem readUfw_ruleToAddArgv {rule : String} (h : HasAction rule) :
    readUfw (ruleToAddArgv rule) = some (.add (canonicalizeUfwRule rule)) ∧
      ruleToAddArgv rule ≠ ["ufw", "--force", "reset"] := by
  obtain ⟨act, hact, hhead⟩ := head?_canonicalizeUfwRule h
  unfold ruleToAddArgv
  obtain ⟨tail, htail⟩ := head?_eq_some_iff.mp hhead
  rw [htail]
  simp only [ufwVerbs, mem_cons, not_mem_nil, or_false] at hact
  rcases hact with rfl | rfl | rfl | rfl <;> exact ⟨rfl, by simp⟩

theorem readUfw_adds (h : ∀ rule ∈ rules, HasAction rule) :
    (rules.map ruleToAddArgv).map readUfw =
        ((rules.map canonicalizeUfwRule).map Edit.add).map some ∧
      ∀ argv ∈ rules.map ruleToAddArgv, argv ≠ ["ufw", "--force", "reset"] := by
  simp only [map_map, forall_mem_map]
  exact ⟨map_congr_left fun rule hrule => (readUfw_ruleToAddArgv (h rule hrule)).1,
    fun rule hrule => (readUfw_ruleToAddArgv (h rule hrule)).2⟩

theorem readUfw_ruleToDeleteArgv (rule : String) :
    readUfw (ruleToDeleteArgv rule) = some (.del (canonicalizeUfwRule rule)) ∧
      ruleToDeleteArgv rule ≠ ["ufw", "--force", "reset"] :=
  ⟨rfl, by simp [ruleToDeleteArgv]⟩

theorem foldlM_ufw {invs : List (List String)} {edits : List (Edit (List String))}
    (hreset : ∀ argv ∈ invs, argv ≠ ["ufw", "--force", "reset"])
    (hread : invs.map readUfw = edits.map some) (t : List (List String)) :
    invs.foldlM (fun t argv => ufw argv t) t =
      KeyedDiff.run id (fun _ _ => true) (fun _ => true) edits t := by
  rw [← foldlM_commands hread]
  clear hread
  induction invs generalizing t with
  | nil => rfl
  | cons argv rest ih =>
    rw [foldlM_cons, foldlM_cons, ufw, if_neg (hreset argv mem_cons_self)]
    exact bind_congr (ih fun argv hargv => hreset argv (mem_cons_of_mem _ hargv))

/-- The arguments tell the rules of one list from those of the other. -/
def ToldApart (rules rules' : List String) : Prop :=
  ∀ rule ∈ rules, ∀ rule' ∈ rules', canonicalizeUfwRule rule = canonicalizeUfwRule rule' →
    rule = rule'

theorem ToldApart.any_canonicalize (hinj : ToldApart rules rules') {rule : String}
    (hrule : rule ∈ rules) :
    ((rules'.map canonicalizeUfwRule).any fun q => decide (id q = id (canonicalizeUfwRule rule))) =
      decide (rule ∈ rules') := by
  rw [Bool.eq_iff_iff, decide_eq_true_iff, any_eq_true]
  constructor
  · rintro ⟨x, hx, hsame⟩
    obtain ⟨rule', hrule', rfl⟩ := mem_map.mp hx
    rw [hinj rule hrule rule' hrule' (of_decide_eq_true hsame).symm]
    exact hrule'
  · intro hmem
    exact ⟨_, mem_map_of_mem hmem, by simp⟩

theorem missing_canonicalize (hinj : ToldApart rules rules') :
    missing id (rules.map canonicalizeUfwRule) (rules'.map canonicalizeUfwRule) =
      (notIn rules rules').map canonicalizeUfwRule := by
  unfold missing notIn
  rw [filter_map]
  congr 1
  refine filter_congr fun rule hrule => ?_
  rw [Function.comp_apply, hinj.any_canonicalize hrule, decide_not]

theorem kept_canonicalize (hinj : ToldApart after before) :
    kept id (before.map canonicalizeUfwRule) (after.map canonicalizeUfwRule) =
      (after.filter fun rule => decide (rule ∈ before)).map canonicalizeUfwRule := by
  unfold kept
  rw [filter_map]
  congr 1
  exact filter_congr fun rule hrule => hinj.any_canonicalize hrule

theorem eq_of_map_canonicalize (hinj : ToldApart rules rules')
    (hsame : rules.map canonicalizeUfwRule = rules'.map canonicalizeUfwRule) : rules = rules' := by
  induction rules generalizing rules' with
  | nil => exact (map_eq_nil_iff.mp hsame.symm).symm
  | cons rule rest ih =>
    obtain ⟨rule', rest', rfl, hhead, hrest⟩ := map_eq_cons_iff.mp hsame.symm
    rw [hinj rule mem_cons_self rule' mem_cons_self hhead.symm,
      ih (fun x hx y hy => hinj x (mem_cons_of_mem _ hx) y (mem_cons_of_mem _ hy)) hrest.symm]

/-- How many rules are in one of the lists only. -/
def ufwChanges (before after : List String) : Nat :=
  (notIn after before).length + (notIn before after).length

/-- The per-rule path: what both lists have stays in place, the rest comes behind it in order. -/
theorem foldlM_ufw_perRule (hrules : CanonicalRules (before ++ after)) (hbefore : before.Nodup)
    (hafter : after.Nodup) :
    ((ruleDifference after before).map ruleToDeleteArgv
        ++ (ruleDifference before after).map ruleToAddArgv).foldlM (fun t argv => ufw argv t)
          (after.map canonicalizeUfwRule) =
      some ((after.filter (fun rule => decide (rule ∈ before))
        ++ ruleDifference before after).map canonicalizeUfwRule) := by
  have hinj : ToldApart before after := fun x hx y hy =>
    hrules.inj x (mem_append_left _ hx) y (mem_append_right _ hy)
  have hinj' : ToldApart after before := fun x hx y hy =>
    hrules.inj x (mem_append_right _ hx) y (mem_append_left _ hy)
  have hnodup : ∀ rules : List String, (∀ rule ∈ rules, rule ∈ before ++ after) → rules.Nodup →
      ((rules.map canonicalizeUfwRule).map id).Nodup := by
    intro rules hsub hnodup
    rw [map_id]
    exact List.Nodup.map_on (fun x hx y hy => hrules.inj x (hsub x hx) y (hsub y hy)) hnodup
  have hremoved : ∀ rule ∈ ruleDifference before after, HasAction rule := by
    intro rule hrule
    have hmem := (ruleDifference_perm hbefore).mem_iff.mp hrule
    exact hrules.hasAction rule (mem_append_left _ (mem_of_mem_filter hmem))
  have hgone : ((ruleDifference after before).map canonicalizeUfwRule).Perm (missing id
      (after.map canonicalizeUfwRule) (before.map canonicalizeUfwRule)) := by
    rw [missing_canonicalize hinj']
    exact (ruleDifference_perm hafter).map _
  have hnew : ((ruleDifference before after).map canonicalizeUfwRule).Perm (missing id
      (before.map canonicalizeUfwRule) (after.map canonicalizeUfwRule)) := by
    rw [missing_canonicalize hinj]
    exact (ruleDifference_perm hbefore).map _
  have hrun : KeyedDiff.run id (fun _ _ => true) (fun _ => true) _
      (after.map canonicalizeUfwRule) = _ :=
    KeyedDiff.run_changes hgone hnew (fun _ => rfl)
      (hnodup before (fun _ => mem_append_left _) hbefore)
      (hnodup after (fun _ => mem_append_right _) hafter) (fun _ _ => rfl)
  rw [kept_canonicalize hinj', ← map_append] at hrun
  obtain ⟨hread, hreset⟩ := readUfw_adds hremoved
  refine (foldlM_ufw (forall_mem_append.mpr ⟨?_, hreset⟩) ?_ _).trans hrun
  · exact forall_mem_map.mpr fun rule _ => (readUfw_ruleToDeleteArgv rule).2
  · rw [map_append, hread, map_append]
    simp only [map_map]
    rfl

theorem foldlM_ufw_reset (hrules : CanonicalRules (before ++ after)) (hbefore : before.Nodup) :
    (["ufw", "--force", "reset"] :: before.map ruleToAddArgv).foldlM (fun t argv => ufw argv t)
        (after.map canonicalizeUfwRule) = some (before.map canonicalizeUfwRule) := by
  have hempty : ufw ["ufw", "--force", "reset"] (after.map canonicalizeUfwRule) = some [] :=
    if_pos rfl
  rw [foldlM_cons, hempty]
  obtain ⟨hread, hreset⟩ := readUfw_adds fun rule hrule =>
    hrules.hasAction rule (mem_append_left _ hrule)
  refine (foldlM_ufw hreset hread []).trans (KeyedDiff.run_add _ _ (fun _ _ => rfl) ?_)
  rw [nil_append, map_id]
  exact List.Nodup.map_on (fun x hx y hy => hrules.inj x (mem_append_left _ hx) y
    (mem_append_left _ hy)) hbefore

/-- The rules that both lists have are in the same order, and those that are gone were behind them,
in ascending order. -/
structure GoneFromTheEnd (before after : List String) : Prop where
  kept : after.filter (fun rule => decide (rule ∈ before)) =
    before.filter fun rule => decide (rule ∈ after)
  last : before = before.filter (fun rule => decide (rule ∈ after)) ++ notIn before after
  ascending : (notIn before after).Pairwise (· < ·)

theorem goneFromTheEnd_iff (hbefore : before.Nodup) :
    after.filter (fun rule => decide (rule ∈ before)) ++ ruleDifference before after = before ↔
      GoneFromTheEnd before after := by
  have hperm : (ruleDifference before after).Perm (notIn before after) :=
    ruleDifference_perm hbefore
  constructor
  · intro hback
    -- what of the new list is in `after` is the first part, and the rest is the second
    have hgone : ∀ rule ∈ ruleDifference before after, rule ∉ after := fun rule hrule => by
      simpa using (mem_filter.mp (hperm.mem_iff.mp hrule)).2
    have hkept : before.filter (fun rule => decide (rule ∈ after)) =
        after.filter fun rule => decide (rule ∈ before) := by
      have hnone : (ruleDifference before after).filter (fun rule => decide (rule ∈ after)) = [] :=
        filter_eq_nil_iff.mpr fun rule hrule => by simpa using hgone rule hrule
      conv_lhs => rw [← hback]
      rw [filter_append, hnone, append_nil, filter_eq_self]
      intro rule hrule
      exact decide_eq_true (mem_of_mem_filter hrule)
    have hrest : notIn before after = ruleDifference before after := by
      have hnone : (after.filter fun rule => decide (rule ∈ before)).filter
          (fun rule => decide (rule ∉ after)) = [] :=
        filter_eq_nil_iff.mpr fun rule hrule => by
          simpa using mem_of_mem_filter hrule
      unfold notIn
      conv_lhs => rw [← hback]
      rw [filter_append, hnone, nil_append, filter_eq_self]
      intro rule hrule
      exact decide_eq_true (hgone rule hrule)
    refine ⟨hkept.symm, ?_, ?_⟩
    · rw [hkept, hrest]
      exact hback.symm
    · rw [hrest]
      exact ruleDifference_sorted before after
  · rintro ⟨hkept, hlast, hascending⟩
    have hsorted : ruleDifference before after = notIn before after := by
      refine hperm.eq_of_pairwise (fun a b _ _ hab hba => ?_)
        (ruleDifference_sorted before after) hascending
      exact absurd (hab.trans hba) (lt_irrefl a)
    rw [hkept, hsorted]
    exact hlast.symm

end Undo

theorem undoNetworkOp_withUfw {σ : Type} (runner : NetRunner σ) (r : Renderers)
    (before after : Bytes) (s : σ) :
    undoNetworkOp runner r.withUfw .ufw before after s =
      (replay runner (ufwInverse (parseUfwRules before) (parseUfwRules after)) s).2 :=
  undoNetworkOp_ufw runner r.withUfw before after s

/-- **The list of rules comes back, in its order, if and only if the firewall is reset, or the rules
that are gone were its last ones in ascending order and the others have kept their order.** -/
theorem ufw_rollback_iff (r : Renderers) (before after : Bytes)
    (hrules : CanonicalRules (parseUfwRules before ++ parseUfwRules after)) :
    undoNetworkOp (.ofTool ufw) r.withUfw .ufw before after
        ((parseUfwRules after).map canonicalizeUfwRule) =
      (parseUfwRules before).map canonicalizeUfwRule ↔
    ufwResetThreshold < ufwChanges (parseUfwRules before) (parseUfwRules after) ∨
      GoneFromTheEnd (parseUfwRules before) (parseUfwRules after) := by
  have hbefore := nodup_parseUfwRules before
  have hafter := nodup_parseUfwRules after
  rw [undoNetworkOp_withUfw]
  generalize parseUfwRules before = before at *
  generalize parseUfwRules after = after at *
  have hchanges : (ruleDifference after before).length + (ruleDifference before after).length =
      ufwChanges before after := by
    rw [ufwChanges, (ruleDifference_perm hafter).length_eq, (ruleDifference_perm hbefore).length_eq]
  by_cases hreset : ufwResetThreshold < ufwChanges before after
  · have hinv : ufwInverse before after =
        ["ufw", "--force", "reset"] :: before.map ruleToAddArgv := by
      unfold ufwInverse
      dsimp only
      rw [hchanges, if_pos hreset, if_neg]
      rintro ⟨hadded, hremoved⟩
      rw [hadded, hremoved] at hchanges
      have hzero : ufwChanges before after = 0 := hchanges.symm
      omega
    rw [hinv, replay_ofTool (foldlM_ufw_reset hrules hbefore)]
    exact ⟨fun _ => .inl hreset, fun _ => rfl⟩
  · have hinv : ufwInverse before after = (ruleDifference after before).map ruleToDeleteArgv
        ++ (ruleDifference before after).map ruleToAddArgv := by
      unfold ufwInverse
      dsimp only
      rw [hchanges, if_neg hreset]
      split_ifs with hnone
      · rw [hnone.1, hnone.2]
        rfl
      · rfl
    rw [hinv, replay_ofTool (foldlM_ufw_perRule hrules hbefore hafter),
      ← goneFromTheEnd_iff hbefore]
    -- the arguments tell the rules apart
    constructor
    · intro hsame
      refine .inr (eq_of_map_canonicalize (fun x hx y hy => hrules.inj x ?_ y
        (mem_append_left _ hy)) hsame)
      rcases mem_append.mp hx with hkept | hback
      · exact mem_append_right _ (mem_of_mem_filter hkept)
      · have hmem := (ruleDifference_perm hbefore).mem_iff.mp hback
        exact mem_append_left _ (mem_of_mem_filter hmem)
    · rintro (hlarge | hsame)
      · exact absurd hlarge hreset
      · rw [hsame]

/-! ## Two firewalls -/

/-- The dump of an open machine. -/
def sshAndWeb : String :=
  "\n---\n[ 1] 22 ALLOW IN Anywhere\n[ 2] 80 ALLOW IN Anywhere\n" ++
    "[ 3] 22 (v6) ALLOW IN Anywhere (v6)"

/-- Its web server is closed, and a port opened. -/
def sshAndOther : String :=
  "\n---\n[ 1] 22 ALLOW IN Anywhere\n[ 2] 8080 ALLOW IN 10.0.0.0/8\n"

theorem closed_web_server_restored :
    undoNetworkOp (.ofTool ufw) Renderers.silent.withUfw .ufw (utf8 sshAndWeb) (utf8 sshAndOther)
        [["allow", "22"], ["allow", "in", "from", "10.0.0.0/8", "to", "any", "port", "8080"]] =
      [["allow", "22"], ["allow", "80"]] := by
  have hbefore : parseUfwRules (utf8 sshAndWeb) =
      ["22 ALLOW IN Anywhere", "80 ALLOW IN Anywhere"] := by
    rw [parseUfwRules_utf8]
    decide +kernel
  have hafter : parseUfwRules (utf8 sshAndOther) =
      ["22 ALLOW IN Anywhere", "8080 ALLOW IN 10.0.0.0/8"] := by
    rw [parseUfwRules_utf8]
    decide +kernel
  have hargs : ["22 ALLOW IN Anywhere", "80 ALLOW IN Anywhere"].map canonicalizeUfwRule =
      [["allow", "22"], ["allow", "80"]] := by
    decide +kernel
  have hargs' : ["22 ALLOW IN Anywhere", "8080 ALLOW IN 10.0.0.0/8"].map canonicalizeUfwRule =
      [["allow", "22"], ["allow", "in", "from", "10.0.0.0/8", "to", "any", "port", "8080"]] := by
    decide +kernel
  -- the dumps are not looked at again
  generalize utf8 sshAndWeb = before at *
  generalize utf8 sshAndOther = after at *
  have hrules : CanonicalRules (parseUfwRules before ++ parseUfwRules after) := by
    rw [hbefore, hafter]
    exact ⟨by decide +kernel, by decide +kernel⟩
  have hgone : GoneFromTheEnd (parseUfwRules before) (parseUfwRules after) := by
    rw [hbefore, hafter]
    exact ⟨by decide +kernel, by decide +kernel, by decide +kernel⟩
  have hback := (ufw_rollback_iff .silent before after hrules).mpr (.inr hgone)
  rwa [hbefore, hafter, hargs, hargs'] at hback

/-- One address may connect, all others are refused. -/
def allowThenDeny : String :=
  "[ 1] 22 ALLOW IN 10.0.0.1\n[ 2] 22 DENY IN Anywhere\n"

/-- The rule for that address is deleted. -/
def denyOnly : String := "[ 1] 22 DENY IN Anywhere\n"

/-- It comes back behind the rule that refuses everyone, and the address stays locked out. -/
theorem allow_restored_behind_deny :
    parseUfwRules (utf8 allowThenDeny) = ["22 ALLOW IN 10.0.0.1", "22 DENY IN Anywhere"] ∧
    parseUfwRules (utf8 denyOnly) = ["22 DENY IN Anywhere"] ∧
    ["22 ALLOW IN 10.0.0.1", "22 DENY IN Anywhere"].map canonicalizeUfwRule =
      [["allow", "in", "from", "10.0.0.1", "to", "any", "port", "22"], ["deny", "22"]] ∧
    undoNetworkOp (.ofTool ufw) Renderers.silent.withUfw .ufw (utf8 allowThenDeny) (utf8 denyOnly)
        [["deny", "22"]] =
      [["deny", "22"], ["allow", "in", "from", "10.0.0.1", "to", "any", "port", "22"]] := by
  have hbefore : parseUfwRules (utf8 allowThenDeny) =
      ["22 ALLOW IN 10.0.0.1", "22 DENY IN Anywhere"] := by
    rw [parseUfwRules_utf8]
    decide +kernel
  have hafter : parseUfwRules (utf8 denyOnly) = ["22 DENY IN Anywhere"] := by
    rw [parseUfwRules_utf8]
    decide +kernel
  refine ⟨hbefore, hafter, by decide +kernel, ?_⟩
  rw [undoNetworkOp_withUfw, hbefore, hafter]
  decide +kernel

end ShitUndo
