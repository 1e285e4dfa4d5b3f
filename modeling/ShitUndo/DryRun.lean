import ShitUndo.NameView

/-!
# Dry runs

`shit undo --dry-run` runs the orchestrator with an executor that answers `WouldApply` and
touches nothing. The preconditions of every op are then probed in the tree undo starts in, while
a real run probes them in the tree the ops before it have left. Whether the reports agree can be
told from the plan and the names of the starting tree alone: `compareChecks` follows the names
through the plan and makes every check on them and on the starting tree.

* `compareChecks_decides`: the dry run is right where the comparison says `same`, and wrong where
  it says `different`.
-/

namespace ShitUndo

open List NameView

/-- What `execute_one` settles a node as without the executor; nothing if it is dispatched. -/
def Disposition.verdict : Disposition → Option OutcomeKind
  | settled kind _ => some kind
  | dispatch => none

/-- The kind a dry run reports for an outcome of the real run: `WouldApply` for `Applied`. -/
def OutcomeKind.inDryRun : OutcomeKind → OutcomeKind
  | applied => wouldApply
  | kind => kind

variable {h : Host} {filter : PathsFilter} {plan : UndoPlan} {policy : ConflictPolicy}

section DryRun

variable {σ : Type}

/-- Every node the real run reaches gets the verdict in the state undo starts in that it gets in
the state the nodes before it have left. -/
def VerdictsStand (rt : Runtime σ) (filter : PathsFilter) (policy : ConflictPolicy) (start : σ) :
    List PlanNode → σ → Prop
  | [], _ => True
  | node :: rest, s =>
    (disposition filter policy (rt.probe start) node).verdict =
        (disposition filter policy (rt.probe s) node).verdict ∧
      (halts policy (executeOne rt filter 0 node false policy s).1.outcomeKind = false →
        VerdictsStand rt filter policy start rest (executeOne rt filter 0 node false policy s).2)

/-- The dry run changes nothing, and reports for each node what the real run reports, with
`WouldApply` in place of `Applied`. -/
def DryRunFaithful (h : Host) (filter : PathsFilter) (plan : UndoPlan) (policy : ConflictPolicy)
    (fs : Fs) : Prop :=
  (run (fileRuntime h) filter plan true policy fs).2 = fs ∧
    (run (fileRuntime h) filter plan true policy fs).1.records.map (fun rec => rec.outcomeKind) =
      (run (fileRuntime h) filter plan false policy fs).1.records.map
        (fun rec => rec.outcomeKind.inDryRun)

/-! ## One node -/

theorem verdict_ne_applied (filter : PathsFilter) (policy : ConflictPolicy) (live : StateProbe)
    (node : PlanNode) {kind : OutcomeKind}
    (hv : (disposition filter policy live node).verdict = some kind) :
    kind ≠ .applied ∧ kind ≠ .wouldApply := by
  unfold disposition at hv
  split at hv
  · cases hv
    decide
  split at hv
  · cases hv
    decide
  · cases hv
    decide
  split at hv
  · cases hv
  · cases hv
  · cases hv
    decide
  · rename_i c _
    cases hv
    cases c <;> simp [OutcomeKind.fromOutcome]

theorem verdict_eq_iff (filter : PathsFilter) (policy : ConflictPolicy)
    (live live' : StateProbe) (node : PlanNode) :
    (disposition filter policy live node).verdict = (disposition filter policy live' node).verdict ↔
      (disposition filter policy live node).verdict.getD .wouldApply =
        ((disposition filter policy live' node).verdict.getD .applied).inDryRun := by
  have hself : ∀ kind : OutcomeKind, kind ≠ .applied → kind.inDryRun = kind := by
    intro kind hne
    cases kind <;> simp_all [OutcomeKind.inDryRun]
  cases hv : (disposition filter policy live node).verdict with
  | none =>
    cases hv' : (disposition filter policy live' node).verdict with
    | none => simp [OutcomeKind.inDryRun]
    | some k' =>
      obtain ⟨hne, hne'⟩ := verdict_ne_applied filter policy live' node hv'
      simpa [hself k' hne] using Ne.symm hne'
  | some k =>
    obtain ⟨-, hk⟩ := verdict_ne_applied filter policy live node hv
    cases hv' : (disposition filter policy live' node).verdict with
    | none => simpa [OutcomeKind.inDryRun] using hk
    | some k' =>
      obtain ⟨hne, -⟩ := verdict_ne_applied filter policy live' node hv'
      simp [hself k' hne]

theorem halts_inDryRun (policy : ConflictPolicy) (kind : OutcomeKind) :
    halts policy kind.inDryRun = halts policy kind := by
  cases kind <;> simp [halts, OutcomeKind.inDryRun]

variable {node : PlanNode}

theorem execute_dryRun (policy : ConflictPolicy) (fs : Fs) (hfile : node.op.tier = .files) :
    (fileRuntime h).execute node.op true policy fs = (.wouldApply, fs) := by
  show executeFileOp h node.op true policy fs = (.wouldApply, fs)
  simp [executeFileOp, hfile]

theorem executeOne_dryRun (filter : PathsFilter) (policy : ConflictPolicy) (i : Nat) (fs : Fs)
    (hfile : node.op.tier = .files) :
    (executeOne (fileRuntime h) filter i node true policy fs).1.outcomeKind =
        (disposition filter policy ((fileRuntime h).probe fs) node).verdict.getD .wouldApply ∧
      (executeOne (fileRuntime h) filter i node true policy fs).2 = fs := by
  cases hd : disposition filter policy ((fileRuntime h).probe fs) node with
  | settled kind detail =>
    rw [executeOne_of_settled hd]
    exact ⟨rfl, rfl⟩
  | dispatch =>
    rw [executeOne_of_dispatch hd, execute_dryRun policy fs hfile]
    exact ⟨rfl, rfl⟩

theorem executeOne_succeeding {filter : PathsFilter} {policy : ConflictPolicy} {fs : Fs} (i : Nat)
    (hok : ∀ c ∈ nodeCalls (fileRuntime h) filter false policy node fs, c.outcome = .applied) :
    (executeOne (fileRuntime h) filter i node false policy fs).1.outcomeKind =
      (disposition filter policy ((fileRuntime h).probe fs) node).verdict.getD .applied := by
  cases hd : disposition filter policy ((fileRuntime h).probe fs) node with
  | settled kind detail =>
    rw [executeOne_of_settled hd]
    rfl
  | dispatch =>
    have happlied : ((fileRuntime h).execute node.op false policy fs).1 = .applied := by
      simpa [nodeCalls, hd] using hok
    rw [executeOne_of_dispatch hd, happlied]
    rfl

/-! ## Whole runs -/

variable {i : Nat} {nodes : List PlanNode} {start fs : Fs}

theorem runFrom_dryRun_state (hfiles : ∀ node ∈ nodes, node.op.tier = .files) :
    (runFrom (fileRuntime h) filter true policy i nodes fs).2 = fs := by
  refine runFrom_invariant (P := fun s => s = fs) ?_ rfl
  intro node hnode s hs
  rw [execute_dryRun policy s (hfiles node hnode), hs]

/-- The reports correspond exactly when the verdicts stand: the dry run stays at `start`, the
real run has come to `fs`. -/
theorem runFrom_kinds_eq_iff (hfiles : ∀ node ∈ nodes, node.op.tier = .files)
    (hok : ∀ c ∈ calls (fileRuntime h) filter false policy nodes fs, c.outcome = .applied) :
    (runFrom (fileRuntime h) filter true policy i nodes start).1.map (fun rec => rec.outcomeKind) =
        (runFrom (fileRuntime h) filter false policy i nodes fs).1.map
          (fun rec => rec.outcomeKind.inDryRun) ↔
      VerdictsStand (fileRuntime h) filter policy start nodes fs := by
  induction nodes generalizing i fs with
  | nil => simp [runFrom, VerdictsStand]
  | cons node rest ih =>
    rw [calls_cons] at hok
    obtain ⟨hdry, hstate⟩ := executeOne_dryRun (h := h) filter policy i start
      (hfiles node List.mem_cons_self)
    have hreal := executeOne_succeeding i fun c hc => hok c (List.mem_append_left _ hc)
    obtain ⟨hkind, hnext⟩ := executeOne_index (fileRuntime h) filter false policy node fs 0 i
    rw [hkind, hnext] at hok
    rw [VerdictsStand, verdict_eq_iff, ← hdry, ← hreal, hkind, hnext, runFrom, runFrom]
    rw [hstate]
    by_cases heq : (executeOne (fileRuntime h) filter i node true policy start).1.outcomeKind =
        ((executeOne (fileRuntime h) filter i node false policy fs).1.outcomeKind).inDryRun
    · -- both runs halt here, or both go on
      rw [heq, halts_inDryRun]
      split
      · rename_i hyes
        simp [heq, hyes]
      · rename_i hno
        have hrest := ih (i := i + 1) (fun n hn => hfiles n (List.mem_cons_of_mem _ hn))
          fun c hc => hok c (List.mem_append_right _ (by rw [if_neg hno]; exact hc))
        simp [heq, hno, hrest]
    · -- the two records already differ
      refine iff_of_false (fun hmaps => heq ?_) (fun hstand => heq hstand.1)
      split at hmaps <;> split at hmaps <;>
        · simp only [List.map_cons, List.cons.injEq] at hmaps
          exact hmaps.1

end DryRun

variable {fs : Fs}

/-- For a plan of file ops whose executor calls all succeed, the dry run is faithful exactly when
every check of the real run has the same verdict in the starting tree. -/
theorem dryRunFaithful_iff (hfiles : ∀ node ∈ plan.nodes, node.op.tier = .files)
    (hok : ∀ c ∈ calls (fileRuntime h) filter false policy plan.nodes fs, c.outcome = .applied) :
    DryRunFaithful h filter plan policy fs ↔
      VerdictsStand (fileRuntime h) filter policy fs plan.nodes fs := by
  rw [DryRunFaithful, ← runFrom_kinds_eq_iff (i := 0) hfiles hok]
  exact and_iff_right (runFrom_dryRun_state hfiles)

/-! ## From the plan and the starting tree -/

/-- What a check can read where only the names are known. -/
def NameView.probe (v : NameView) : StateProbe where
  stat := fun p => (v p).map fun e =>
    ⟨e.inode.getD ⟨0, 0⟩, { plainMeta 0 with
      mode := if e.isDir then FileKind.directory.ifmt else FileKind.regular.ifmt }⟩
  contentHash := fun _ => none

/-- What following the names through a plan says about its dry run. -/
inductive Comparison where
  | same
  | different
  /-- It depends on what the names do not tell. -/
  | undetermined
deriving DecidableEq

/-- Compare every check on the names that the ops before it leave with the check on the starting
tree, up to the node that halts the run. -/
def compareChecks (filter : PathsFilter) (policy : ConflictPolicy) (start : StateProbe) :
    List PlanNode → NameView → Comparison
  | [], _ => .same
  | node :: rest, v =>
    if policy ≠ .force ∧ filteredOut filter node.op = false ∧ v.settles node.op = false then
      .undetermined
    else
      let verdict := (disposition filter policy v.probe node).verdict
      if verdict ≠ (disposition filter policy start node).verdict then .different
      else if verdict.any (halts policy) then .same
      else compareChecks filter policy start rest (if verdict = none then v.after node.op else v)

section Checks

variable {v : NameView} {node : PlanNode} {nodes : List PlanNode} {live live' : StateProbe}

/-- The kind of conflict the check finds. -/
def conflictKind (live : StateProbe) (op : InverseOp) : Option OutcomeKind :=
  (preconditionConflict live op).map fun c => OutcomeKind.fromOutcome (.conflict c)

theorem verdict_congr (hkind : conflictKind live node.op = conflictKind live' node.op) :
    (disposition filter policy live node).verdict =
      (disposition filter policy live' node).verdict := by
  have heff : (effectiveConflict live node).map (fun c => OutcomeKind.fromOutcome (.conflict c)) =
      (effectiveConflict live' node).map (fun c => OutcomeKind.fromOutcome (.conflict c)) := by
    unfold effectiveConflict
    split
    · rfl
    · exact hkind
  unfold disposition
  split_ifs
  · rfl
  split
  · rfl
  · rfl
  generalize effectiveConflict live node = c at heff ⊢
  generalize effectiveConflict live' node = c' at heff ⊢
  cases c with
  | none =>
    cases c' with
    | none => rfl
    | some c' => cases heff
  | some c =>
    cases c' with
    | none => cases heff
    | some c' =>
      cases policy with
      | abort => exact heff
      | skip => rfl
      | force => rfl

/-- Under `Force` no check is heeded. -/
theorem verdict_force (filter : PathsFilter) (live live' : StateProbe) (node : PlanNode) :
    (disposition filter .force live node).verdict =
      (disposition filter .force live' node).verdict := by
  unfold disposition
  split_ifs
  · rfl
  split
  · rfl
  · rfl
  cases effectiveConflict live node <;> cases effectiveConflict live' node <;> rfl

theorem verdict_filtered (hfilter : filteredOut filter node.op = true) :
    (disposition filter policy live node).verdict = some .skipped := by
  unfold disposition
  rw [if_pos hfilter]
  rfl

theorem pathExists_eq (hv : v.Sees fs) (p : PathBuf) :
    v.probe.pathExists p = (fs.probe h).pathExists p := by
  simp only [StateProbe.pathExists, probe, Fs.probe, Option.isSome_map, hv.isSome_eq]

/-- The names tell how a check comes out. -/
theorem conflictKind_eq {op : InverseOp} (hv : v.Sees fs) (hsure : v.settles op = true) :
    conflictKind v.probe op = conflictKind (fs.probe h) op := by
  unfold conflictKind preconditionConflict
  split
  · rfl
  · simp only [pathExists_eq (h := h) hv]
  · simp only [pathExists_eq (h := h) hv]
  · simp only [pathExists_eq (h := h) hv]
  · -- the inode
    rename_i inode p _
    have hp := hv p
    rw [NameView.settles] at hsure
    simp only [probe, Fs.probe]
    generalize v p = e at hp hsure ⊢
    generalize fs.lookup p = o at hp ⊢
    cases hp with
    | none => rfl
    | some hshow =>
      rename_i e i
      obtain ⟨k, hk⟩ := Option.isSome_iff_exists.mp hsure
      obtain rfl := hshow.1 k hk
      simp only [Option.map_some, hk, Option.getD_some]
  · -- a directory over a directory
    rename_i p kind _
    have hp := hv p
    simp only [probe, Fs.probe]
    generalize v p = e at hp ⊢
    generalize fs.lookup p = o at hp ⊢
    cases hp with
    | none => rfl
    | some hshow =>
      rename_i e i
      have hdir : FileKind.fromMode (if e.isDir = true then FileKind.directory.ifmt
          else FileKind.regular.ifmt) = some .directory ↔ e.isDir = true := by
        cases e.isDir <;> decide
      simp only [Option.map_some, Inode.fromMode_stat, Option.some.injEq, hdir.trans hshow.2]
  · simp only [pathExists_eq (h := h) hv]
  · simp only [pathExists_eq (h := h) hv]
  · simp only [pathExists_eq (h := h) hv]
  · rfl

theorem verdict_eq_of_sees (hv : v.Sees fs)
    (hsure : ¬ (filteredOut filter node.op = false ∧ v.settles node.op = false)) :
    (disposition filter policy v.probe node).verdict =
      (disposition filter policy (fs.probe h) node).verdict := by
  cases hfilter : filteredOut filter node.op with
  | true => rw [verdict_filtered hfilter, verdict_filtered hfilter]
  | false =>
    refine verdict_congr (conflictKind_eq hv ?_)
    simpa [hfilter] using hsure

/-- What a node leaves, with the names followed. -/
theorem sees_executeOne (hhelper : h.HelperCalls) (hpolicy : policy ≠ .force)
    (hfile : node.op.tier = .files) (hv : v.Sees fs)
    (hsure : ¬ (filteredOut filter node.op = false ∧ v.settles node.op = false))
    (hok : ∀ c ∈ nodeCalls (fileRuntime h) filter false policy node fs, c.outcome = .applied) :
    (if (disposition filter policy v.probe node).verdict = none then v.after node.op else v).Sees
      (executeOne (fileRuntime h) filter 0 node false policy fs).2 := by
  rw [verdict_eq_of_sees (h := h) hv hsure]
  cases hd : disposition filter policy ((fileRuntime h).probe fs) node with
  | settled kind detail =>
    rw [executeOne_of_settled hd, show disposition filter policy (fs.probe h) node = _ from hd]
    exact hv
  | dispatch =>
    have hexec : (fileRuntime h).execute node.op false policy fs = applyFileOp h node.op fs := by
      show executeFileOp h node.op false policy fs = applyFileOp h node.op fs
      simp [executeFileOp, hfile]
    have happlied : ((fileRuntime h).execute node.op false policy fs).1 = .applied := by
      simpa [nodeCalls, hd] using hok
    have hfilter : filteredOut filter node.op = false := by
      by_contra hout
      have hv : (disposition filter policy ((fileRuntime h).probe fs) node).verdict =
          some .skipped := verdict_filtered (by simpa using hout)
      rw [hd] at hv
      cases hv
    have hsettles : v.settles node.op = true := by simpa [hfilter] using hsure
    rw [executeOne_of_dispatch hd, show disposition filter policy (fs.probe h) node = _ from hd]
    refine after_sees hhelper hv hsettles (precondition_of_dispatch hpolicy hd) ?_
    rw [hexec] at happlied ⊢
    exact Prod.ext happlied rfl

/-- The comparison speaks for the verdicts of the real run. -/
theorem compareChecks_verdicts (hhelper : h.HelperCalls) (hpolicy : policy ≠ .force) {start : Fs}
    (hfiles : ∀ node ∈ nodes, node.op.tier = .files)
    (hok : ∀ c ∈ calls (fileRuntime h) filter false policy nodes fs, c.outcome = .applied)
    (hv : v.Sees fs) :
    (compareChecks filter policy (start.probe h) nodes v = .same →
        VerdictsStand (fileRuntime h) filter policy start nodes fs) ∧
      (compareChecks filter policy (start.probe h) nodes v = .different →
        ¬ VerdictsStand (fileRuntime h) filter policy start nodes fs) := by
  induction nodes generalizing fs v with
  | nil => simp [compareChecks, VerdictsStand]
  | cons node rest ih =>
    rw [calls_cons] at hok
    rw [compareChecks, VerdictsStand]
    by_cases hopen : policy ≠ .force ∧ filteredOut filter node.op = false ∧
        v.settles node.op = false
    · rw [if_pos hopen]
      simp
    have hsure := fun hboth => hopen ⟨hpolicy, hboth⟩
    have hnode := fun c hc => hok c (mem_append_left _ hc)
    have hreal := executeOne_succeeding (h := h) 0 hnode
    have hverdict : (disposition filter policy v.probe node).verdict =
        (disposition filter policy (fs.probe h) node).verdict := verdict_eq_of_sees hv hsure
    rw [if_neg hopen]
    dsimp only
    by_cases heq : (disposition filter policy v.probe node).verdict =
        (disposition filter policy (start.probe h) node).verdict
    · rw [if_neg (not_not.mpr heq)]
      have hstand : (disposition filter policy ((fileRuntime h).probe start) node).verdict =
          (disposition filter policy ((fileRuntime h).probe fs) node).verdict :=
        heq.symm.trans hverdict
      have hhalts :
          halts policy (executeOne (fileRuntime h) filter 0 node false policy fs).1.outcomeKind =
            (disposition filter policy v.probe node).verdict.any (halts policy) := by
        rw [hreal, hverdict]
        show halts policy ((disposition filter policy (fs.probe h) node).verdict.getD .applied) = _
        cases (disposition filter policy (fs.probe h) node).verdict with
        | none => simp [halts]
        | some kind => rfl
      rw [hhalts]
      cases hstop : (disposition filter policy v.probe node).verdict.any (halts policy) with
      | true => simp [hstand]
      | false =>
        have hnext := sees_executeOne hhelper hpolicy (hfiles node mem_cons_self) hv hsure hnode
        have hrest := ih (fun n hn => hfiles n (mem_cons_of_mem _ hn))
          (fun c hc => hok c (mem_append_right _ (by rw [hhalts, hstop]; exact hc))) hnext
        simpa [hstand] using hrest
    · rw [if_pos heq]
      refine ⟨by simp, fun _ hstand => heq ?_⟩
      rw [hverdict]
      exact hstand.1.symm

/-- Under `Force` the reports always agree. -/
theorem compareChecks_force (filter : PathsFilter) (start : StateProbe) (nodes : List PlanNode)
    (v : NameView) : compareChecks filter .force start nodes v = .same := by
  induction nodes generalizing v with
  | nil => rfl
  | cons node rest ih =>
    have hgo : (disposition filter .force start node).verdict.any (halts .force) = false := by
      cases (disposition filter .force start node).verdict <;> simp [halts]
    rw [compareChecks, if_neg (by simp)]
    dsimp only
    rw [verdict_force filter v.probe start node, if_neg (not_not.mpr rfl), hgo]
    exact ih _

theorem verdictsStand_force {start : Fs} :
    VerdictsStand (fileRuntime h) filter .force start nodes fs := by
  induction nodes generalizing fs with
  | nil => trivial
  | cons node rest ih => exact ⟨verdict_force filter _ _ node, fun _ => ih⟩

end Checks

/-- **Whether a dry run is right can be told beforehand**, for a plan of file ops whose executor
calls all succeed: following the names through the plan, it is right if every check comes out as
in the starting tree, and wrong if one comes out otherwise. -/
theorem compareChecks_decides (hhelper : h.HelperCalls)
    (hfiles : ∀ node ∈ plan.nodes, node.op.tier = .files)
    (hok : ∀ c ∈ calls (fileRuntime h) filter false policy plan.nodes fs, c.outcome = .applied) :
    (compareChecks filter policy (fs.probe h) plan.nodes fs.names = .same →
        DryRunFaithful h filter plan policy fs) ∧
      (compareChecks filter policy (fs.probe h) plan.nodes fs.names = .different →
        ¬ DryRunFaithful h filter plan policy fs) := by
  rw [dryRunFaithful_iff hfiles hok]
  by_cases hpolicy : policy = .force
  · subst hpolicy
    rw [compareChecks_force]
    exact ⟨fun _ => verdictsStand_force, nofun⟩
  · exact compareChecks_verdicts hhelper hpolicy hfiles hok (sees_names fs)

/-- Two files are put back that the command had moved and created, independently of each other. -/
theorem dryRunFaithful_independent :
    let plan : UndoPlan :=
      { command := plainCommand, warnings := []
        nodes := [.fresh (.unlink (PathBuf.ofString "/new")) none,
          .fresh (.rename (PathBuf.ofString "/b") (PathBuf.ofString "/a")) none] }
    let fs := Fs.ofList [("/b", .file [1]), ("/new", .file [2])]
    DryRunFaithful .sample none plan .abort fs :=
  (compareChecks_decides Host.sample_helperCalls (by decide) (by decide)).1 (by decide)

/-- A file put back into a directory that the plan unlinks first: its check comes out the same. -/
example : compareChecks none .skip ((Fs.ofList [("/d", .dir), ("/d/x", .file [1])]).probe .sample)
    [.fresh (.unlink (PathBuf.ofString "/d")) none,
      .fresh (.restoreContent ⟨1, 7⟩ (PathBuf.ofString "/d/x") ⟨0⟩) none,
      .fresh (.restoreMetadata ⟨1, 7⟩ (PathBuf.ofString "/d/x") (plainMeta 1)) none]
    (Fs.ofList [("/d", .dir), ("/d/x", .file [1])]).names = .same := by
  decide

/-- Undo of `mv /a /b; mv /b /c`: both renames are applied, but the dry run finds no `/b` for the
second one. -/
theorem chained_renames_misreported :
    let plan : UndoPlan :=
      { command := plainCommand, warnings := []
        nodes := [.fresh (.rename (PathBuf.ofString "/c") (PathBuf.ofString "/b")) none,
          .fresh (.rename (PathBuf.ofString "/b") (PathBuf.ofString "/a")) none] }
    let fs := Fs.ofList [("/c", .file [1])]
    (∀ node ∈ plan.nodes, node.op.tier = .files) ∧
      (∀ c ∈ calls (fileRuntime .sample) none false .abort plan.nodes fs, c.outcome = .applied) ∧
      ¬ DryRunFaithful .sample none plan .abort fs := by
  refine ⟨by decide, by decide, fun hfaithful => ?_⟩
  exact absurd hfaithful.2 (by decide)

end ShitUndo
