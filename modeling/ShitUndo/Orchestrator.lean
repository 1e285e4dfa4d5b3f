import ShitUndo.Plan

/-!
# The orchestrator

`Orchestrator::run` (`orchestrator.rs`) walks a plan node by node. For each node it decides
whether to hand the op to the executor (`disposition`), records the outcome, and under policy
`Abort` stops after a failure or a blocking conflict.

The world the executor acts on is a type parameter `σ`: a `Runtime` says how a state is probed
and what executing an op does to it. `Runtime.logged` runs any runtime with a log of its
executor calls, so that "the op is dispatched" can be said about a whole run.
-/

namespace ShitUndo

open List Conflict

/-! ## Outcomes -/

inductive ConflictPolicy where
  | abort | skip | force
deriving DecidableEq, Repr

inductive ExecutionOutcome where
  | applied
  | wouldApply
  | skipped (reason : String)
  | conflict (kind : Conflict)
  | failed (err : String)
deriving DecidableEq, Repr

inductive OutcomeKind where
  | applied | wouldApply | skipped | conflictSoft | conflictHard | conflictMissing
  | conflictPhantom | failed
deriving DecidableEq, Repr

def OutcomeKind.fromOutcome : ExecutionOutcome → OutcomeKind
  | .applied => applied
  | .wouldApply => wouldApply
  | .skipped _ => skipped
  | .conflict (.soft _) => conflictSoft
  | .conflict (.hard _) => conflictHard
  | .conflict (.missing _) => conflictMissing
  | .conflict (.phantom _) => conflictPhantom
  | .failed _ => failed

/-- The op was applied. -/
def OutcomeKind.IsApplied (kind : OutcomeKind) : Prop := kind = applied

theorem OutcomeKind.isApplied : OutcomeKind.IsApplied applied := rfl

/-- The op was applied, or there was nothing to apply it to. -/
def OutcomeKind.IsSettled (kind : OutcomeKind) : Prop := kind = applied ∨ kind = conflictMissing

theorem OutcomeKind.isSettled_applied : OutcomeKind.IsSettled applied := .inl rfl

structure ExecutionRecord where
  opIndex : Nat
  op : InverseOp
  tier : InverseTier
  outcomeKind : OutcomeKind
  detail : Option String
deriving DecidableEq, Repr

structure PlanSummary where
  commandId : CommandId
  cmdString : Option String
  nodeCount : Nat
deriving DecidableEq, Repr

structure ExecutionReport where
  planSummary : PlanSummary
  records : List ExecutionRecord
  dryRun : Bool
  policy : ConflictPolicy
deriving DecidableEq, Repr

/-! ## Debug renderings used in details -/

/-- One character under `char::escape_debug` inside a double-quoted string. -/
def escapeDebugChar (c : Char) : String :=
  if c = '\"' then "\\\""
  else if c = '\\' then "\\\\"
  else if c = '\n' then "\\n"
  else if c = '\r' then "\\r"
  else if c = '\t' then "\\t"
  else if c = Char.ofNat 0 then "\\0"
  else if c.toNat < 0x20 || c.toNat = 0x7F then
    "\\u\x7b" ++ String.ofList (Nat.toDigits 16 c.toNat) ++ "\x7d"
  else String.singleton c

/-- `impl Debug for str`. -/
def debugText (s : String) : String :=
  "\"" ++ String.join (s.toList.map escapeDebugChar) ++ "\""

/-- `impl Debug for Path`. -/
def PathBuf.debug (p : PathBuf) : String :=
  debugText p.display

/-- The derived `Debug` of `InodeRef`. -/
def InodeRef.debug (i : InodeRef) : String :=
  "InodeRef \x7b dev: " ++ toString i.dev ++ ", inode: " ++ toString i.inode ++ " \x7d"

/-- The derived `Debug` of `Conflict`. -/
def Conflict.debug : Conflict → String
  | soft detail => "Soft \x7b detail: " ++ debugText detail ++ " \x7d"
  | hard detail => "Hard \x7b detail: " ++ debugText detail ++ " \x7d"
  | missing detail => "Missing \x7b detail: " ++ debugText detail ++ " \x7d"
  | phantom detail => "Phantom \x7b detail: " ++ debugText detail ++ " \x7d"

/-- `impl Debug for InverseTier`. -/
def InverseTier.debug : InverseTier → String
  | files => "Files"
  | env => "Env"
  | packages => "Packages"
  | network => "Network"
  | services => "Services"
  | processes => "Processes"
  | descriptor => "Descriptor"
  | cloud => "Cloud"
  | container => "Container"
  | shellState => "ShellState"
  | database => "Database"
  | refuse => "Refuse"

/-! ## Deciding about one node -/

/-- `precondition_conflict`: what the orchestrator itself checks right before an op. -/
def preconditionConflict (probe : StateProbe) : InverseOp → Option Conflict
  | .restoreContent _ _ _ => none
  | .restoreMetadata _ path _ | .unlink path | .fileExtend path _ =>
    if probe.pathExists path then none
    else some (.missing (path.debug ++ " no longer exists"))
  | .restoreFlags inode path _ =>
    match probe.stat path with
    | none => some (.missing (path.debug ++ " no longer exists"))
    | some stat =>
      if stat.inode ≠ inode then
        some (.phantom (path.debug ++ " now refers to inode " ++ stat.inode.debug
          ++ ", expected " ++ inode.debug))
      else none
  | .recreatePath path kind _ =>
    match probe.stat path with
    | none => none
    | some stat =>
      -- a directory is recreated over an existing directory without complaint
      if kind = .directory ∧ FileKind.fromMode stat.fileMeta.mode = some .directory then none
      else some (.phantom (path.debug ++ " already exists; cannot recreate"))
  | .createSymlink _ path =>
    if probe.pathExists path then
      some (.phantom (path.debug ++ " already exists; cannot recreate"))
    else none
  | .createHardlink source target =>
    if !probe.pathExists source then
      some (.missing ("hardlink source " ++ source.debug ++ " no longer exists; cannot link "
        ++ target.debug))
    else if probe.pathExists target then
      some (.phantom (target.debug ++ " already exists; cannot link"))
    else none
  | .rename src dst =>
    if !probe.pathExists src then
      some (.missing ("rename source " ++ src.debug ++ " does not exist"))
    else if probe.pathExists dst then
      some (.phantom ("rename target " ++ dst.debug ++ " already exists"))
    else none
  | _ => none

/-- A `--paths` filter: `GlobSet::is_match`, if a filter was given. -/
abbrev PathsFilter := Option (PathBuf → Bool)

/-- `filtered_out`: a path op whose primary path the filter does not match. -/
def filteredOut (filter : PathsFilter) (op : InverseOp) : Bool :=
  match filter, op.primaryPath with
  | some isMatch, some p => !isMatch p
  | _, _ => false

/-- What `execute_one` decides about a node: settle it without the executor, or dispatch it. -/
inductive Disposition where
  | settled (kind : OutcomeKind) (detail : String)
  | dispatch
deriving DecidableEq, Repr

/-- The conflict `execute_one` acts on: a plan-time `Hard`, else its own precondition check. Any
other plan-time conflict is dropped here. -/
def effectiveConflict (probe : StateProbe) (node : PlanNode) : Option Conflict :=
  match node.conflict with
  | some (.hard detail) => some (.hard detail)
  | _ => preconditionConflict probe node.op

/-- `execute_one` up to the call of the executor. -/
def disposition (filter : PathsFilter) (policy : ConflictPolicy) (probe : StateProbe)
    (node : PlanNode) : Disposition :=
  if filteredOut filter node.op then
    .settled .skipped ("filtered out: "
      ++ ((node.op.primaryPath.map PathBuf.display).getD "<no-path>")
      ++ " not matched by --paths")
  else match node.op with
    | .refuse cls reason (some rem) =>
      .settled .skipped ("refused (" ++ cls ++ "): " ++ reason ++ ". Remediation: " ++ rem)
    | .refuse cls reason none => .settled .skipped ("refused (" ++ cls ++ "): " ++ reason)
    | _ =>
      match effectiveConflict probe node, policy with
      | none, _ => .dispatch
      | some _, .force => .dispatch
      | some c, .skip => .settled .skipped ("conflict: " ++ c.debug)
      | some c, .abort => .settled (OutcomeKind.fromOutcome (.conflict c)) c.debug

/-! ## Running a plan -/

/-- A world that can be probed and on which inverse ops can be executed. -/
structure Runtime (σ : Type) where
  probe : σ → StateProbe
  execute : InverseOp → Bool → ConflictPolicy → σ → ExecutionOutcome × σ

/-- The `detail` field of a record, from an executor's outcome. -/
def outcomeDetail : ExecutionOutcome → Option String
  | .skipped reason => some reason
  | .conflict kind => some kind.debug
  | .failed err => some err
  | _ => none

/-- The record of a node. -/
def recordOf (opIndex : Nat) (op : InverseOp) (kind : OutcomeKind) (detail : Option String) :
    ExecutionRecord :=
  { opIndex := opIndex, op := op, tier := op.tier, outcomeKind := kind, detail := detail }

variable {σ : Type} {node : PlanNode} {rt : Runtime σ}

def executeOne (rt : Runtime σ) (filter : PathsFilter) (opIndex : Nat) (node : PlanNode)
    (dryRun : Bool) (policy : ConflictPolicy) (s : σ) : ExecutionRecord × σ :=
  match disposition filter policy (rt.probe s) node with
  | .settled kind detail => (recordOf opIndex node.op kind (some detail), s)
  | .dispatch =>
    let r := rt.execute node.op dryRun policy s
    (recordOf opIndex node.op (OutcomeKind.fromOutcome r.1) (outcomeDetail r.1), r.2)

/-- Under `Abort`, a failure or a blocking conflict halts the rest of the plan. -/
def halts (policy : ConflictPolicy) (kind : OutcomeKind) : Bool :=
  decide (policy = .abort ∧ (kind = .failed ∨ kind = .conflictHard ∨ kind = .conflictPhantom))

/-- The loop of `run`, from position `opIndex` on. -/
def runFrom (rt : Runtime σ) (filter : PathsFilter) (dryRun : Bool) (policy : ConflictPolicy) :
    Nat → List PlanNode → σ → List ExecutionRecord × σ
  | _, [], s => ([], s)
  | opIndex, node :: rest, s =>
    let r := executeOne rt filter opIndex node dryRun policy s
    if halts policy r.1.outcomeKind then ([r.1], r.2)
    else
      let t := runFrom rt filter dryRun policy (opIndex + 1) rest r.2
      (r.1 :: t.1, t.2)

/-- `Orchestrator::run`: the report, and the world afterwards. -/
def run (rt : Runtime σ) (filter : PathsFilter) (plan : UndoPlan) (dryRun : Bool)
    (policy : ConflictPolicy) (s : σ) : ExecutionReport × σ :=
  let r := runFrom rt filter dryRun policy 0 plan.nodes s
  ({ planSummary :=
      { commandId := plan.command.command
        cmdString := plan.command.cmdString
        nodeCount := plan.nodes.length }
     records := r.1
     dryRun := dryRun
     policy := policy }, r.2)

/-! ## Executor calls of a run -/

/-- One call of the executor: the op, and the world before and after it. -/
structure Call (σ : Type) where
  op : InverseOp
  before : σ
  outcome : ExecutionOutcome
  after : σ

/-- The same runtime, keeping a log of its executor calls. -/
def Runtime.logged (rt : Runtime σ) : Runtime (σ × List (Call σ)) where
  probe := fun s => rt.probe s.1
  execute := fun op dryRun policy s =>
    let r := rt.execute op dryRun policy s.1
    (r.1, (r.2, s.2 ++ [⟨op, s.1, r.1, r.2⟩]))

/-- The executor calls made while running `nodes`. -/
def calls (rt : Runtime σ) (filter : PathsFilter) (dryRun : Bool) (policy : ConflictPolicy)
    (nodes : List PlanNode) (s : σ) : List (Call σ) :=
  (runFrom rt.logged filter dryRun policy 0 nodes (s, [])).2.2

/-- The plan's run hands `op` to the executor at some point. -/
def Dispatches (rt : Runtime σ) (filter : PathsFilter) (plan : UndoPlan) (dryRun : Bool)
    (policy : ConflictPolicy) (s : σ) (op : InverseOp) : Prop :=
  ∃ c ∈ calls rt filter dryRun policy plan.nodes s, c.op = op

/-! ## Step lemmas -/

section Step

variable {filter : PathsFilter} {dryRun : Bool} {policy : ConflictPolicy} {nodes : List PlanNode}
  {i : Nat} {s : σ} {kind : OutcomeKind} {P : σ → Prop}

theorem executeOne_of_dispatch (h : disposition filter policy (rt.probe s) node = .dispatch) :
    executeOne rt filter i node dryRun policy s =
      (recordOf i node.op (OutcomeKind.fromOutcome (rt.execute node.op dryRun policy s).1)
        (outcomeDetail (rt.execute node.op dryRun policy s).1),
        (rt.execute node.op dryRun policy s).2) := by
  simp [executeOne, h]

theorem executeOne_of_settled {detail : String}
    (h : disposition filter policy (rt.probe s) node = .settled kind detail) :
    executeOne rt filter i node dryRun policy s = (recordOf i node.op kind (some detail), s) := by
  simp [executeOne, h]

theorem executeOne_index (rt : Runtime σ) (filter : PathsFilter) (dryRun : Bool)
    (policy : ConflictPolicy) (node : PlanNode) (s : σ) (i j : Nat) :
    (executeOne rt filter i node dryRun policy s).1.outcomeKind =
        (executeOne rt filter j node dryRun policy s).1.outcomeKind ∧
      (executeOne rt filter i node dryRun policy s).2 =
        (executeOne rt filter j node dryRun policy s).2 := by
  cases h : disposition filter policy (rt.probe s) node with
  | settled kind detail => simp [executeOne_of_settled h, recordOf]
  | dispatch => simp [executeOne_of_dispatch h, recordOf]

theorem precondition_of_dispatch {live : StateProbe} (hpolicy : policy ≠ .force)
    (hd : disposition filter policy live node = .dispatch) :
    preconditionConflict live node.op = none := by
  unfold disposition at hd
  split_ifs at hd
  split at hd
  · cases hd
  · cases hd
  have heff : effectiveConflict live node = none := by
    cases hc : effectiveConflict live node with
    | none => rfl
    | some c =>
      rw [hc] at hd
      cases policy with
      | abort => cases hd
      | skip => cases hd
      | force => exact absurd rfl hpolicy
  unfold effectiveConflict at heff
  split at heff
  · cases heff
  · exact heff

/-- The executor calls made for one node. -/
def nodeCalls (rt : Runtime σ) (filter : PathsFilter) (dryRun : Bool) (policy : ConflictPolicy)
    (node : PlanNode) (s : σ) : List (Call σ) :=
  match disposition filter policy (rt.probe s) node with
  | .settled _ _ => []
  | .dispatch =>
    let r := rt.execute node.op dryRun policy s
    [⟨node.op, s, r.1, r.2⟩]

theorem executeOne_logged (log : List (Call σ)) :
    executeOne rt.logged filter i node dryRun policy (s, log) =
      ((executeOne rt filter i node dryRun policy s).1,
        ((executeOne rt filter i node dryRun policy s).2,
          log ++ nodeCalls rt filter dryRun policy node s)) := by
  cases h : disposition filter policy (rt.probe s) node with
  | settled kind detail =>
    have hl : disposition filter policy (rt.logged.probe (s, log)) node = .settled kind detail := h
    simp [executeOne_of_settled h, executeOne_of_settled hl, nodeCalls, h]
  | dispatch =>
    have hl : disposition filter policy (rt.logged.probe (s, log)) node = .dispatch := h
    rw [executeOne_of_dispatch hl, executeOne_of_dispatch h]
    simp [nodeCalls, h, Runtime.logged]

theorem runFrom_logged (log : List (Call σ)) :
    runFrom rt.logged filter dryRun policy i nodes (s, log) =
      ((runFrom rt filter dryRun policy i nodes s).1,
        ((runFrom rt filter dryRun policy i nodes s).2,
          log ++ calls rt filter dryRun policy nodes s)) := by
  suffices h : ∀ j (log' : List (Call σ)),
      (runFrom rt.logged filter dryRun policy i nodes (s, log)).1 =
          (runFrom rt filter dryRun policy i nodes s).1 ∧
        (runFrom rt.logged filter dryRun policy i nodes (s, log)).2.1 =
          (runFrom rt filter dryRun policy i nodes s).2 ∧
        ∃ l, (runFrom rt.logged filter dryRun policy i nodes (s, log)).2.2 = log ++ l ∧
          (runFrom rt.logged filter dryRun policy j nodes (s, log')).2.2 = log' ++ l by
    obtain ⟨h1, h2, l, hl, hl0⟩ := h 0 []
    rw [nil_append] at hl0
    refine Prod.ext h1 (Prod.ext h2 ?_)
    rw [hl, calls, hl0]
  induction nodes generalizing i s log with
  | nil => intro j log'; exact ⟨rfl, rfl, [], by simp [runFrom], by simp [runFrom]⟩
  | cons node rest ih =>
    intro j log'
    obtain ⟨hk, hs⟩ := executeOne_index rt filter dryRun policy node s i j
    simp only [runFrom, executeOne_logged, ← hk, ← hs]
    split
    · exact ⟨rfl, rfl, _, rfl, rfl⟩
    · obtain ⟨h1, h2, l, hl, hl'⟩ := ih (log ++ nodeCalls rt filter dryRun policy node s) (j + 1)
        (log' ++ nodeCalls rt filter dryRun policy node s)
      exact ⟨by rw [h1], h2, nodeCalls rt filter dryRun policy node s ++ l,
        by rw [hl, append_assoc], by rw [hl', append_assoc]⟩

@[simp] theorem calls_nil : calls rt filter dryRun policy [] s = [] := rfl

theorem calls_cons (rest : List PlanNode) :
    calls rt filter dryRun policy (node :: rest) s = nodeCalls rt filter dryRun policy node s ++
        if halts policy (executeOne rt filter 0 node dryRun policy s).1.outcomeKind then []
        else
          calls rt filter dryRun policy rest (executeOne rt filter 0 node dryRun policy s).2 := by
  rw [calls, runFrom, executeOne_logged]
  simp only [nil_append]
  split
  · simp
  · rw [runFrom_logged]

theorem mem_nodeCalls {c : Call σ} (h : c ∈ nodeCalls rt filter dryRun policy node s) :
    disposition filter policy (rt.probe s) node = .dispatch ∧ c.op = node.op ∧ c.before = s ∧
      (c.outcome, c.after) = rt.execute node.op dryRun policy s := by
  unfold nodeCalls at h
  split at h
  · cases h
  · rw [mem_singleton] at h
    subst h
    exact ⟨‹_›, rfl, rfl, rfl⟩

/-- Every logged call is the call of a dispatched node, in the state in which it was logged. -/
theorem mem_calls {c : Call σ} (h : c ∈ calls rt filter dryRun policy nodes s) :
    ∃ node ∈ nodes, disposition filter policy (rt.probe c.before) node = .dispatch ∧
      c.op = node.op ∧ (c.outcome, c.after) = rt.execute node.op dryRun policy c.before := by
  induction nodes generalizing s with
  | nil => cases h
  | cons node rest ih =>
    rw [calls_cons, mem_append] at h
    rcases h with h | h
    · obtain ⟨hd, hop, hbefore, hres⟩ := mem_nodeCalls h
      subst hbefore
      exact ⟨node, mem_cons_self, hd, hop, hres⟩
    · split at h
      · cases h
      · obtain ⟨n, hn, rest⟩ := ih h
        exact ⟨n, mem_cons_of_mem _ hn, rest⟩

/-- Each call starts in the state the one before it left behind. -/
def Chained : σ → List (Call σ) → Prop
  | _, [] => True
  | s, c :: cs => c.before = s ∧ Chained c.after cs

theorem calls_chained (rt : Runtime σ) (filter : PathsFilter) (dryRun : Bool)
    (policy : ConflictPolicy) (nodes : List PlanNode) (s : σ) :
    Chained s (calls rt filter dryRun policy nodes s) := by
  induction nodes generalizing s with
  | nil => trivial
  | cons node rest ih =>
    rw [calls_cons]
    cases h : disposition filter policy (rt.probe s) node with
    | settled kind detail =>
      rw [nodeCalls, h, executeOne_of_settled h]
      split_ifs
      · trivial
      · exact ih s
    | dispatch =>
      rw [nodeCalls, h, executeOne_of_dispatch h]
      refine ⟨rfl, ?_⟩
      split_ifs
      · trivial
      · exact ih _

theorem not_halts_of_ne_abort (h : policy ≠ .abort) : halts policy kind = false := by
  simp [halts, h]

/-- Nothing halts a run outside `Abort`: a node that is dispatched in every state is called. -/
theorem exists_call_of_mem (rt : Runtime σ) (dryRun : Bool) (s : σ) (hp : policy ≠ .abort)
    (hmem : node ∈ nodes) (hd : ∀ s, disposition filter policy (rt.probe s) node = .dispatch) :
    ∃ c ∈ calls rt filter dryRun policy nodes s, c.op = node.op := by
  induction nodes generalizing s with
  | nil => cases hmem
  | cons n rest ih =>
    rw [calls_cons, not_halts_of_ne_abort hp]
    rcases mem_cons.mp hmem with rfl | hmem
    · exact ⟨_, mem_append_left _ (by rw [nodeCalls, hd s]; exact mem_singleton_self _), rfl⟩
    · obtain ⟨c, hc, hop⟩ := ih (executeOne rt filter 0 n dryRun policy s).2 hmem
      exact ⟨c, mem_append_right _ hc, hop⟩

theorem executeOne_state (hs : P s) (hexec : P (rt.execute node.op dryRun policy s).2) :
    P (executeOne rt filter i node dryRun policy s).2 := by
  cases h : disposition filter policy (rt.probe s) node with
  | settled kind detail =>
    rw [executeOne_of_settled h]
    exact hs
  | dispatch =>
    rw [executeOne_of_dispatch h]
    exact hexec

theorem runFrom_invariant
    (hstep : ∀ node ∈ nodes, ∀ s, P s → P (rt.execute node.op dryRun policy s).2) (hs : P s) :
    P (runFrom rt filter dryRun policy i nodes s).2 := by
  induction nodes generalizing i s with
  | nil => exact hs
  | cons node rest ih =>
    have hone : P (executeOne rt filter i node dryRun policy s).2 :=
      executeOne_state hs (hstep node mem_cons_self s hs)
    rw [runFrom]
    dsimp only
    split
    · exact hone
    · exact ih (fun n hn => hstep n (mem_cons_of_mem _ hn)) hone

theorem runFrom_relates {R : σ → σ → Prop} (hrefl : ∀ s, R s s)
    (htrans : ∀ a b c, R a b → R b c → R a c)
    (hcalls : ∀ c ∈ calls rt filter dryRun policy nodes s, R c.before c.after) :
    R s (runFrom rt filter dryRun policy i nodes s).2 := by
  induction nodes generalizing i s with
  | nil => exact hrefl s
  | cons node rest ih =>
    rw [calls_cons] at hcalls
    have hone : R s (executeOne rt filter i node dryRun policy s).2 := by
      cases h : disposition filter policy (rt.probe s) node with
      | settled kind detail =>
        rw [executeOne_of_settled h]
        exact hrefl s
      | dispatch =>
        rw [executeOne_of_dispatch h]
        refine hcalls ⟨node.op, s, (rt.execute node.op dryRun policy s).1, _⟩ (mem_append_left _ ?_)
        rw [nodeCalls, h]
        exact mem_singleton_self _
    obtain ⟨hkind, hstate⟩ := executeOne_index rt filter dryRun policy node s i 0
    rw [runFrom]
    dsimp only
    split_ifs with hhalts
    · exact hone
    refine htrans _ _ _ hone (ih ?_)
    intro c hc
    rw [hkind] at hhalts
    rw [if_neg hhalts] at hcalls
    exact hcalls c (mem_append_right _ (hstate ▸ hc))

/-- What one op of a plan establishes and every op keeps holds after a run that does not halt. -/
theorem runFrom_establishes {Q : σ → Prop} (hpolicy : policy ≠ .abort) (hmem : node ∈ nodes)
    (hdisp : ∀ s, disposition filter policy (rt.probe s) node = .dispatch)
    (hnode : ∀ s, P s → Q (rt.execute node.op dryRun policy s).2)
    (hP : ∀ node ∈ nodes, ∀ s, P s → P (rt.execute node.op dryRun policy s).2)
    (hQ : ∀ node ∈ nodes, ∀ s, Q s → Q (rt.execute node.op dryRun policy s).2) (hs : P s) :
    Q (runFrom rt filter dryRun policy i nodes s).2 := by
  induction nodes generalizing i s with
  | nil => cases hmem
  | cons n rest ih =>
    have hQrest : ∀ node ∈ rest, ∀ s, Q s → Q (rt.execute node.op dryRun policy s).2 :=
      fun n hn => hQ n (mem_cons_of_mem _ hn)
    rw [runFrom]
    simp only [not_halts_of_ne_abort hpolicy, Bool.false_eq_true, if_false]
    rcases mem_cons.mp hmem with rfl | hmem
    · refine runFrom_invariant hQrest ?_
      rw [executeOne_of_dispatch (hdisp s)]
      exact hnode s hs
    · refine ih hmem (fun n hn => hP n (mem_cons_of_mem _ hn)) hQrest ?_
      exact executeOne_state hs (hP n mem_cons_self s hs)

theorem disposition_restoreContent {live : StateProbe} {inode : InodeRef} {p : PathBuf}
    {blob : BlobHash} (hop : node.op = .restoreContent inode p blob)
    (hhard : node.hasHard = false) : disposition none policy live node = .dispatch := by
  have heff : effectiveConflict live node = none := by
    unfold effectiveConflict
    split
    · rename_i detail hc
      simp [PlanNode.hasHard, hc, isHard] at hhard
    · rw [hop]
      rfl
  simp [disposition, filteredOut, hop, heff]

theorem runFrom_congr {nodes' : List PlanNode}
    (h : nodes.map (fun n => (n.op, n.conflict)) = nodes'.map (fun n => (n.op, n.conflict))) :
    runFrom rt filter dryRun policy i nodes s = runFrom rt filter dryRun policy i nodes' s := by
  induction nodes generalizing nodes' i s with
  | nil =>
    cases nodes' with
    | nil => rfl
    | cons => cases h
  | cons node rest ih =>
    cases nodes' with
    | nil => cases h
    | cons node' rest' =>
      simp only [map_cons, cons.injEq, Prod.mk.injEq] at h
      obtain ⟨⟨hop, hc⟩, hrest⟩ := h
      have hone : executeOne rt filter i node dryRun policy s =
          executeOne rt filter i node' dryRun policy s := by
        simp only [executeOne, disposition, effectiveConflict, hop, hc]
      simp only [runFrom, hone, ih hrest]

theorem runFrom_assignCohorts :
    runFrom rt filter dryRun policy i (assignCohorts nodes) s =
      runFrom rt filter dryRun policy i nodes s :=
  runFrom_congr (assignCohorts_map_of_ignores (fun _ _ => rfl) nodes)

theorem calls_assignCohorts :
    calls rt filter dryRun policy (assignCohorts nodes) s =
      calls rt filter dryRun policy nodes s := by
  rw [calls, runFrom_assignCohorts, calls]

end Step

/-! ## Runs that are not cut short -/

section Through

variable {ok : OutcomeKind → Prop} {a b : List PlanNode} {s s₁ s' : σ}

/-- Under `Abort` the nodes run from `s` to `s'` without a halt, each with an outcome in `ok`. -/
inductive RunsThrough (rt : Runtime σ) (ok : OutcomeKind → Prop) : List PlanNode → σ → σ → Prop
  | nil (s : σ) : RunsThrough rt ok [] s s
  | cons {node : PlanNode} {rest : List PlanNode} {s s' : σ}
      (hok : ok (executeOne rt none 0 node false .abort s).1.outcomeKind)
      (hgo : halts .abort (executeOne rt none 0 node false .abort s).1.outcomeKind = false)
      (hrest : RunsThrough rt ok rest (executeOne rt none 0 node false .abort s).2 s') :
      RunsThrough rt ok (node :: rest) s s'

theorem RunsThrough.append (ha : RunsThrough rt ok a s s₁) (hb : RunsThrough rt ok b s₁ s') :
    RunsThrough rt ok (a ++ b) s s' := by
  induction ha with
  | nil s => exact hb
  | cons hok hgo _ ih => exact .cons hok hgo (ih hb)

theorem RunsThrough.runFrom_eq (hrun : RunsThrough rt ok a s s') (i : Nat) :
    (runFrom rt none false .abort i a s).2 = s' ∧
      ∀ rec ∈ (runFrom rt none false .abort i a s).1, ok rec.outcomeKind := by
  induction hrun generalizing i with
  | nil s => exact ⟨rfl, fun rec hrec => absurd hrec not_mem_nil⟩
  | cons hok hgo _ ih =>
    rename_i node rest s s' _
    obtain ⟨hkind, hstate⟩ := executeOne_index rt none false .abort node s i 0
    rw [← hkind] at hok hgo
    obtain ⟨hend, hrecs⟩ := ih (i + 1)
    rw [← hstate] at hend hrecs
    simp only [runFrom, hgo, Bool.false_eq_true, if_false]
    refine ⟨hend, fun rec hrec => ?_⟩
    rcases mem_cons.mp hrec with rfl | hrec
    · exact hok
    · exact hrecs rec hrec

theorem disposition_of_not_hard {live : StateProbe} (hhard : node.hasHard = false)
    (hrefuse : ∀ cls reason rem, node.op ≠ .refuse cls reason rem) :
    disposition none .abort live node = match preconditionConflict live node.op with
      | none => .dispatch
      | some c => .settled (OutcomeKind.fromOutcome (.conflict c)) c.debug := by
  have heff : effectiveConflict live node = preconditionConflict live node.op := by
    unfold effectiveConflict
    split
    · rename_i detail hc
      simp [PlanNode.hasHard, hc, isHard] at hhard
    · rfl
  unfold disposition
  simp only [filteredOut, Bool.false_eq_true, if_false, heff]
  split
  · rename_i hop
    exact absurd hop (hrefuse _ _ _)
  · rename_i hop
    exact absurd hop (hrefuse _ _ _)
  · cases preconditionConflict live node.op <;> rfl

theorem RunsThrough.applied (hhard : node.hasHard = false)
    (hrefuse : ∀ cls reason rem, node.op ≠ .refuse cls reason rem)
    (hpre : preconditionConflict (rt.probe s) node.op = none)
    (hexec : rt.execute node.op false .abort s = (.applied, s')) (hok : ok .applied) :
    RunsThrough rt ok [node] s s' := by
  have hdisp : disposition none .abort (rt.probe s) node = .dispatch := by
    rw [disposition_of_not_hard hhard hrefuse, hpre]
  have hone : executeOne rt none 0 node false .abort s = _ := executeOne_of_dispatch hdisp
  rw [hexec] at hone
  have hs' : (executeOne rt none 0 node false .abort s).2 = s' := by rw [hone]
  refine .cons (by rw [hone]; exact hok) (by rw [hone]; rfl) ?_
  rw [hs']
  exact .nil s'

theorem RunsThrough.missing {detail : String} (hhard : node.hasHard = false)
    (hrefuse : ∀ cls reason rem, node.op ≠ .refuse cls reason rem)
    (hpre : preconditionConflict (rt.probe s) node.op = some (.missing detail))
    (hok : ok .conflictMissing) : RunsThrough rt ok [node] s s := by
  have hdisp : disposition none .abort (rt.probe s) node =
      .settled .conflictMissing (Conflict.missing detail).debug := by
    rw [disposition_of_not_hard hhard hrefuse, hpre]
    rfl
  have hone : executeOne rt none 0 node false .abort s = _ := executeOne_of_settled hdisp
  have hs' : (executeOne rt none 0 node false .abort s).2 = s := by rw [hone]
  refine .cons (by rw [hone]; exact hok) (by rw [hone]; rfl) ?_
  rw [hs']
  exact .nil s

end Through

end ShitUndo
