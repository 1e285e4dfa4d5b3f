import ShitUndo.Orchestrator

/-!
# The network executor

`NetworkExecutor` (`executors/network.rs`) undoes a network operation. Tools that can load a dump
are given the state from before the command; for the others the inverse invocations of the node
are replayed one after the other, up to the first that fails.

The machine is a type parameter `σ`: a `NetRunner` says what an invocation does to it.
`undoNetworkOp` goes from a journaled operation to the machine after its undo.
-/

namespace ShitUndo

structure NetRunner (σ : Type) where
  run : List String → σ → Except String σ
  stashBytes : Bytes → σ → Except String (PathBuf × σ)

def fullReloadArgv (tool : NetworkTool) (dumpPath : PathBuf) : List String :=
  match tool with
  | .iptables => ["iptables-restore", dumpPath.display]
  | .ip6tables => ["ip6tables-restore", dumpPath.display]
  | .nft => ["nft", "-f", dumpPath.display]
  | .pfctl => ["/sbin/pfctl", "-f", dumpPath.display]
  | .ufw | .ipRoute | .ipAddr | .ipLink | .route | .ifconfig | .networksetup =>
    ["false", "wrong-restore-path"]

section Execute

variable {σ : Type} (runner : NetRunner σ)

def fullReload (tool : NetworkTool) (beforeState : Bytes) (dryRun : Bool) (s : σ) :
    ExecutionOutcome × σ :=
  if beforeState = [] then (.skipped "no captured before_state to restore from", s)
  else if dryRun then (.wouldApply, s)
  else
    match runner.stashBytes beforeState s with
    | .error e => (.failed e, s)
    | .ok (path, s) =>
      match runner.run (fullReloadArgv tool path) s with
      | .ok s => (.applied, s)
      | .error e => (.failed e, s)

/-- The loop of `diff_apply`. -/
def replay : List (List String) → σ → ExecutionOutcome × σ
  | [], s => (.applied, s)
  | argv :: rest, s =>
    match runner.run argv s with
    | .ok s => replay rest s
    | .error e => (.failed (argv.head?.getD "?" ++ ": " ++ e), s)

def diffApply (inverseInvocations : List (List String)) (dryRun : Bool) (s : σ) :
    ExecutionOutcome × σ :=
  if inverseInvocations = [] then (.skipped "no inverse invocations to replay", s)
  else if dryRun then (.wouldApply, s)
  else replay runner inverseInvocations s

/-- `NetworkExecutor::execute`. -/
def executeNetwork (op : InverseOp) (dryRun : Bool) (_policy : ConflictPolicy) (s : σ) :
    ExecutionOutcome × σ :=
  match op with
  | .networkRollback tool beforeState inverseInvocations =>
    match restoreMethod tool with
    | .fullReload => fullReload runner tool beforeState dryRun s
    | .diffApply => diffApply runner inverseInvocations dryRun s
    | .diffApplyWithReset => diffApply runner inverseInvocations dryRun s
  | _ => (.skipped "network executor reached non-network op", s)

/-- The machine after the undo of an operation that was journaled with the states before and after
it. The capture path leaves the inverse invocations to the planner. -/
def undoNetworkOp (r : Renderers) (tool : NetworkTool) (beforeState afterState : Bytes) (s : σ) :
    σ :=
  (emitForNetworkOp r tool beforeState afterState []).nodes.foldl
    (fun s node => (executeNetwork runner node.op false .abort s).2) s

/-- What the machine makes of an invocation, unless it refuses it. -/
def NetRunner.accepts (argv : List String) (s : σ) : Option σ := (runner.run argv s).toOption

/-- A replay that is applied has got through all invocations. -/
theorem replay_applied_iff {P : σ → Prop} (invs : List (List String)) (s : σ) :
    ((replay runner invs s).1 = .applied ∧ P (replay runner invs s).2) ↔
      ∃ t, invs.foldlM (fun s argv => runner.accepts argv s) s = some t ∧ P t := by
  induction invs generalizing s with
  | nil => simp [replay]
  | cons argv rest ih =>
    rw [replay, List.foldlM_cons, NetRunner.accepts]
    cases runner.run argv s with
    | ok s' => exact ih s'
    | error e => simp [Except.toOption]

theorem diffApply_state (invs : List (List String)) (s : σ) :
    (diffApply runner invs false s).2 = (replay runner invs s).2 := by
  unfold diffApply
  by_cases hnone : invs = []
  · rw [if_pos hnone, hnone]
    rfl
  · rw [if_neg hnone]
    rfl

theorem undoNetworkOp_diffApply {tool : NetworkTool} (htool : restoreMethod tool = .diffApply)
    (r : Renderers) (beforeState afterState : Bytes) (s : σ) :
    undoNetworkOp runner r tool beforeState afterState s =
      (replay runner (r.synthesiseDiffApplyInverse tool beforeState afterState) s).2 := by
  simp only [undoNetworkOp, emitForNetworkOp, ne_eq, not_true_eq_false, if_false, htool,
    List.foldl_cons, List.foldl_nil, PlanNode.fresh_op, executeNetwork, diffApply_state]

theorem undoNetworkOp_ufw (r : Renderers) (beforeState afterState : Bytes) (s : σ) :
    undoNetworkOp runner r .ufw beforeState afterState s =
      (replay runner (r.synthesiseUfwInverse beforeState afterState) s).2 := by
  simp only [undoNetworkOp, emitForNetworkOp, ne_eq, not_true_eq_false, if_false, if_true,
    restoreMethod, List.foldl_cons, List.foldl_nil, PlanNode.fresh_op, executeNetwork,
    diffApply_state]

end Execute

/-! ## Tools that can be described -/

/-- A runner for one tool, whose invocations change the machine or are refused. Dumps are not
used. -/
def NetRunner.ofTool {σ : Type} (tool : List String → σ → Option σ) : NetRunner σ where
  run := fun argv s =>
    match tool argv s with
    | some s' => .ok s'
    | none => .error (argv.head?.getD "" ++ " exited Some(2)")
  stashBytes := fun _ _ => .error "no dumps"

theorem replay_ofTool {σ : Type} {tool : List String → σ → Option σ} {t : σ} :
    ∀ {invs : List (List String)} {s : σ}, invs.foldlM (fun s argv => tool argv s) s = some t →
        replay (NetRunner.ofTool tool) invs s = (.applied, t) := by
  intro invs
  induction invs with
  | nil =>
    intro s hrun
    cases hrun
    rfl
  | cons argv rest ih =>
    intro s hrun
    rw [List.foldlM_cons] at hrun
    obtain ⟨s', hhere, hrest⟩ := Option.bind_eq_some_iff.mp hrun
    have hok : (NetRunner.ofTool tool).run argv s = .ok s' := by
      simp only [NetRunner.ofTool, hhere]
    rw [replay, hok]
    exact ih hrest

end ShitUndo
