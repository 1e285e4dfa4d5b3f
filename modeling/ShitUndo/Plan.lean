import ShitUndo.Refuse
import ShitUndo.Cohort
import ShitUndo.Classify

/-!
# The planner

`plan` (`plan.rs`): from a command's events, the probed file system and the blob store to an
`UndoPlan`. Events are taken newest first; each one emits its inverse nodes on its own, looking
only at the probe and at the path classification.

`mem_planNodes` reduces a question about the nodes of a plan to the events that emit them.

The text renderers of shell snippets and the synthesis of network inverses are functions of
their own in the source (`shell_state_render.rs`, `network_diff.rs`); planning copies their
results into nodes, so they are a parameter (`Renderers`).
-/

namespace ShitUndo

open List Conflict

/-- Renderers whose output the planner stores in nodes. -/
structure Renderers where
  renderBash : Option PathBuf → List OptDiff → List AliasDiff → List AliasDiff → String
  renderZsh : Option PathBuf → List OptDiff → List AliasDiff → List AliasDiff → String
  renderFish : Option PathBuf → List OptDiff → List AliasDiff → List AliasDiff → String
  synthesiseDiffApplyInverse : NetworkTool → Bytes → Bytes → List (List String)
  synthesiseUfwInverse : Bytes → Bytes → List (List String)

/-- Renderers that render nothing. -/
def Renderers.silent : Renderers where
  renderBash := fun _ _ _ _ => ""
  renderZsh := fun _ _ _ _ => ""
  renderFish := fun _ _ _ _ => ""
  synthesiseDiffApplyInverse := fun _ _ _ => []
  synthesiseUfwInverse := fun _ _ => []

/-- What one event contributes to the plan. -/
structure Emitted where
  nodes : List PlanNode
  warnings : List PlanWarning
deriving DecidableEq, Repr

/-! ## Small tables -/

inductive RestoreMethod where
  | fullReload | diffApply | diffApplyWithReset
deriving DecidableEq, Repr

def restoreMethod : NetworkTool → RestoreMethod
  | .iptables | .ip6tables | .nft | .pfctl => .fullReload
  | .ufw => .diffApplyWithReset
  | .ipRoute | .ipAddr | .ipLink | .route | .ifconfig | .networksetup => .diffApply

/-- `impl Debug for NetworkTool`. -/
def NetworkTool.debug : NetworkTool → String
  | iptables => "Iptables"
  | ip6tables => "Ip6tables"
  | nft => "Nft"
  | ufw => "Ufw"
  | pfctl => "Pfctl"
  | ipRoute => "IpRoute"
  | ipAddr => "IpAddr"
  | ipLink => "IpLink"
  | route => "Route"
  | ifconfig => "Ifconfig"
  | networksetup => "Networksetup"

def engineLabel : DbEngine → String
  | .postgres => "psql"
  | .mysql => "mysql"
  | .sqlite3 => "sqlite3"

/-- `str::trim`. -/
def trimText (s : String) : String :=
  String.ofList ((s.toList.dropWhile isWhiteSpace).reverse.dropWhile isWhiteSpace).reverse

/-- `native_delegation_for`: only apt and dnf can roll a transaction back by its id. -/
def nativeDelegationFor (manager : PackageManager) (repoStateHint : Option String) :
    Option NativeDelegation :=
  match repoStateHint with
  | none => none
  | some hint =>
    let id := trimText hint
    if id = "" then none
    else match manager with
      | .apt => some
          { argv := ["apt", "history-rollback", id]
            privileged := true
            guardCommand := some ["apt", "history", "list"]
            guardMatch := some (id ++ ":") }
      | .dnf => some
          { argv := ["dnf", "history", "undo", "-y", id]
            privileged := true
            guardCommand := some ["dnf", "history", "list", "--reverse"]
            guardMatch := some (id ++ " ") }
      | .dpkg | .pacman | .brew | .pkg => none

/-! ## Emission -/

/-- Conflict of a `FilePreImage` from the state of its path alone. An atomically replaced path
may hold any inode; once gone it only needs a parent to be restored into. -/
def preImagePathConflict (inode : InodeRef) (path : PathBuf) (probe : StateProbe)
    (cls : EventClassification) : Option Conflict :=
  if path ∈ cls.atomicReplacePaths then
    if (probe.stat path).isSome then none
    else if probe.parentAlive path then none
    else some (.missing (path.display ++ " no longer exists"))
  else filePathConflict path inode probe

/-- Conflict of a content restore: path, then blob, then post hash; the first one found is kept. -/
def preImageConflict (inode : InodeRef) (path : PathBuf) (blob : BlobHash)
    (postContentHash : Option BlobHash) (probe : StateProbe) (store : PlannerStore)
    (cls : EventClassification) : Option Conflict :=
  match preImagePathConflict inode path probe cls with
  | some conflict => some conflict
  | none =>
    if (store.blobSizeHint blob).isNone then
      some (.missing ("blob " ++ blob.toHex ++ " no longer in store (GC'd or evicted)"))
    else
      match postContentHash, probe.contentHash path with
      | some expectedPost, some current =>
        if current ≠ expectedPost then
          some (.hard (path.display ++ " has been modified since the original command; "
            ++ "restore would overwrite the later edits"))
        else none
      | _, _ => none

def emitForTreeOp (op : TreeOp) (probe : StateProbe) (cls : EventClassification) : List PlanNode :=
  match op with
  | .create _ path _ _ =>
    if path ∈ cls.atomicReplacePaths then []
    else if path ∈ cls.renameSubsumedCreates then []
    else if path ∈ cls.spuriousCreatesWithPreimage then []
    else
      let conflict := match probe.stat path with
        | none => some (.missing (path.display ++ " already gone; unlink will no-op"))
        | some _ => none
      [.fresh (.unlink path) conflict]
  | .unlink _ path kind mode =>
    if path ∈ cls.atomicReplacePaths then []
    else
      match cls.deadSource path with
      | some source =>
        let conflict := (probe.stat path).map fun _ => phantom (path.display
          ++ " exists now but didn't expect it to; hardlink restore aborted")
        [.fresh (.createHardlink source path) conflict]
      | none =>
        let conflict := (probe.stat path).map fun _ => phantom (path.display
          ++ " exists now but didn't expect it to")
        [.fresh (.recreatePath path kind mode) conflict]
  | .rename src dst _ =>
    if dst ∈ cls.atomicReplacePaths then [] else [.fresh (.rename dst src) none]
  | .link _ target => [.fresh (.unlink target) none]
  | .symlink _ path => [.fresh (.unlink path) none]
  | .symlinkRemoved target path => [.fresh (.createSymlink target path) none]

/-- The inverse of a flags change, on the surviving alias of a dead hardlink. -/
def emitRestoreFlags (inode : InodeRef) (path : PathBuf) (flags : Nat) (probe : StateProbe)
    (cls : EventClassification) : List PlanNode :=
  let restorePath := (cls.deadSource path).getD path
  [.fresh (.restoreFlags inode restorePath flags) (filePathConflict restorePath inode probe)]

/-- The `FilePreImage` arm of `emit_for_event`. -/
def emitForPreImage (id : EventId) (inode : InodeRef) (path : PathBuf) (blob : BlobHash)
    (fileMeta : FileMetadata) (postContentHash : Option BlobHash) (source : FilePreImageSource)
    (probe : StateProbe) (store : PlannerStore) (cls : EventClassification) : List PlanNode :=
  if source = .shimFlagsPreMutation then
    if id ∈ cls.pairedFlagsShims then []
    else emitRestoreFlags inode path fileMeta.flags probe cls
  else if (cls.deadSource path).isSome then []
  else
    let conflict := preImageConflict inode path blob postContentHash probe store cls
    [.fresh (.restoreContent inode path blob) conflict,
      .fresh (.restoreMetadata inode path fileMeta) conflict]

/-- The `ShellStateDiff` arm of `emit_for_event`. -/
def emitForShellStateDiff (r : Renderers) (pwdBefore pwdAfter : PathBuf)
    (opts : List (String × String × String))
    (aliases funcs : List (String × Option String × Option String)) : List PlanNode :=
  if pwdBefore = pwdAfter ∧ opts = [] ∧ aliases = [] ∧ funcs = [] then []
  else
    let pwd := if pwdBefore ≠ pwdAfter then some pwdBefore else none
    let optsDiff := opts.map fun o => OptDiff.mk o.1 o.2.1 o.2.2
    let aliasesDiff := aliases.map fun a => AliasDiff.mk a.1 a.2.1 a.2.2
    let funcsDiff := funcs.map fun f => AliasDiff.mk f.1 f.2.1 f.2.2
    [.fresh (.shellStateRestore pwd optsDiff aliasesDiff funcsDiff
      (some (r.renderBash pwd optsDiff aliasesDiff funcsDiff))
      (some (r.renderZsh pwd optsDiff aliasesDiff funcsDiff))
      (some (r.renderFish pwd optsDiff aliasesDiff funcsDiff))) none]

/-- The `EnvDiff` arm of `emit_for_event`. -/
def emitForEnvDiff (added removed : List (String × String))
    (modified : List (String × String × String)) : List PlanNode :=
  added.map (fun e => .fresh (.unsetEnv e.1) none)
    ++ removed.map (fun e => .fresh (.setEnv e.1 e.2) none)
    ++ modified.map (fun e => .fresh (.setEnv e.1 e.2.1) none)

/-- The `NetworkOp` arm of `emit_for_event`. -/
def emitForNetworkOp (r : Renderers) (tool : NetworkTool) (beforeState afterState : Bytes)
    (inverseInvocations : List (List String)) : Emitted :=
  let invs :=
    if inverseInvocations ≠ [] then inverseInvocations
    else match restoreMethod tool with
      | .diffApply => r.synthesiseDiffApplyInverse tool beforeState afterState
      | .diffApplyWithReset =>
        if tool = .ufw then r.synthesiseUfwInverse beforeState afterState else []
      | .fullReload => []
  { nodes := [.fresh (.networkRollback tool beforeState invs) none]
    warnings :=
      if invs = [] then
        [.informational .network ("no DiffApply inverse synthesised for " ++ tool.debug
          ++ "; review captured before/after states for manual rollback")]
      else [] }

/-- The `DbOp` arm of `emit_for_event`: a note for the user, or only a warning when the engine
rolled the statements back itself. -/
def emitForDbOp (engine : DbEngine) (target : String) (statements : List String)
    (transactionState : DbTxState) : Emitted :=
  let rollbackHint : RollbackHint := match engine with
    | .postgres => .postgres (transactionState = .committed) none statements
    | .mysql => .mysql none statements
    | .sqlite3 => .sqlite (PathBuf.ofString target) none
  if transactionState = .rolledBack then
    { nodes := []
      warnings := [.informational .database (engineLabel engine
        ++ " statements observed against `" ++ target ++ "` but engine rolled back")] }
  else
    { nodes := [.fresh (.dbNote engine target statements rollbackHint) none]
      warnings := [.informational .database (engineLabel engine
        ++ " statements against `" ++ target ++ "` need manual rollback review")] }

def emitForEvent (r : Renderers) (ev : CaptureEvent) (probe : StateProbe) (store : PlannerStore)
    (cls : EventClassification) : Emitted :=
  match ev.kind with
  | .filePreImage inode path blob fileMeta post source =>
    ⟨emitForPreImage ev.id inode path blob fileMeta post source probe store cls, []⟩
  | .metadataChange inode path before after =>
    if before.onlyFlagsChanged after then
      ⟨emitRestoreFlags inode path before.flags probe cls, []⟩
    else
      ⟨[.fresh (.restoreMetadata inode path before) (filePathConflict path inode probe)], []⟩
  | .fileAppendPreStash inode path preSize =>
    ⟨[.fresh (.fileExtend path preSize) (filePathConflict path inode probe)], []⟩
  | .treeOp op => ⟨emitForTreeOp op probe cls, []⟩
  | .shellStateDiff pwdBefore pwdAfter opts aliases funcs =>
    ⟨emitForShellStateDiff r pwdBefore pwdAfter opts aliases funcs, []⟩
  | .envDiff added removed modified => ⟨emitForEnvDiff added removed modified, []⟩
  | .packageOp manager op packagesBefore packagesAfter hint =>
    ⟨[.fresh (.packageRollback manager op packagesBefore packagesAfter hint
      (nativeDelegationFor manager hint)) none], []⟩
  | .networkOp tool beforeState afterState invs =>
    emitForNetworkOp r tool beforeState afterState invs
  | .systemdOp scope unit before after =>
    ⟨[.fresh (.systemdRollback scope unit before after) none], []⟩
  | .processOp argv cwd envSummary =>
    ⟨[.fresh (.processNote argv cwd envSummary
        "process lifecycle is informational — undo cannot resurrect") none],
      [.informational .processes "process events cannot be mechanically undone"]⟩
  | .dbOp engine target statements transactionState =>
    emitForDbOp engine target statements transactionState
  | .containerOp runtime op capturedConfig stashImage stashTarball =>
    let requiresConfirmation := match op with
      | .rm _ _ _ => true
      | _ => false
    ⟨[.fresh (.containerRestore runtime op capturedConfig stashImage stashTarball
      requiresConfirmation) none], []⟩
  | .kubectlOp context ns op capturedYaml =>
    ⟨[.fresh (.kubectlReverse context ns op capturedYaml true) none], []⟩
  | .terraformOp workdir op priorState =>
    ⟨[.fresh (.terraformReverse workdir op priorState none true) none], []⟩
  | .ghOp op capturedJson => ⟨[.fresh (.ghReverse op capturedJson true) none], []⟩
  | .captureRefused cls path detail =>
    ⟨[.fresh (.refuse cls ("capture incomplete for " ++ path.display ++ ": " ++ detail)
      (some ("Re-run the command from a directory whose parent path exists; "
        ++ "shit cannot reverse this path because the shim could not resolve "
        ++ "an absolute path to attribute the captured pre-image to."))) none], []⟩

/-! ## The plan -/

/-- `live`: the complete events, newest first. The sort is stable. -/
def liveEvents (events : List CaptureEvent) : List CaptureEvent :=
  (events.filter (fun e => !e.isPartial)).insertionSort (fun a b => ¬ a.keyLt b)

/-- The classification `plan` works with, the flags pairing included. -/
def classify (order : HashOrder) (events : List CaptureEvent) (probe : StateProbe) :
    EventClassification :=
  { classifyReplacePaths order (liveEvents events) probe with
    pairedFlagsShims := pairedFlagsShimEvents (liveEvents events).reverse }

/-- The two `continue`s of the loop in `plan`: transient paths, and live hardlink aliases unless
the event is about flags. -/
def skipsEvent (cls : EventClassification) (ev : CaptureEvent) : Bool :=
  match eventPath ev with
  | none => false
  | some p =>
    decide (p ∈ cls.transientPaths)
      || (decide (p ∈ cls.hardlinkLivePaths) && !isFlagsOnlyEvent ev)

/-- What the loop of `plan` emits for one event. -/
def emitUnlessSkipped (r : Renderers) (probe : StateProbe) (store : PlannerStore)
    (cls : EventClassification) (ev : CaptureEvent) : Emitted :=
  if skipsEvent cls ev then ⟨[], []⟩ else emitForEvent r ev probe store cls

/-- The nodes the loop of `plan` pushes, before cohorts are assigned. -/
def planNodes (r : Renderers) (order : HashOrder) (events : List CaptureEvent)
    (probe : StateProbe) (store : PlannerStore) : List PlanNode :=
  (liveEvents events).flatMap fun ev =>
    (emitUnlessSkipped r probe store (classify order events probe) ev).nodes

/-- The warnings of `plan`, in the order they are pushed. -/
def planWarnings (r : Renderers) (order : HashOrder) (command : CommandRecord)
    (events : List CaptureEvent) (probe : StateProbe) (store : PlannerStore) :
    List PlanWarning :=
  let partialCount := (events.filter (fun e => e.isPartial)).length
  (if 0 < partialCount then [.partialEvents partialCount] else [])
    ++ (if command.endedAt = none then [.unclosedCommand] else [])
    ++ (liveEvents events).flatMap fun ev =>
      (emitUnlessSkipped r probe store (classify order events probe) ev).warnings

def plan (r : Renderers) (order : HashOrder) (command : CommandRecord)
    (events : List CaptureEvent) (probe : StateProbe) (store : PlannerStore) : UndoPlan :=
  match command.refusal with
  | some entry =>
    { command := command
      nodes := [.fresh (.refuse entry.cls entry.reason entry.remediation) none]
      warnings := [] }
  | none =>
    { command := command
      nodes := assignCohorts (planNodes r order events probe store)
      warnings := planWarnings r order command events probe store }

/-! ## Which event emits a node -/

section Emission

variable {r : Renderers} {order : HashOrder} {command : CommandRecord}
  {events : List CaptureEvent} {probe : StateProbe} {store : PlannerStore}
  {cls : EventClassification} {ev : CaptureEvent} {node : PlanNode} {inode : InodeRef}
  {p src dst : PathBuf} {blob : BlobHash} {fileMeta : FileMetadata} {post : Option BlobHash}
  {source : FilePreImageSource} {kind : FileKind} {mode : Nat}

theorem plan_nodes_of_refused {entry : RefuseEntry} (h : command.refusal = some entry) :
    (plan r order command events probe store).nodes =
      [.fresh (.refuse entry.cls entry.reason entry.remediation) none] := by
  simp [plan, h]

theorem plan_nodes_of_not_refused (h : command.refusal = none) :
    (plan r order command events probe store).nodes =
      assignCohorts (planNodes r order events probe store) := by
  simp [plan, h]

/-- A property that does not read the cohort holds of all nodes of the plan if it holds of all nodes
before cohorts are assigned. -/
theorem forall_plan_nodes (P : PlanNode → Prop)
    (hP : ∀ node c, P { node with cohort := c } = P node) (h : command.refusal = none) :
    (∀ node ∈ (plan r order command events probe store).nodes, P node) ↔
      ∀ node ∈ planNodes r order events probe store, P node := by
  have hmap := assignCohorts_map_of_ignores hP (planNodes r order events probe store)
  rw [plan_nodes_of_not_refused h, ← forall_mem_map (P := fun q : Prop => q), hmap,
    forall_mem_map]

theorem forall_hasHard_plan (h : command.refusal = none) :
    (∀ node ∈ (plan r order command events probe store).nodes, node.hasHard = false) ↔
      ∀ node ∈ planNodes r order events probe store, node.hasHard = false :=
  forall_plan_nodes (fun node => node.hasHard = false) (fun _ _ => rfl) h

theorem mem_liveEvents : ev ∈ liveEvents events ↔ ev ∈ events ∧ ev.isPartial = false := by
  simp [liveEvents, mem_insertionSort]

theorem orderedInsert_oldest {later : List CaptureEvent} (hold : ∀ e ∈ later, ev.keyLt e) :
    later.orderedInsert (fun a b => ¬ a.keyLt b) ev = later ++ [ev] := by
  induction later with
  | nil => rfl
  | cons e rest ih =>
    have he : ¬ ¬ ev.keyLt e := not_not.mpr (hold e mem_cons_self)
    rw [orderedInsert_of_not_le _ rest he, ih fun e' he' => hold e' (mem_cons_of_mem _ he')]
    rfl

theorem liveEvents_eq_reverse (hcomplete : ∀ ev ∈ events, ev.isPartial = false)
    (hordered : events.Pairwise CaptureEvent.keyLt) : liveEvents events = events.reverse := by
  have hfilter : events.filter (fun e => !e.isPartial) = events := by
    rw [filter_eq_self]
    intro ev hev
    simp [hcomplete ev hev]
  rw [liveEvents, hfilter]
  clear hcomplete hfilter
  induction events with
  | nil => rfl
  | cons ev rest ih =>
    rw [pairwise_cons] at hordered
    rw [insertionSort_cons, ih hordered.2, orderedInsert_oldest, reverse_cons]
    intro e he
    exact hordered.1 e (mem_reverse.mp he)

theorem mem_planNodes :
    node ∈ planNodes r order events probe store ↔
      ∃ ev ∈ liveEvents events, skipsEvent (classify order events probe) ev = false ∧
        node ∈ (emitForEvent r ev probe store (classify order events probe)).nodes := by
  simp only [planNodes, mem_flatMap, emitUnlessSkipped]
  constructor
  · rintro ⟨ev, hev, hn⟩
    cases hs : skipsEvent (classify order events probe) ev with
    | true => simp [hs] at hn
    | false => exact ⟨ev, hev, hs, by simpa [hs] using hn⟩
  · rintro ⟨ev, hev, hs, hn⟩
    exact ⟨ev, hev, by simpa [hs] using hn⟩

theorem skipsEvent_of_path (hp : eventPath ev = some p) (hflags : isFlagsOnlyEvent ev = false) :
    skipsEvent cls ev = false ↔ p ∉ cls.transientPaths ∧ p ∉ cls.hardlinkLivePaths := by
  simp [skipsEvent, hp, hflags]

theorem skipsEvent_preImage (hkind : ev.kind = .filePreImage inode p blob fileMeta post source)
    (hsrc : source ≠ .shimFlagsPreMutation) :
    skipsEvent cls ev = false ↔ p ∉ cls.transientPaths ∧ p ∉ cls.hardlinkLivePaths :=
  skipsEvent_of_path (by simp [eventPath, hkind]) (by simp [isFlagsOnlyEvent, hkind, hsrc])

theorem emit_primaryPath_of_not_file (hkind : ev.kind.isFileEvent = false)
    (h : node ∈ (emitForEvent r ev probe store cls).nodes) : node.op.primaryPath = none := by
  cases hk : ev.kind <;> simp only [emitForEvent, hk] at h
  case filePreImage | metadataChange | fileAppendPreStash | treeOp =>
    simp [hk, CaptureEventKind.isFileEvent] at hkind
  case envDiff =>
    simp only [emitForEnvDiff, mem_append, mem_map] at h
    rcases h with (⟨_, _, rfl⟩ | ⟨_, _, rfl⟩) | ⟨_, _, rfl⟩ <;> rfl
  case shellStateDiff =>
    simp only [emitForShellStateDiff] at h
    split at h
    · cases h
    · rw [mem_singleton.mp h]; rfl
  case networkOp => rw [mem_singleton.mp h]; rfl
  case dbOp =>
    simp only [emitForDbOp] at h
    split_ifs at h
    · cases h
    · rw [mem_singleton.mp h]; rfl
  all_goals rw [mem_singleton.mp h]; rfl

/-- Everything one event can emit, with the guards it passed. Questions about the origin of a
node are answered by cases on this relation, never by unfolding `emitForEvent` again. -/
inductive Emits (probe : StateProbe) (store : PlannerStore) (cls : EventClassification)
    (ev : CaptureEvent) : PlanNode → Prop
  | other {node : PlanNode} (hkind : ev.kind.isFileEvent = false)
      (hop : node.op.primaryPath = none) : Emits probe store cls ev node
  | flags {inode : InodeRef} {p : PathBuf} {value : Nat} :
      Emits probe store cls ev
        (.fresh (.restoreFlags inode p value) (filePathConflict p inode probe))
  | content {inode : InodeRef} {p : PathBuf} {blob : BlobHash} {fileMeta : FileMetadata}
      {post : Option BlobHash} {source : FilePreImageSource}
      (hkind : ev.kind = .filePreImage inode p blob fileMeta post source)
      (hsrc : source ≠ .shimFlagsPreMutation) (hdead : cls.deadSource p = none) :
      Emits probe store cls ev (.fresh (.restoreContent inode p blob)
        (preImageConflict inode p blob post probe store cls))
  | contentMeta {inode : InodeRef} {p : PathBuf} {blob : BlobHash} {fileMeta : FileMetadata}
      {post : Option BlobHash} {source : FilePreImageSource}
      (hkind : ev.kind = .filePreImage inode p blob fileMeta post source)
      (hsrc : source ≠ .shimFlagsPreMutation) (hdead : cls.deadSource p = none) :
      Emits probe store cls ev (.fresh (.restoreMetadata inode p fileMeta)
        (preImageConflict inode p blob post probe store cls))
  | metadata {inode : InodeRef} {p : PathBuf} {before after : FileMetadata}
      (hkind : ev.kind = .metadataChange inode p before after)
      (hflags : before.onlyFlagsChanged after = false) :
      Emits probe store cls ev (.fresh (.restoreMetadata inode p before)
        (filePathConflict p inode probe))
  | extend {inode : InodeRef} {p : PathBuf} {preSize : Nat}
      (hkind : ev.kind = .fileAppendPreStash inode p preSize) :
      Emits probe store cls ev (.fresh (.fileExtend p preSize) (filePathConflict p inode probe))
  | unlinkCreated {inode : InodeRef} {p : PathBuf} {kind : FileKind} {mode : Nat}
      {conflict : Option Conflict} (hkind : ev.kind = .treeOp (.create inode p kind mode))
      (hatomic : p ∉ cls.atomicReplacePaths) (hsub : p ∉ cls.renameSubsumedCreates)
      (hspur : p ∉ cls.spuriousCreatesWithPreimage)
      (hconf : conflict.any isHard = false) :
      Emits probe store cls ev (.fresh (.unlink p) conflict)
  | relink {inode : InodeRef} {p source : PathBuf} {kind : FileKind} {mode : Nat}
      {conflict : Option Conflict} (hkind : ev.kind = .treeOp (.unlink inode p kind mode))
      (hatomic : p ∉ cls.atomicReplacePaths) (hdead : cls.deadSource p = some source)
      (hconf : conflict.any isHard = false) :
      Emits probe store cls ev (.fresh (.createHardlink source p) conflict)
  | recreate {inode : InodeRef} {p : PathBuf} {kind : FileKind} {mode : Nat}
      {conflict : Option Conflict} (hkind : ev.kind = .treeOp (.unlink inode p kind mode))
      (hatomic : p ∉ cls.atomicReplacePaths) (hdead : cls.deadSource p = none)
      (hconf : conflict.any isHard = false) :
      Emits probe store cls ev (.fresh (.recreatePath p kind mode) conflict)
  | renameBack {src dst : PathBuf} {inode : InodeRef}
      (hkind : ev.kind = .treeOp (.rename src dst inode))
      (hatomic : dst ∉ cls.atomicReplacePaths) :
      Emits probe store cls ev (.fresh (.rename dst src) none)
  | unlinkLink {source : InodeRef} {target : PathBuf}
      (hkind : ev.kind = .treeOp (.link source target)) :
      Emits probe store cls ev (.fresh (.unlink target) none)
  | unlinkSymlink {target : String} {p : PathBuf} (hkind : ev.kind = .treeOp (.symlink target p)) :
      Emits probe store cls ev (.fresh (.unlink p) none)
  | resymlink {target : String} {p : PathBuf}
      (hkind : ev.kind = .treeOp (.symlinkRemoved target p)) :
      Emits probe store cls ev (.fresh (.createSymlink target p) none)

theorem emits_of_mem_treeOp {op : TreeOp} (hk : ev.kind = .treeOp op)
    (h : node ∈ emitForTreeOp op probe cls) : Emits probe store cls ev node := by
  cases op with
  | create inode p kind mode =>
    simp only [emitForTreeOp] at h
    split_ifs at h with hatomic hsub hspur
    · cases h
    · cases h
    · cases h
    · rw [mem_singleton.mp h]
      refine .unlinkCreated hk hatomic hsub hspur ?_
      cases probe.stat p <;> rfl
  | unlink inode p kind mode =>
    simp only [emitForTreeOp] at h
    split_ifs at h with hatomic
    · cases h
    cases hdead : cls.deadSource p with
    | some source =>
      rw [hdead] at h
      rw [mem_singleton.mp h]
      refine .relink hk hatomic hdead ?_
      cases probe.stat p <;> rfl
    | none =>
      rw [hdead] at h
      rw [mem_singleton.mp h]
      refine .recreate hk hatomic hdead ?_
      cases probe.stat p <;> rfl
  | rename src dst inode =>
    simp only [emitForTreeOp] at h
    split_ifs at h with hatomic
    · cases h
    · rw [mem_singleton.mp h]
      exact .renameBack hk hatomic
  | link source target => rw [mem_singleton.mp h]; exact .unlinkLink hk
  | symlink target p => rw [mem_singleton.mp h]; exact .unlinkSymlink hk
  | symlinkRemoved target p => rw [mem_singleton.mp h]; exact .resymlink hk

section

variable (h : node ∈ (emitForEvent r ev probe store cls).nodes)

include h

theorem emits_of_mem : Emits probe store cls ev node := by
  cases hfile : ev.kind.isFileEvent with
  | false => exact .other hfile (emit_primaryPath_of_not_file hfile h)
  | true =>
    cases hk : ev.kind <;> rw [hk] at hfile <;> simp only [emitForEvent, hk] at h
    case filePreImage inode p blob fm post source =>
      simp only [emitForPreImage, emitRestoreFlags] at h
      split_ifs at h with hsrc hpaired hdead
      · cases h
      · rw [mem_singleton.mp h]
        exact .flags
      · cases h
      · have hdead' : cls.deadSource p = none := by simpa using hdead
        rcases mem_pair.mp h with rfl | rfl
        · exact .content hk hsrc hdead'
        · exact .contentMeta hk hsrc hdead'
    case metadataChange inode p before after =>
      split_ifs at h with hflags
      · rw [emitRestoreFlags, mem_singleton] at h
        rw [h]
        exact .flags
      · rw [mem_singleton.mp h]
        exact .metadata hk (by simpa using hflags)
    case fileAppendPreStash inode p preSize =>
      rw [mem_singleton.mp h]
      exact .extend hk
    case treeOp op => exact emits_of_mem_treeOp hk h
    all_goals cases hfile

theorem restoreContent_mem_emit (hop : node.op = .restoreContent inode p blob) :
    ∃ fileMeta post source, ev.kind = .filePreImage inode p blob fileMeta post source ∧
      source ≠ .shimFlagsPreMutation ∧ cls.deadSource p = none ∧
      node.conflict = preImageConflict inode p blob post probe store cls := by
  cases emits_of_mem h with
  | other _ hnone => rw [hop] at hnone; cases hnone
  | content hkind hsrc hdead =>
    cases hop
    exact ⟨_, _, _, hkind, hsrc, hdead, rfl⟩
  | _ => cases hop

theorem createHardlink_mem_emit {source p : PathBuf} (hop : node.op = .createHardlink source p) :
    ∃ inode kind mode, ev.kind = .treeOp (.unlink inode p kind mode) ∧
      p ∉ cls.atomicReplacePaths ∧ cls.deadSource p = some source := by
  cases emits_of_mem h with
  | other _ hnone => rw [hop] at hnone; cases hnone
  | relink hkind hatomic hdead _ =>
    cases hop
    exact ⟨_, _, _, hkind, hatomic, hdead⟩
  | _ => cases hop

end

theorem restoreContent_emitted (hkind : ev.kind = .filePreImage inode p blob fileMeta post source)
    (hsrc : source ≠ .shimFlagsPreMutation) (hdead : cls.deadSource p = none) :
    (emitForEvent r ev probe store cls).nodes =
      [.fresh (.restoreContent inode p blob) (preImageConflict inode p blob post probe store cls),
        .fresh (.restoreMetadata inode p fileMeta)
          (preImageConflict inode p blob post probe store cls)] := by
  simp [emitForEvent, hkind, emitForPreImage, hsrc, hdead]

theorem restoreContent_mem_planNodes
    (hev : ev ∈ liveEvents events) (hskip : skipsEvent (classify order events probe) ev = false)
    (hkind : ev.kind = .filePreImage inode p blob fileMeta post source)
    (hsrc : source ≠ .shimFlagsPreMutation)
    (hdead : (classify order events probe).deadSource p = none) :
    PlanNode.fresh (.restoreContent inode p blob)
        (preImageConflict inode p blob post probe store (classify order events probe)) ∈
      planNodes r order events probe store := by
  refine mem_planNodes.mpr ⟨ev, hev, hskip, ?_⟩
  rw [restoreContent_emitted hkind hsrc hdead]
  exact mem_cons_self

theorem restoreFlags_of_mem_emit
    (hkind : ev.kind = .filePreImage inode p blob fileMeta post .shimFlagsPreMutation)
    (h : node ∈ (emitForEvent r ev probe store cls).nodes) :
    ∃ i q flags, node.op = .restoreFlags i q flags := by
  simp only [emitForEvent, hkind, emitForPreImage, emitRestoreFlags, if_true] at h
  split_ifs at h
  · cases h
  · rw [mem_singleton.mp h]
    exact ⟨_, _, _, rfl⟩

/-! ## Emission without aliases -/

/-- Nothing is classified as a live or dead hardlink alias. -/
structure NoAliases (cls : EventClassification) : Prop where
  live : cls.hardlinkLivePaths = []
  dead : ∀ p, cls.deadSource p = none

theorem SingleUnlinks.noAliases (hsingle : SingleUnlinks (liveEvents events)) :
    NoAliases (classify order events probe) where
  live := hsingle.hardlinkLivePaths
  dead := hsingle.deadSource

/-- The journal has no changes of directory entries. -/
def NoTreeOps (events : List CaptureEvent) : Prop := ∀ ev ∈ events, ∀ op, ev.kind ≠ .treeOp op

section NoTreeOps

variable (hno : NoTreeOps events)

include hno

theorem NoTreeOps.not_mem_creates (p : PathBuf) : p ∉ creates (liveEvents events) := by
  intro hp
  obtain ⟨ev, hev, _, _, _, hkind⟩ := mem_creates.mp hp
  exact hno ev (mem_liveEvents.mp hev).1 _ hkind

theorem NoTreeOps.not_mem_unlinks (p : PathBuf) : p ∉ unlinks (liveEvents events) := by
  intro hp
  obtain ⟨ev, hev, _, _, _, hkind⟩ := mem_unlinks.mp hp
  exact hno ev (mem_liveEvents.mp hev).1 _ hkind

theorem NoTreeOps.not_mem_renameDestinations (p : PathBuf) :
    p ∉ renameDestinations (liveEvents events) := by
  intro hp
  obtain ⟨ev, hev, _, _, hkind⟩ := mem_renameDestinations.mp hp
  exact hno ev (mem_liveEvents.mp hev).1 _ hkind

theorem NoTreeOps.not_atomic (p : PathBuf) :
    p ∉ (classify order events probe).atomicReplacePaths := by
  intro hp
  rcases (mem_atomicReplacePaths.mp hp).2 with ⟨-, hunlinked, -⟩ | ⟨hdst, -⟩ | ⟨hunlinked, -⟩
  · exact hno.not_mem_unlinks p hunlinked
  · exact hno.not_mem_renameDestinations p hdst
  · exact hno.not_mem_unlinks p hunlinked

theorem NoTreeOps.not_transient (p : PathBuf) :
    p ∉ (classify order events probe).transientPaths := by
  intro hp
  rcases mem_transientPaths.mp hp with ⟨-, hunlinked, -⟩ | ⟨hcreated, -⟩
  · exact hno.not_mem_unlinks p hunlinked
  · exact hno.not_mem_creates p hcreated

theorem NoTreeOps.noAliases : NoAliases (classify order events probe) := by
  refine SingleUnlinks.noAliases ?_
  intro i p q hp
  obtain ⟨ev, hev, _, _, hkind, -⟩ := mem_unlinkedInodes.mp hp
  exact absurd hkind (hno ev (mem_liveEvents.mp hev).1 _)

end NoTreeOps

section Plain

theorem emit_of_transient (hpath : eventPath ev = some p) (htrans : p ∈ cls.transientPaths) :
    (emitUnlessSkipped r probe store cls ev).nodes = [] := by
  simp [emitUnlessSkipped, skipsEvent, hpath, htrans]

theorem skipsEvent_of_noAliases (hna : NoAliases cls) (hpath : eventPath ev = some p)
    (htrans : p ∉ cls.transientPaths) : skipsEvent cls ev = false := by
  simp [skipsEvent, hpath, htrans, hna.live]

theorem emit_rename
    (hkind : ev.kind = .treeOp (.rename src dst inode)) (hatomic : dst ∉ cls.atomicReplacePaths) :
    (emitUnlessSkipped r probe store cls ev).nodes = [.fresh (.rename dst src) none] := by
  have hskip : skipsEvent cls ev = false := by simp [skipsEvent, eventPath, hkind]
  simp [emitUnlessSkipped, hskip, emitForEvent, hkind, emitForTreeOp, hatomic]

theorem emit_preImage (hna : NoAliases cls)
    (hkind : ev.kind = .filePreImage inode p blob fileMeta post source)
    (hsrc : source ≠ .shimFlagsPreMutation) (htrans : p ∉ cls.transientPaths) :
    (emitUnlessSkipped r probe store cls ev).nodes =
      [.fresh (.restoreContent inode p blob) (preImageConflict inode p blob post probe store cls),
        .fresh (.restoreMetadata inode p fileMeta)
          (preImageConflict inode p blob post probe store cls)] := by
  have hpath : eventPath ev = some p := by simp [eventPath, hkind]
  have hskip := skipsEvent_of_noAliases hna hpath htrans
  rw [emitUnlessSkipped, hskip]
  exact restoreContent_emitted hkind hsrc (hna.dead p)

theorem emit_unlink_of_atomic
    (hkind : ev.kind = .treeOp (.unlink inode p kind mode)) (hatomic : p ∈ cls.atomicReplacePaths) :
    (emitUnlessSkipped r probe store cls ev).nodes = [] := by
  cases hskip : skipsEvent cls ev with
  | true => simp [emitUnlessSkipped, hskip]
  | false => simp [emitUnlessSkipped, hskip, emitForEvent, hkind, emitForTreeOp, hatomic]

theorem emit_unlink (hna : NoAliases cls)
    (hkind : ev.kind = .treeOp (.unlink inode p kind mode)) (htrans : p ∉ cls.transientPaths)
    (hatomic : p ∉ cls.atomicReplacePaths) :
    ∃ c : Option Conflict, c.any isHard = false ∧
      (emitUnlessSkipped r probe store cls ev).nodes = [.fresh (.recreatePath p kind mode) c] := by
  have hpath : eventPath ev = some p := by simp [eventPath, hkind]
  have hskip := skipsEvent_of_noAliases hna hpath htrans
  refine ⟨(probe.stat p).map fun _ => .phantom (p.display ++ " exists now but didn't expect it to"),
    ?_, ?_⟩
  · cases probe.stat p <;> rfl
  · simp [emitUnlessSkipped, hskip, emitForEvent, hkind, emitForTreeOp, hatomic, hna.dead p]

theorem emit_create (hna : NoAliases cls)
    (hkind : ev.kind = .treeOp (.create inode p kind mode)) (htrans : p ∉ cls.transientPaths)
    (hatomic : p ∉ cls.atomicReplacePaths) (hsub : p ∉ cls.renameSubsumedCreates)
    (hspur : p ∉ cls.spuriousCreatesWithPreimage) :
    ∃ c : Option Conflict, c.any isHard = false ∧
      (emitUnlessSkipped r probe store cls ev).nodes = [.fresh (.unlink p) c] := by
  have hpath : eventPath ev = some p := by simp [eventPath, hkind]
  have hskip := skipsEvent_of_noAliases hna hpath htrans
  refine ⟨match probe.stat p with
    | none => some (.missing (p.display ++ " already gone; unlink will no-op"))
    | some _ => none, ?_, ?_⟩
  · cases probe.stat p <;> rfl
  · simp [emitUnlessSkipped, hskip, emitForEvent, hkind, emitForTreeOp, hatomic, hsub, hspur]

theorem preImagePathConflict_not_hard (inode : InodeRef) (p : PathBuf) (probe : StateProbe)
    (cls : EventClassification) :
    (preImagePathConflict inode p probe cls).any isHard = false := by
  unfold preImagePathConflict
  split
  · cases (probe.stat p).isSome <;> cases probe.parentAlive p <;> rfl
  · exact filePathConflict_not_hard

theorem preImageConflict_of_no_post (inode : InodeRef) (p : PathBuf) (blob : BlobHash)
    (probe : StateProbe) (store : PlannerStore) (cls : EventClassification) :
    (preImageConflict inode p blob none probe store cls).any isHard = false := by
  have hpath := preImagePathConflict_not_hard inode p probe cls
  unfold preImageConflict
  cases hc : preImagePathConflict inode p probe cls with
  | some c => rwa [hc] at hpath
  | none => cases (store.blobSizeHint blob).isNone <;> rfl

end Plain

end Emission

end ShitUndo
