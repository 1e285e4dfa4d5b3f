import ShitUndo.Basic

/-!
# Capture events

`CaptureEvent`, the atomic unit of recorded state (`events.rs`), and the tier payloads it
shares with the inverse ops (`inverse.rs`). A command's journal is a list of these events; the
planner reads nothing else about what the command did.

`BTreeMap`s are association lists in key order. Fields that neither the planner nor the
executors read (the process ids and signal of `ProcessOp`, a command's cwd and exit code) are
left out.
-/

namespace ShitUndo

/-! ## Tier payloads -/

inductive PackageManager where
  | apt | dpkg | pacman | dnf | brew | pkg
deriving DecidableEq, Repr

inductive PackageOpKind where
  | install | remove | purge | upgrade | downgrade | hold | unhold
deriving DecidableEq, Repr

inductive NetworkTool where
  | iptables | ip6tables | nft | ufw | pfctl | ipRoute | ipAddr | ipLink | route | ifconfig
  | networksetup
deriving DecidableEq, Repr

inductive SystemdScope where
  | user | system | launchdGui | launchdSystem | rcBase
deriving DecidableEq, Repr

structure ServiceState where
  active : Bool
  enabled : Bool
  masked : Bool
  present : Bool
  raw : String
deriving DecidableEq, Repr

inductive DbEngine where
  | postgres | mysql | sqlite3
deriving DecidableEq, Repr

/-- Transaction state the engine probe observed for the captured statements. -/
inductive DbTxState where
  | autoCommit | committed | rolledBack | unfinished | unknown
deriving DecidableEq, Repr

inductive ContainerRuntime where
  | docker | podman
deriving DecidableEq, Repr

inductive ContainerOp where
  | rm (id : String) (name : Option String) (wasRunning : Bool)
  | rmi (image : String) (digest : Option String)
  | volumeRm (name : String) (driver : Option String)
  | networkRm (name : String)
  | composeDown (project : String) (services : List String) (composeFile : PathBuf)
      (withVolumes : Bool)
  | pull (image : String) (resolvedId : Option String)
deriving DecidableEq, Repr

inductive TerraformOp where
  | apply | destroy | stateRm | importState
deriving DecidableEq, Repr

inductive KubectlOp where
  | delete (kind name : String)
  | apply (kind name : String)
  | scale (kind name : String)
  | rollout (kind name : String)
deriving DecidableEq, Repr

inductive GhOp where
  | releaseDelete (tag : String)
  | releaseDeleteAsset (tag asset : String)
  | issueClose (number : Nat)
  | prClose (number : Nat)
deriving DecidableEq, Repr

/-! ## Events -/

/-- `EventId(u64)`, assigned by the store at ingest. -/
structure EventId where
  val : Nat
deriving DecidableEq, Repr

/-- `CommandId`: session and position in it. -/
structure CommandId where
  session : Nat
  seq : Nat
deriving DecidableEq, Repr

/-- `FilePreImageSource`: which capture path produced a pre-image. -/
inductive FilePreImageSource where
  | baselineCachePromote
  | esAuthPreMutation
  | other
  | shimFlagsPreMutation
deriving DecidableEq, Repr

def FilePreImageSource.isTrustedPreMutation : FilePreImageSource → Bool
  | baselineCachePromote => true
  | esAuthPreMutation => true
  | other => false
  | shimFlagsPreMutation => false

/-- `TreeOp`: changes to directory entries. -/
inductive TreeOp where
  | create (inode : InodeRef) (path : PathBuf) (kind : FileKind) (mode : Nat)
  | unlink (inode : InodeRef) (path : PathBuf) (kind : FileKind) (mode : Nat)
  | rename (src dst : PathBuf) (inode : InodeRef)
  | link (source : InodeRef) (target : PathBuf)
  | symlink (target : String) (path : PathBuf)
  | symlinkRemoved (target : String) (path : PathBuf)
deriving DecidableEq, Repr

inductive CaptureEventKind where
  | filePreImage (inode : InodeRef) (path : PathBuf) (blob : BlobHash) (fileMeta : FileMetadata)
      (postContentHash : Option BlobHash) (source : FilePreImageSource)
  | metadataChange (inode : InodeRef) (path : PathBuf) (before after : FileMetadata)
  | fileAppendPreStash (inode : InodeRef) (path : PathBuf) (preSize : Nat)
  | treeOp (op : TreeOp)
  | envDiff (added removed : List (String × String)) (modified : List (String × String × String))
  | shellStateDiff (pwdBefore pwdAfter : PathBuf) (opts : List (String × String × String))
      (aliases funcs : List (String × Option String × Option String))
  | packageOp (manager : PackageManager) (op : PackageOpKind)
      (packagesBefore packagesAfter : List (String × String)) (repoStateHint : Option String)
  | networkOp (tool : NetworkTool) (beforeState afterState : Bytes)
      (inverseInvocations : List (List String))
  | systemdOp (scope : SystemdScope) (unit : String) (before after : ServiceState)
  | processOp (argv : List String) (cwd : PathBuf) (envSummary : List (String × String))
  | dbOp (engine : DbEngine) (target : String) (statements : List String)
      (transactionState : DbTxState)
  | containerOp (runtime : ContainerRuntime) (op : ContainerOp) (capturedConfig : Bytes)
      (stashImage : Option String) (stashTarball : Option BlobHash)
  | terraformOp (workdir : PathBuf) (op : TerraformOp) (priorState : Bytes)
  | kubectlOp (context : String) (ns : Option String) (op : KubectlOp) (capturedYaml : Bytes)
  | ghOp (op : GhOp) (capturedJson : Bytes)
  | captureRefused (cls : String) (path : PathBuf) (detail : String)
deriving DecidableEq, Repr

/-- Events about paths: the kinds whose inverses act on the file tree. -/
def CaptureEventKind.isFileEvent : CaptureEventKind → Bool
  | filePreImage _ _ _ _ _ _ => true
  | metadataChange _ _ _ _ => true
  | fileAppendPreStash _ _ _ => true
  | treeOp _ => true
  | _ => false

/-- `CaptureEvent`. `isPartial` marks an incomplete capture. -/
structure CaptureEvent where
  id : EventId
  command : CommandId
  ts : TimePoint
  isPartial : Bool
  kind : CaptureEventKind
deriving DecidableEq, Repr

/-- `CommandRecord`: the fields undo reads. -/
structure CommandRecord where
  command : CommandId
  cmdString : Option String
  endedAt : Option TimePoint
deriving DecidableEq, Repr

/-- A finished command that is not on the refuse list. -/
def plainCommand : CommandRecord :=
  { command := ⟨0, 1⟩, cmdString := none, endedAt := some ⟨9, 0⟩ }

/-- A complete journal with the given events, numbered in order, for concrete journals. -/
def journalOf (kinds : List CaptureEventKind) : List CaptureEvent :=
  kinds.mapIdx fun i kind =>
    { id := ⟨i⟩, command := ⟨0, 1⟩, ts := ⟨i, 0⟩, isPartial := false, kind := kind }

/-- The strict order of the sort key `(e.ts, e.id)`. -/
def CaptureEvent.keyLt (a b : CaptureEvent) : Prop :=
  a.ts.lt b.ts ∨ (a.ts = b.ts ∧ a.id.val < b.id.val)

instance : DecidableRel CaptureEvent.keyLt := fun a b =>
  inferInstanceAs (Decidable (a.ts.lt b.ts ∨ (a.ts = b.ts ∧ a.id.val < b.id.val)))

/-- `event_path`: the one path the skip rules of `plan` look at. -/
def eventPath (ev : CaptureEvent) : Option PathBuf :=
  match ev.kind with
  | .filePreImage _ path _ _ _ _ => some path
  | .metadataChange _ path _ _ => some path
  | .fileAppendPreStash _ path _ => some path
  | .treeOp (.create _ path _ _) => some path
  | .treeOp (.unlink _ path _ _) => some path
  | .treeOp (.symlink _ path) => some path
  | .treeOp (.symlinkRemoved _ path) => some path
  | _ => none

def isFlagsOnlyEvent (ev : CaptureEvent) : Bool :=
  match ev.kind with
  | .filePreImage _ _ _ _ _ source => source = .shimFlagsPreMutation
  | .metadataChange _ _ before after => before.onlyFlagsChanged after
  | _ => false

end ShitUndo
