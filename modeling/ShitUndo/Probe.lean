import ShitUndo.Inverse

/-!
# State probe and planner store

The two read-only views the planner and the orchestrator get: `StateProbe` (`probe.rs`), the
file system as it is now, and the part of `PlannerStore` (`store.rs`) that planning consults.
-/

namespace ShitUndo

/-- `ProbeStat`: inode identity and metadata of a path, from `lstat`. -/
structure ProbeStat where
  inode : InodeRef
  fileMeta : FileMetadata
deriving DecidableEq, Repr

/-- `StateProbe`. `contentHash` is `none` for anything but a readable regular file. -/
structure StateProbe where
  stat : PathBuf → Option ProbeStat
  contentHash : PathBuf → Option BlobHash

namespace StateProbe

/-- `StateProbe::exists`. -/
def pathExists (probe : StateProbe) (path : PathBuf) : Bool :=
  (probe.stat path).isSome

/-- The path is there and is the inode it was captured as. -/
def hasInode (probe : StateProbe) (path : PathBuf) (inode : InodeRef) : Bool :=
  (probe.stat path).any (fun s => s.inode = inode)

/-- `parent_alive`: the path has a parent that can be probed and exists. -/
def parentAlive (probe : StateProbe) (path : PathBuf) : Bool :=
  ((path.nonemptyParent).bind probe.stat).isSome

end StateProbe

/-- `PlannerStore::blob_size_hint`, the only store call made while planning. -/
structure PlannerStore where
  blobSizeHint : BlobHash → Option Nat

/-- Every blob is in the store. -/
def fullStore : PlannerStore where
  blobSizeHint := fun _ => some 3

/-- `file_path_conflict`: the path is gone, or another inode lives there now. -/
def filePathConflict (path : PathBuf) (expectedInode : InodeRef) (probe : StateProbe) :
    Option Conflict :=
  match probe.stat path with
  | none => some (.missing (path.display ++ " no longer exists"))
  | some s =>
    if s.inode ≠ expectedInode then
      some (.phantom (path.display ++ " now points at inode " ++ s.inode.display ++ " (was "
        ++ expectedInode.display ++ ")"))
    else none

theorem filePathConflict_eq_none_iff {path : PathBuf} {inode : InodeRef} {probe : StateProbe} :
    filePathConflict path inode probe = none ↔ probe.hasInode path inode = true := by
  unfold filePathConflict StateProbe.hasInode
  cases probe.stat path with
  | none => simp
  | some s => by_cases h : s.inode = inode <;> simp [h]

theorem filePathConflict_not_hard {path : PathBuf} {inode : InodeRef} {probe : StateProbe} :
    (filePathConflict path inode probe).any Conflict.isHard = false := by
  unfold filePathConflict
  cases probe.stat path with
  | none => rfl
  | some s => by_cases h : s.inode = inode <;> simp [h, Conflict.isHard]

end ShitUndo
