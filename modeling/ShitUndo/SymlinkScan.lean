import ShitUndo.Commands
import ShitUndo.Lib.SortedMap
import ShitUndo.Lib.KeyedRun

/-!
# Symlinks in a watched directory

On the BSDs a symlink has no descriptor to watch. What the helper learns about it comes from the
directory it is in: `scan_dir_emit_and_watch_children` (`capture/bsd.rs`) reads the directory again
whenever it changes and compares what it finds with what it found the last time.

Only symlinks change here, so the watches that the scan sets up for new files and directories are
left out.
-/

namespace ShitUndo

open List SortedMap

/-! ## The scan -/

structure DirEntryBaseline where
  inode : InodeRef
  symlinkTarget : Option String
deriving DecidableEq, Repr

/-- `readlink_at`: nothing is found out about an empty target. -/
def readlinkAt (n : Inode) : Option String := if n.target = "" then none else some n.target

/-- The entry of an inode. -/
def Fs.dirEntry (fs : Fs) (i : InodeRef) : DirEntryBaseline :=
  ⟨i, if (fs.inode i).kind = .symlink then readlinkAt (fs.inode i) else none⟩

/-- The name a path has in a directory. -/
def childName (dir p : PathBuf) : Option String :=
  match p.getLast? with
  | some (.normal name) => if p.dropLast = dir then some name else none
  | _ => none

/-- A name in a directory. -/
def childPath (dir : PathBuf) (name : String) : PathBuf := dir ++ [.normal name]

/-- What the directory has under a name. -/
def Fs.entryAt (fs : Fs) (p : PathBuf) : Option DirEntryBaseline := (fs.lookup p).map fs.dirEntry

def readDirEntries (dir : PathBuf) (fs : Fs) : SortedMap String DirEntryBaseline :=
  (ofList ((fs.entries.filterMap fun e => childName dir e.1).map fun name =>
    (name, fs.entryAt (childPath dir name)))).filterMap fun _ entry => entry

def fileKindAt (fs : Fs) (p : PathBuf) : FileKind :=
  match fs.kindAt p with
  | some .directory => .directory
  | some .symlink => .symlink
  | _ => .regular

/-- `file_mode_for`, zero where there is nothing. -/
def fileModeFor (fs : Fs) (p : PathBuf) : Nat :=
  ((fs.node p).map fun n => n.kind.ifmt + n.perm).getD 0

/-- The removal of a symlink whose target is known, unless it is still the one found. -/
def targetRemoved (path : PathBuf) (prev : DirEntryBaseline) (curTarget : Option String) :
    List TreeOp :=
  match prev.symlinkTarget with
  | none => []
  | some oldTarget =>
    if prev.symlinkTarget ≠ curTarget then [.symlinkRemoved oldTarget path] else []

/-- The first loop: an entry that is there now. -/
def entryEvents (dir : PathBuf) (fs : Fs) (baseline : SortedMap String DirEntryBaseline)
    (e : String × DirEntryBaseline) : List TreeOp :=
  let path := childPath dir e.1
  let created : List TreeOp :=
    [.create e.2.inode path (fileKindAt fs path) (fileModeFor fs path)]
  match baseline.get e.1 with
  | none => created
  | some prev => if prev = e.2 then [] else targetRemoved path prev e.2.symlinkTarget ++ created

/-- The second loop: an entry of the baseline. -/
def goneEvents (dir : PathBuf) (current : SortedMap String DirEntryBaseline)
    (e : String × DirEntryBaseline) : List TreeOp :=
  if (current.get e.1).isSome then [] else targetRemoved (childPath dir e.1) e.2 none

/-- `scan_dir_emit_and_watch_children`: the events, in the order they are sent. -/
def scanDir (dir : PathBuf) (baseline : SortedMap String DirEntryBaseline) (fs : Fs) :
    List TreeOp :=
  let current := readDirEntries dir fs
  current.entries.flatMap (entryEvents dir fs baseline)
    ++ baseline.entries.flatMap (goneEvents dir current)

/-- One scan after the other: what is found becomes the baseline of the next. -/
def scans (dir : PathBuf) : SortedMap String DirEntryBaseline → List Fs → List TreeOp
  | _, [] => []
  | baseline, fs :: rest => scanDir dir baseline fs ++ scans dir (readDirEntries dir fs) rest

/-! ## One name -/

/-- The event is about this path. -/
def TreeOp.isAt (p : PathBuf) : TreeOp → Bool
  | .create _ path _ _ | .symlinkRemoved _ path => decide (path = p)
  | _ => false

/-- What one scan says about a name, from what was found under it before and what is now. -/
def nameScan (p : PathBuf) (fs : Fs) (prev cur : Option DirEntryBaseline) : List TreeOp :=
  if prev = cur then []
  else
    (prev.map fun e => targetRemoved p e (cur.bind DirEntryBaseline.symlinkTarget)).getD []
      ++ (cur.map fun e => [TreeOp.create e.inode p (fileKindAt fs p) (fileModeFor fs p)]).getD []

/-- What all of them say. -/
def nameScans (p : PathBuf) : Option DirEntryBaseline → List Fs → List TreeOp
  | _, [] => []
  | prev, fs :: rest => nameScan p fs prev (fs.entryAt p) ++ nameScans p (fs.entryAt p) rest

section Names

variable {dir p : PathBuf} {fs : Fs} {name : String} {baseline : SortedMap String DirEntryBaseline}
  {op : TreeOp} {e : String × DirEntryBaseline}

theorem childName_eq_some_iff : childName dir p = some name ↔ p = childPath dir name := by
  unfold childName childPath
  constructor
  · intro h
    split at h
    · rename_i last hlast
      split_ifs at h with hdir
      cases h
      rw [← hdir]
      exact (dropLast_append_getLast? _ hlast).symm
    · cases h
  · rintro rfl
    simp

theorem get_readDirEntries (dir : PathBuf) (fs : Fs) (name : String) :
    (readDirEntries dir fs).get name = fs.entryAt (childPath dir name) := by
  rw [readDirEntries, get_filterMap, get_ofList_map]
  split_ifs with hmem
  · rfl
  cases hentry : fs.entryAt (childPath dir name) with
  | none => rfl
  | some entry =>
    -- a name that leads somewhere is among the entries
    obtain ⟨i, hi, -⟩ := Option.map_eq_some_iff.mp hentry
    exact absurd (mem_filterMap.mpr ⟨_, Fs.mem_entries_of_lookup hi,
      childName_eq_some_iff.mpr rfl⟩) hmem

theorem mem_targetRemoved {prev : DirEntryBaseline} {cur : Option String}
    (h : op ∈ targetRemoved p prev cur) : ∃ target, op = .symlinkRemoved target p := by
  unfold targetRemoved at h
  split at h
  · cases h
  · split_ifs at h
    · exact ⟨_, mem_singleton.mp h⟩
    · cases h

theorem childPath_injective (dir : PathBuf) : Function.Injective (childPath dir) := by
  intro a b h
  simpa [childPath] using h

/-- What a scan has to say about a path. -/
def TreeOp.IsScanOf (path : PathBuf) (op : TreeOp) : Prop :=
  (∃ i kind mode, op = .create i path kind mode) ∨ ∃ target, op = .symlinkRemoved target path

theorem TreeOp.IsScanOf.isAt {path : PathBuf} (h : op.IsScanOf path) :
    op.isAt p = decide (path = p) := by
  rcases h with ⟨i, kind, mode, rfl⟩ | ⟨target, rfl⟩
  · rfl
  · rfl

theorem isScanOf_entryEvents (h : op ∈ entryEvents dir fs baseline e) :
    op.IsScanOf (childPath dir e.1) := by
  unfold entryEvents at h
  split at h
  · exact .inl ⟨_, _, _, mem_singleton.mp h⟩
  split_ifs at h
  · cases h
  rcases mem_append.mp h with hremoved | hcreated
  · exact .inr (mem_targetRemoved hremoved)
  · exact .inl ⟨_, _, _, mem_singleton.mp hcreated⟩

theorem isScanOf_goneEvents {current : SortedMap String DirEntryBaseline}
    (h : op ∈ goneEvents dir current e) : op.IsScanOf (childPath dir e.1) := by
  unfold goneEvents at h
  split_ifs at h
  · cases h
  · exact .inr (mem_targetRemoved h)

/-- **What a scan says about a name.** -/
theorem filter_scanDir (dir : PathBuf) (name : String) (fs : Fs)
    (baseline : SortedMap String DirEntryBaseline) :
    (scanDir dir baseline fs).filter (TreeOp.isAt (childPath dir name)) =
      nameScan (childPath dir name) fs (baseline.get name) (fs.entryAt (childPath dir name)) := by
  have hsame : ∀ other, decide (childPath dir other = childPath dir name) =
      decide (other = name) := fun other =>
    decide_eq_decide.mpr (childPath_injective dir).eq_iff
  have hfirst : ∀ e, ∀ op ∈ entryEvents dir fs baseline e,
      TreeOp.isAt (childPath dir name) op = decide (e.1 = name) := fun e op hop =>
    (isScanOf_entryEvents hop).isAt.trans (hsame e.1)
  have hsecond : ∀ e, ∀ op ∈ goneEvents dir (readDirEntries dir fs) e,
      TreeOp.isAt (childPath dir name) op = decide (e.1 = name) := fun e op hop =>
    (isScanOf_goneEvents hop).isAt.trans (hsame e.1)
  rw [scanDir, filter_append, filter_flatMap_entries hfirst,
    filter_flatMap_entries hsecond, get_readDirEntries]
  simp only [entryEvents, goneEvents, nameScan, get_readDirEntries]
  cases baseline.get name with
  | none => cases fs.entryAt (childPath dir name) <;> simp
  | some prev =>
    cases fs.entryAt (childPath dir name) with
    | none => simp
    | some cur => by_cases hsame : prev = cur <;> simp [hsame]

/-- **What all scans say about a name** depends on what they find under it only. -/
theorem filter_scans (dir : PathBuf) (name : String) (fs : Fs) (states : List Fs) :
    (scans dir (readDirEntries dir fs) states).filter (TreeOp.isAt (childPath dir name)) =
      nameScans (childPath dir name) (fs.entryAt (childPath dir name)) states := by
  induction states generalizing fs with
  | nil => rfl
  | cons next rest ih =>
    rw [scans, filter_append, filter_scanDir, ih, get_readDirEntries]
    rfl

theorem mem_scans {states : List Fs} (h : op ∈ scans dir baseline states) :
    ∃ name, op.IsScanOf (childPath dir name) := by
  induction states generalizing baseline with
  | nil => cases h
  | cons next rest ih =>
    rw [scans, scanDir, mem_append, mem_append, mem_flatMap, mem_flatMap] at h
    rcases h with (⟨e, -, h⟩ | ⟨e, -, h⟩) | h
    · exact ⟨e.1, isScanOf_entryEvents h⟩
    · exact ⟨e.1, isScanOf_goneEvents h⟩
    · exact ih h

end Names

end ShitUndo
