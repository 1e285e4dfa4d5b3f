import Mathlib.Algebra.Group.Int.Defs
import ShitUndo.Orchestrator
import ShitUndo.FileSystem

/-!
# The file executor

`FileExecutor` (`executors/file.rs`): what each file-tier inverse op does to the file system.
Every function returns the file system as it is left behind, also when it fails half-way.

The temporary file of a content restore is created, written and renamed within one op under a
name of its own; the model has its net effect (a new inode at the path) and its error cases.
-/

namespace ShitUndo

/-- The result of a fallible step, with the file system it leaves behind. -/
abbrev Step := Except String Unit × Fs

/-! ## Shared steps -/

/-- `create_dir_all` over the ancestors of a path, from the root down. -/
def createDirs (h : Host) : List PathBuf → Fs → Except Errno Unit × Fs
  | [], fs => (.ok (), fs)
  | p :: rest, fs =>
    match fs.resolve p with
    | some i =>
      if (fs.inode i).kind = .directory then createDirs h rest fs else (.error .enotdir, fs)
    | none =>
      match fs.mkdir h p with
      | .error e => (.error e, fs)
      | .ok fs' => createDirs h rest fs'

def createDirAll (h : Host) (p : PathBuf) (fs : Fs) : Except Errno Unit × Fs :=
  createDirs h (p.inits.filter (fun q => q ≠ [])) fs

/-- `if !parent.exists() { create_dir_all(parent)? }`. -/
def ensureParent (h : Host) (parent : PathBuf) (fs : Fs) : Step :=
  if (fs.resolve parent).isSome then (.ok (), fs)
  else
    match createDirAll h parent fs with
    | (.ok (), fs') => (.ok (), fs')
    | (.error e, fs') => (.error ("mkdir -p " ++ parent.debug ++ ": " ++ e.text), fs')

/-- A number in octal, as `{:o}` prints it. -/
def octal (n : Nat) : String := String.ofList (Nat.toDigits 8 n)

/-- A number in hexadecimal, as `{:x}` prints it. -/
def hexadecimal (n : Nat) : String := String.ofList (Nat.toDigits 16 n)

/-! ## Content -/

/-- Write `bytes` to a temporary file in `parent` and rename it over `path`. -/
def placeContent (h : Host) (parent path : PathBuf) (bytes : Bytes) (fs : Fs) : Step :=
  let tmpPath := parent ++ [.normal (h.tmpName fs)]
  let written := h.attempt .create tmpPath fs <|
    match fs.parentIsDir tmpPath with
    | .error e => .error e
    | .ok () => .ok fs
  match written with
  | .error e => (.error ("tmpfile write " ++ tmpPath.debug ++ ": " ++ e.text), fs)
  | .ok _ =>
    let renamed := h.attempt .rename path fs <|
      match fs.node path with
      | some n =>
        if n.kind = .directory then .error .eisdir
        else .ok (fs.create h path (h.newInode .regular (h.masked 0o666) bytes ""))
      | none => .ok (fs.create h path (h.newInode .regular (h.masked 0o666) bytes ""))
    match renamed with
    | .error e =>
      (.error ("rename " ++ tmpPath.debug ++ " -> " ++ path.debug ++ ": " ++ e.text), fs)
    | .ok fs' => (.ok (), fs')

/-- `restore_content_inner`: read the blob, make sure of the parent, place the bytes. -/
def restoreContentInner (h : Host) (path : PathBuf) (blob : BlobHash) (fs : Fs) : Step :=
  match h.readBlob blob with
  | .error e => (.error ("blob read for " ++ path.debug ++ ": " ++ e), fs)
  | .ok bytes =>
    match path.parent with
    | none =>
      (.error ("path " ++ path.debug ++ " has no parent dir; cannot place tmpfile"), fs)
    | some parent =>
      match ensureParent h parent fs with
      | (.error e, fs') => (.error e, fs')
      | (.ok (), fs') => placeContent h parent path bytes fs'

/-! ## Metadata -/

inductive MetadataRestoreError where
  | chownNeedsPrivilege (uid gid : Nat)
  | other (err : String)
deriving DecidableEq, Repr

/-- `should_skip_restore`: attributes the kernel stamps itself on macOS. -/
def shouldSkipRestore (os : Os) (name : String) : Bool :=
  decide (os = .macos ∧ name = "com.apple.provenance")

/-- `restore_user_xattrs`: converge the attributes to the captured set. Failures are logged. -/
def restoreUserXattrs (h : Host) (path : PathBuf) (target : List (String × Bytes)) (fs : Fs) : Fs :=
  match h.deny .openRead path fs, h.deny .setxattr path fs, fs.resolve path with
  | none, none, some i =>
    fs.modifyInode i fun n =>
      { n with xattrs := fun k => if shouldSkipRestore h.os k then n.xattrs k else target.lookup k }
  | _, _, _ => fs

def restoreFlagsValue (h : Host) (path : PathBuf) (flags : Nat) (fs : Fs) : Step :=
  match h.os with
  | .linux => (.error "RestoreFlags is unsupported on this operating system", fs)
  | _ =>
    match fs.node path with
    | none =>
      (.error ("lstat for chflags-probe " ++ path.debug ++ ": " ++ Errno.enoent.text), fs)
    | some n =>
      if n.flags = flags then (.ok (), fs)
      else
        match fs.chflags h path flags with
        | .error e =>
          (.error ("chflags " ++ path.debug ++ " -> 0x" ++ hexadecimal flags ++ ": " ++ e.text), fs)
        | .ok fs' => (.ok (), fs')

/-- The time `utimensat` is given: seconds that do not fit `i64` are clamped. -/
def utimesValue (nanos : Int) : Int :=
  let secs := nanos / 1000000000
  let clamped := if -(2 ^ 63) ≤ secs ∧ secs < 2 ^ 63 then secs else 2 ^ 63 - 1
  clamped * 1000000000 + nanos % 1000000000

def restoreMtimeOnly (h : Host) (path : PathBuf) (target : FileMetadata) (fs : Fs) : Step :=
  if target.mtimeUnixNanos = 0 then (.ok (), fs)
  else
    match fs.utimensat h path (utimesValue target.mtimeUnixNanos) with
    | .error e => (.error ("utimensat " ++ path.debug ++ ": " ++ e.nixText), fs)
    | .ok fs' => (.ok (), fs')

/-- `restore_metadata_inner`: owner, mode, attributes, flags (not on Linux), then time. -/
def restoreMetadataInner (h : Host) (path : PathBuf) (target : FileMetadata) (fs : Fs) :
    Except MetadataRestoreError Unit × Fs :=
  let modeOnly := target.mode &&& 0o7777
  match fs.chown h path target.uid target.gid with
  | .error .eperm => (.error (.chownNeedsPrivilege target.uid target.gid), fs)
  | .error e =>
    (.error (.other ("chown " ++ path.debug ++ " -> uid=" ++ toString target.uid ++ " gid="
      ++ toString target.gid ++ ": " ++ e.nixText)), fs)
  | .ok owned =>
    match owned.chmod h path modeOnly with
    | .error e =>
      (.error (.other ("chmod " ++ path.debug ++ " -> " ++ octal modeOnly ++ ": " ++ e.text)),
        owned)
    | .ok moded =>
      let attributed := restoreUserXattrs h path target.xattrs moded
      let flagged := if h.os = .linux then attributed
        else (restoreFlagsValue h path target.flags attributed).2
      match restoreMtimeOnly h path target flagged with
      | (.ok (), fs') => (.ok (), fs')
      | (.error e, fs') => (.error (.other e), fs')

/-- `apply_restore_metadata`: an owner change the daemon may not make goes through the helper. -/
def applyRestoreMetadata (h : Host) (path : PathBuf) (target : FileMetadata) (fs : Fs) :
    ExecutionOutcome × Fs :=
  match restoreMetadataInner h path target fs with
  | (.ok (), fs') => (.applied, fs')
  | (.error (.other e), fs') => (.failed e, fs')
  | (.error (.chownNeedsPrivilege uid gid), fs') =>
    let owner := " -> uid=" ++ toString uid ++ " gid=" ++ toString gid
    match h.routerChown path uid gid fs' with
    | .applied after =>
      let modeOnly := target.mode &&& 0o7777
      match after.chmod h path modeOnly with
      | .error e =>
        (.failed ("chmod " ++ path.debug ++ " -> " ++ octal modeOnly ++ ": " ++ e.text), after)
      | .ok moded =>
        match restoreMtimeOnly h path target moded with
        | (.ok (), fs'') => (.applied, fs'')
        | (.error e, fs'') => (.failed e, fs'')
    | .outOfScope =>
      (.failed ("chown " ++ path.debug ++ owner ++ ": helper refused (out of session scope)"), fs')
    | .permissionDenied =>
      (.failed ("chown " ++ path.debug ++ owner ++ ": EPERM (helper also lacks privilege)"), fs')
    | .notFound =>
      (.failed ("chown " ++ path.debug ++ ": ENOENT (path vanished between capture and undo)"), fs')
    | .failed err => (.failed ("chown " ++ path.debug ++ " via helper: " ++ err), fs')

/-! ## Names -/

/-- `unlink_inner`: a directory goes with everything in it. -/
def unlinkInner (h : Host) (path : PathBuf) (fs : Fs) : Step :=
  match fs.node path with
  | none => (.error ("lstat " ++ path.debug ++ ": " ++ Errno.enoent.text), fs)
  | some n =>
    if n.kind = .directory then
      match fs.rmdir h path with
      | .ok fs' => (.ok (), fs')
      | .error .enotempty =>
        match fs.removeDirAll h path with
        | (.ok (), fs') => (.ok (), fs')
        | (.error e, fs') => (.error ("rmdir-recursive " ++ path.debug ++ ": " ++ e.text), fs')
      | .error e => (.error ("rmdir " ++ path.debug ++ ": " ++ e.text), fs)
    else
      match fs.unlink h path with
      | .ok fs' => (.ok (), fs')
      | .error e => (.error ("unlink " ++ path.debug ++ ": " ++ e.text), fs)

/-- `File::create`: a new file, or an existing one truncated, where the symlinks at the end of the
path lead. -/
def Fs.openCreate (h : Host) (path : PathBuf) (fs : Fs) : Except Errno Fs :=
  h.attempt .create path fs <|
    match fs.followName 40 path with
    | none => .error .eloop
    | some name =>
      match fs.lookup name with
      | none =>
        match fs.parentIsDir name with
        | .error e => .error e
        | .ok () => .ok (fs.create h name (h.newInode .regular (h.masked 0o666) [] ""))
      | some i =>
        if (fs.inode i).kind = .directory then .error .eisdir
        else .ok (fs.modifyInode i fun n => { n with content := [] })

/-- `set_permissions` after a path was recreated. -/
def chmodRecreated (h : Host) (path : PathBuf) (permBits : Nat) (fs : Fs) : Step :=
  match fs.chmod h path permBits with
  | .ok fs' => (.ok (), fs')
  | .error e =>
    (.error ("chmod " ++ path.debug ++ " -> " ++ octal permBits ++ ": " ++ e.text), fs)

/-- `impl Debug for FileKind`. -/
def FileKind.debug : FileKind → String
  | regular => "Regular"
  | directory => "Directory"
  | symlink => "Symlink"
  | fifo => "Fifo"
  | socket => "Socket"
  | blockDevice => "BlockDevice"
  | charDevice => "CharDevice"

/-- `recreate_path_inner` once the parent is there. -/
def recreateIn (h : Host) (path : PathBuf) (kind : FileKind) (mode : Nat) (fs : Fs) : Step :=
  let permBits := mode &&& 0o7777
  match kind with
  | .regular =>
    match fs.openCreate h path with
    | .error e => (.error ("create " ++ path.debug ++ ": " ++ e.text), fs)
    | .ok fs' => chmodRecreated h path permBits fs'
  | .directory =>
    match fs.mkdir h path with
    | .ok fs' => chmodRecreated h path permBits fs'
    | .error e =>
      -- a child's restore may have made the directory already
      if e = .eexist ∧ (fs.node path).any (fun n => n.kind = .directory) then
        chmodRecreated h path permBits fs
      else (.error ("mkdir " ++ path.debug ++ ": " ++ e.text), fs)
  | .symlink =>
    (.error ("RecreatePath for symlink at " ++ path.debug ++ " is a planner bug — "
      ++ "use InverseOp::CreateSymlink which carries the target"), fs)
  | other =>
    (.error ("RecreatePath for kind " ++ other.debug ++ " at " ++ path.debug
      ++ ": needs mknod(2) with CAP_SYS_ADMIN — deferred to DR-15.2"), fs)

def recreatePathInner (h : Host) (path : PathBuf) (kind : FileKind) (mode : Nat) (fs : Fs) : Step :=
  match path.parent with
  | none => recreateIn h path kind mode fs
  | some parent =>
    match ensureParent h parent fs with
    | (.error e, fs') => (.error e, fs')
    | (.ok (), fs') => recreateIn h path kind mode fs'

/-- The outcome of a step. -/
def stepOutcome : Step → ExecutionOutcome × Fs
  | (.ok (), fs) => (.applied, fs)
  | (.error e, fs) => (.failed e, fs)

/-- `apply_recreate_path`: fifos and sockets go through the helper's `mknod`. -/
def applyRecreatePath (h : Host) (path : PathBuf) (kind : FileKind) (mode : Nat) (fs : Fs) :
    ExecutionOutcome × Fs :=
  if kind = .fifo ∨ kind = .socket then
    let made : Step := match path.parent with
      | none => (.ok (), fs)
      | some parent => ensureParent h parent fs
    match made with
    | (.error e, fs') => (.failed e, fs')
    | (.ok (), fs') =>
      let what := "mknod " ++ path.debug ++ " kind=" ++ kind.debug
      match h.routerMknod path mode fs' with
      | .applied after => (.applied, after)
      | .outOfScope => (.failed (what ++ ": helper refused (out of session scope)"), fs')
      | .permissionDenied => (.failed (what ++ ": EPERM (helper lacks CAP_MKNOD?)"), fs')
      | .notFound => (.failed (what ++ ": parent path missing"), fs')
      | .failed err => (.failed (what ++ ": " ++ err), fs')
  else stepOutcome (recreatePathInner h path kind mode fs)

def applyRename (h : Host) (src dst : PathBuf) (fs : Fs) : ExecutionOutcome × Fs :=
  match fs.rename h src dst with
  | .ok fs' => (.applied, fs')
  | .error e => (.failed ("rename " ++ src.debug ++ " -> " ++ dst.debug ++ ": " ++ e.text), fs)

def applyCreateSymlink (h : Host) (target : String) (path : PathBuf) (fs : Fs) :
    ExecutionOutcome × Fs :=
  let made := h.attempt .symlink path fs <|
    match fs.lookup path, fs.parentIsDir path with
    | some _, _ => .error .eexist
    | none, .error e => .error e
    | none, .ok () => .ok (fs.create h path (h.newInode .symlink 0o777 [] target))
  match made with
  | .ok fs' => (.applied, fs')
  | .error e =>
    (.failed ("symlink " ++ path.debug ++ " -> " ++ debugText target ++ ": " ++ e.text), fs)

def applyCreateHardlink (h : Host) (source target : PathBuf) (fs : Fs) : ExecutionOutcome × Fs :=
  let made := h.attempt .link target fs <|
    match fs.lookup source, fs.lookup target, fs.parentIsDir target with
    | none, _, _ => .error .enoent
    | some _, some _, _ => .error .eexist
    | some _, none, .error e => .error e
    | some i, none, .ok () =>
      if (fs.inode i).kind = .directory then .error .eperm else .ok (fs.link target i)
  match made with
  | .ok fs' => (.applied, fs')
  | .error e =>
    (.failed ("link " ++ source.debug ++ " -> " ++ target.debug ++ ": " ++ e.text), fs)

/-- `apply_file_extend`: cut an appended file back to the size it had. -/
def applyFileExtend (h : Host) (path : PathBuf) (truncateTo : Nat) (fs : Fs) :
    ExecutionOutcome × Fs :=
  match fs.resolve path with
  | none => (.failed ("FileExtend: stat " ++ path.debug ++ ": " ++ Errno.enoent.text), fs)
  | some i =>
    let size := ((fs.inode i).stat h.os).size
    if size < truncateTo then
      (.failed ("FileExtend: current size " ++ toString size ++ " < pre-append size "
        ++ toString truncateTo ++ "; refusing to grow file with zeros "
        ++ "(something else truncated the file since capture)"), fs)
    else
      let opened := h.attempt .openWrite path fs <|
        if (fs.inode i).kind = .directory then .error .eisdir else .ok fs
      match opened with
      | .error e => (.failed ("FileExtend: open " ++ path.debug ++ ": " ++ e.text), fs)
      | .ok _ =>
        let cut := h.attempt .truncate path fs <|
          if (fs.inode i).kind ≠ .regular then .error .einval
          else .ok (fs.modifyInode i fun n =>
            { n with content := n.content.take truncateTo, mtime := h.now })
        match cut with
        | .error e =>
          (.failed ("FileExtend: truncate " ++ path.debug ++ " to " ++ toString truncateTo
            ++ ": " ++ e.text), fs)
        | .ok fs' => (.applied, fs')

/-! ## The executor -/

/-- What the executor does when it is not a dry run. -/
def applyFileOp (h : Host) (op : InverseOp) (fs : Fs) : ExecutionOutcome × Fs :=
  match op with
  | .restoreContent _ path blob => stepOutcome (restoreContentInner h path blob fs)
  | .restoreMetadata _ path target => applyRestoreMetadata h path target fs
  | .restoreFlags _ path flags => stepOutcome (restoreFlagsValue h path flags fs)
  | .unlink path => stepOutcome (unlinkInner h path fs)
  | .recreatePath path kind mode => applyRecreatePath h path kind mode fs
  | .rename src dst => applyRename h src dst fs
  | .createSymlink target path => applyCreateSymlink h target path fs
  | .createHardlink source target => applyCreateHardlink h source target fs
  | .fileExtend path truncateTo => applyFileExtend h path truncateTo fs
  | op =>
    -- no other op is of the file tier
    (.failed ("FileExecutor: unexpected variant " ++ h.debugOp op
      ++ " after supports() said yes — bug?"), fs)

/-- `FileExecutor::execute`. -/
def executeFileOp (h : Host) (op : InverseOp) (dryRun : Bool) (_policy : ConflictPolicy)
    (fs : Fs) : ExecutionOutcome × Fs :=
  if op.tier ≠ .files then
    (.failed ("FileExecutor cannot execute op of tier " ++ op.tier.debug), fs)
  else if dryRun then (.wouldApply, fs)
  else applyFileOp h op fs

/-- The file system as a runtime of the orchestrator. -/
def fileRuntime (h : Host) : Runtime Fs where
  probe := fun fs => fs.probe h
  execute := executeFileOp h

end ShitUndo
