import ShitUndo.Tree
import ShitUndo.Lib.KeyMap
import Mathlib.Algebra.Group.Nat.Defs

/-!
# Capture on Linux

The helper's handlers for LSM events (`shit-helper/src/capture/linux.rs`). The kernel reports an
operation by inode, or by parent directory and name; a handler runs some time later, rebuilds the
path from what it has cached, and sends the daemon what undo will need.

* The handlers are functions of the state, of the tree as it is when they run, and of what the
  machine answers in between (`HelperIo`). They return the new state and the messages sent.
* Inodes in the tree have the device number of the kernel; `stat` shows it in another encoding
  (`InodeRef.user`), and that is what the helper goes by.
* Log lines and the count of messages that could not be sent are left out, and so is the fanotify
  tier.
-/

namespace ShitUndo

/-! ## Identities -/

/-- `kernel_dev_to_userspace`, where `x - (x &&& mask)` clears bits. A kernel device number has 32
bits, so nothing is shifted out of 64. -/
def kernelDevToUserspace (kdev : Nat) : Nat :=
  let major := kdev >>> 20
  let minor := kdev &&& 0xfffff
  (minor &&& 0xff) ||| ((major &&& 0xfff) <<< 8) ||| ((minor - (minor &&& 0xff)) <<< 12)
    ||| ((major - (major &&& 0xfff)) <<< 32)

/-- An inode as `stat` shows it. -/
def InodeRef.user (i : InodeRef) : InodeRef := ⟨kernelDevToUserspace i.dev, i.inode⟩

theorem kernelDevToUserspace_eq (kdev : Nat) :
    kernelDevToUserspace kdev =
      kdev % 2 ^ 8 + (kdev / 2 ^ 20) % 2 ^ 12 * 2 ^ 8 + (kdev % 2 ^ 20) / 2 ^ 8 * 2 ^ 20 +
        kdev / 2 ^ 32 * 2 ^ 44 := by
  have hmajor : kdev >>> 20 = kdev / 2 ^ 20 := Nat.shiftRight_eq_div_pow kdev 20
  have hminor : kdev &&& 0xfffff = kdev % 2 ^ 20 := Nat.and_two_pow_sub_one_eq_mod kdev 20
  have hlow : ∀ n, n &&& 0xff = n % 2 ^ 8 := fun n => Nat.and_two_pow_sub_one_eq_mod n 8
  have hmid : ∀ n, n &&& 0xfff = n % 2 ^ 12 := fun n => Nat.and_two_pow_sub_one_eq_mod n 12
  have hthird : (kdev % 2 ^ 20 - kdev % 2 ^ 20 % 2 ^ 8) <<< 12 =
      (kdev % 2 ^ 20 / 2 ^ 8) <<< 20 := by
    rw [Nat.shiftLeft_eq, Nat.shiftLeft_eq]
    omega
  have hfourth : (kdev / 2 ^ 20 - kdev / 2 ^ 20 % 2 ^ 12) <<< 32 =
      (kdev / 2 ^ 20 / 2 ^ 12) <<< 44 := by
    rw [Nat.shiftLeft_eq, Nat.shiftLeft_eq]
    omega
  unfold kernelDevToUserspace
  dsimp only
  rw [hmajor, hminor, hlow, hmid, hthird, hfourth,
    Nat.or_comm (kdev % 2 ^ 20 % 2 ^ 8), ← Nat.shiftLeft_add_eq_or_of_lt (by omega),
    Nat.or_comm _ ((kdev % 2 ^ 20 / 2 ^ 8) <<< 20), ← Nat.shiftLeft_add_eq_or_of_lt,
    Nat.or_comm _ ((kdev / 2 ^ 20 / 2 ^ 12) <<< 44), ← Nat.shiftLeft_add_eq_or_of_lt]
  · simp only [Nat.shiftLeft_eq]
    omega
  · simp only [Nat.shiftLeft_eq]
    omega
  · simp only [Nat.shiftLeft_eq]
    omega

theorem kernelDevToUserspace_injective : Function.Injective kernelDevToUserspace := by
  have hfields : ∀ {x y z w x' y' z' w' : Nat}, x < 2 ^ 8 → y < 2 ^ 12 → z < 2 ^ 12 →
      x' < 2 ^ 8 → y' < 2 ^ 12 → z' < 2 ^ 12 →
      x + y * 2 ^ 8 + z * 2 ^ 20 + w * 2 ^ 44 = x' + y' * 2 ^ 8 + z' * 2 ^ 20 + w' * 2 ^ 44 →
      x = x' ∧ y = y' ∧ z = z' ∧ w = w' := by
    intro x y z w x' y' z' w' hx hy hz hx' hy' hz' heq
    omega
  intro a b hab
  rw [kernelDevToUserspace_eq, kernelDevToUserspace_eq] at hab
  obtain ⟨hx, hy, hz, hw⟩ := hfields (by omega) (by omega) (by omega) (by omega) (by omega)
    (by omega) hab
  clear hab
  omega

theorem InodeRef.user_injective : Function.Injective InodeRef.user := by
  rintro ⟨d, n⟩ ⟨d', n'⟩ huser
  obtain ⟨hdev, hino⟩ := InodeRef.mk.inj huser
  exact InodeRef.mk.injEq d n d' n' ▸ ⟨kernelDevToUserspace_injective hdev, hino⟩

/-! ## Messages -/

/-- `HelperResponse::CapturedPreImage`. `staged` is the content of the staging file whose descriptor
goes with the message, if one does (`fd_sent_via_scm`). -/
structure CapturedPreImage where
  command : CommandId
  ref : InodeRef
  path : Option String
  blobHash : BlobHash
  storedBytes : Nat
  postContentHash : Option BlobHash
  mode : Nat
  uid : Nat
  gid : Nat
  mtimeUnixNanos : Int
  xattrs : List (String × Bytes)
  flags : Nat
  isDelete : Bool
  staged : Option Bytes
deriving DecidableEq, Repr

/-- `TreeOpWire`, as far as these handlers send it. -/
inductive TreeOpWire where
  | create (ref : InodeRef) (path : String) (kind : FileKind) (mode : Nat)
  | rename (src dst : String) (ref : InodeRef)
deriving DecidableEq, Repr

/-- `HelperResponse`, as far as these handlers send it. -/
inductive HelperResponse where
  | capturedPreImage (pre : CapturedPreImage)
  | treeMutation (command : CommandId) (op : TreeOpWire) (tsUnixNanos : Nat)
deriving DecidableEq, Repr

/-! ## Events -/

/-- `LsmUnlinkView`; `inode_rmdir` comes as one with `isDirectory`. -/
structure LsmUnlinkView where
  dev : Nat
  inode : Nat
  parentInode : Nat
  basename : String
  isDirectory : Bool
deriving DecidableEq, Repr

structure LsmSetattrView where
  dev : Nat
  inode : Nat
  oldMode : Nat
  oldUid : Nat
  oldGid : Nat
deriving DecidableEq, Repr

/-- `LsmMkdirView` and `LsmCreateView`. -/
structure LsmCreateView where
  parentDev : Nat
  parentInode : Nat
  mode : Nat
  basename : String
deriving DecidableEq, Repr

/-- `LsmOpenView` and `LsmReleaseView`. -/
structure LsmOpenView where
  dev : Nat
  inode : Nat
deriving DecidableEq, Repr

structure LsmRenameView where
  dev : Nat
  inode : Nat
  oldParentInode : Nat
  newParentInode : Nat
  oldBasename : String
  newBasename : String
deriving DecidableEq, Repr

/-- An event from the kernel. -/
inductive LsmEvent where
  | unlink (ev : LsmUnlinkView)
  | setattr (ev : LsmSetattrView)
  | mkdir (ev : LsmCreateView)
  | create (ev : LsmCreateView)
  | opened (ev : LsmOpenView)
  | release (ev : LsmOpenView)
  | rename (ev : LsmRenameView)
deriving DecidableEq, Repr

/-! ## State -/

/-- `PreSnapshot`: content and metadata when the watch began, or when the file was made. -/
structure PreSnapshot where
  fileMeta : FileMetadata
  bytes : Bytes
deriving DecidableEq, Repr

/-- A descriptor the helper holds, by the inode it is open on. -/
structure HeldFd where
  ino : InodeRef
  pathOnly : Bool
deriving DecidableEq, Repr

structure PendingCreate where
  command : CommandId
  basename : String
  mode : Nat
deriving DecidableEq, Repr

/-- `WatchState`. An entry of `dedupe` says whether it is `invalidated`; the map from paths to
inodes is also read in order. -/
structure WatchState where
  dedupe : InodeRef → Option Bool
  preOpens : InodeRef → Option HeldFd
  preSnapshots : InodeRef → Option PreSnapshot
  dirPaths : InodeRef → Option PathBuf
  pendingCreates : InodeRef → List PendingCreate
  pathToInode : List (PathBuf × InodeRef)

/-- `WatchState::default`. -/
def WatchState.empty : WatchState where
  dedupe := fun _ => none
  preOpens := fun _ => none
  preSnapshots := fun _ => none
  dirPaths := fun _ => none
  pendingCreates := fun _ => []
  pathToInode := []

namespace WatchState

/-- `ws.dedupe.insert(key, DedupeEntry { invalidated })`. -/
def mark (ws : WatchState) (key : InodeRef) (invalidated : Bool) : WatchState :=
  { ws with dedupe := Function.update ws.dedupe key (some invalidated) }

/-- `ws.dir_paths.insert(key, dir)`. -/
def addDir (ws : WatchState) (key : InodeRef) (dir : PathBuf) : WatchState :=
  { ws with dirPaths := Function.update ws.dirPaths key (some dir) }

/-- `ws.pre_snapshots.insert(key, snap)`. -/
def addSnapshot (ws : WatchState) (key : InodeRef) (snap : PreSnapshot) : WatchState :=
  { ws with preSnapshots := Function.update ws.preSnapshots key (some snap) }

/-- `ws.pre_opens.insert(key, fd)` and `ws.path_to_inode.insert(path, key)`. -/
def hold (ws : WatchState) (key : InodeRef) (fd : HeldFd) (path : PathBuf) : WatchState :=
  { ws with preOpens := Function.update ws.preOpens key (some fd)
            pathToInode := KeyMap.insert PathBuf.le path key ws.pathToInode }

/-- `ws.pre_opens.remove(key)`. -/
def drop (ws : WatchState) (key : InodeRef) : WatchState :=
  { ws with preOpens := Function.update ws.preOpens key none }

section Fields

variable (ws : WatchState) (key : InodeRef)

@[simp] theorem mark_dedupe (invalidated : Bool) :
    (ws.mark key invalidated).dedupe = Function.update ws.dedupe key (some invalidated) := rfl

@[simp] theorem mark_preOpens (invalidated : Bool) :
    (ws.mark key invalidated).preOpens = ws.preOpens := rfl

@[simp] theorem mark_preSnapshots (invalidated : Bool) :
    (ws.mark key invalidated).preSnapshots = ws.preSnapshots := rfl

@[simp] theorem mark_dirPaths (invalidated : Bool) :
    (ws.mark key invalidated).dirPaths = ws.dirPaths := rfl

@[simp] theorem mark_pathToInode (invalidated : Bool) :
    (ws.mark key invalidated).pathToInode = ws.pathToInode := rfl

@[simp] theorem addDir_dirPaths (dir : PathBuf) :
    (ws.addDir key dir).dirPaths = Function.update ws.dirPaths key (some dir) := rfl

@[simp] theorem addSnapshot_preSnapshots (snap : PreSnapshot) :
    (ws.addSnapshot key snap).preSnapshots = Function.update ws.preSnapshots key (some snap) := rfl

@[simp] theorem hold_dedupe (fd : HeldFd) (path : PathBuf) :
    (ws.hold key fd path).dedupe = ws.dedupe := rfl

@[simp] theorem hold_preOpens (fd : HeldFd) (path : PathBuf) :
    (ws.hold key fd path).preOpens = Function.update ws.preOpens key (some fd) := rfl

@[simp] theorem hold_preSnapshots (fd : HeldFd) (path : PathBuf) :
    (ws.hold key fd path).preSnapshots = ws.preSnapshots := rfl

@[simp] theorem hold_pathToInode (fd : HeldFd) (path : PathBuf) :
    (ws.hold key fd path).pathToInode = KeyMap.insert PathBuf.le path key ws.pathToInode := rfl

@[simp] theorem drop_preOpens : (ws.drop key).preOpens = Function.update ws.preOpens key none := rfl

end Fields

end WatchState

/-! ## The machine -/

/-- What the machine answers while the helper runs: the names in a directory, whether a path that is
there can be opened and an open file read, what `/proc/self/fd` shows for a descriptor held, the
user xattrs of an inode, and whether bytes can be staged and messages sent. -/
structure HelperIo where
  readDir : PathBuf → Option (List String)
  opens : PathBuf → Bool
  reads : InodeRef → Bool
  fdPath : InodeRef → Option String
  userXattrs : InodeRef → List (String × Bytes)
  stages : Bytes → Bool
  sends : HelperResponse → Bool
  now : Nat

/-- `MAX_PRE_IMAGE_BYTES`: 1 GiB. -/
def maxPreImageBytes : Nat := 1024 * 1024 * 1024

namespace HelperIo

/-- A message, if it can be sent. -/
def deliver (io : HelperIo) (response : HelperResponse) : List HelperResponse :=
  if io.sends response then [response] else []

/-- `open` with `O_NOFOLLOW`: a symlink is refused, and so is a socket. -/
def openNoFollow (io : HelperIo) (fs : Fs) (path : PathBuf) : Option HeldFd :=
  match fs.lookup path with
  | none => none
  | some i =>
    if (fs.inode i).kind = .symlink ∨ (fs.inode i).kind = .socket ∨ io.opens path = false then none
    else some ⟨i, false⟩

def fstatMeta (io : HelperIo) (fs : Fs) (fd : HeldFd) : FileMetadata :=
  { (fs.inode fd.ino).stat .linux with xattrs := io.userXattrs fd.ino }

def readPreImage (io : HelperIo) (fs : Fs) (fd : HeldFd) : Option Bytes :=
  let content := (fs.inode fd.ino).content
  if fd.pathOnly || !io.reads fd.ino || decide (maxPreImageBytes < content.length) then none
  else some content

end HelperIo

/-! ## Paths -/

def shouldCaptureDedupe (dedupe : InodeRef → Option Bool) (key : InodeRef) : Bool :=
  match dedupe key with
  | none => true
  | some invalidated => invalidated

def resolveViaParent (dirPaths : InodeRef → Option PathBuf) (parent : InodeRef)
    (basename : String) : Option PathBuf :=
  (dirPaths parent).map fun dir => dir ++ [.normal basename]

/-- `strip_suffix(" (deleted)")`, or the path as it is. -/
def stripDeleted (path : String) : String :=
  let suffix := " (deleted)".toList
  if suffix <:+ path.toList then
    String.ofList (path.toList.take (path.toList.length - suffix.length))
  else path

/-- `resolve_inode_to_path`: what procfs shows, or the first path the inode is known by. -/
def resolveInodeToPath (io : HelperIo) (ws : WatchState) (key : InodeRef) : Option String :=
  match (ws.preOpens key).bind fun fd => io.fdPath fd.ino with
  | some path => some (stripDeleted path)
  | none => (KeyMap.keyOf ws.pathToInode key).map PathBuf.display

/-! ## Handlers -/

section Handlers

variable (io : HelperIo) (h : Host) (fs : Fs) (command : CommandId)

/-- A message with the content and metadata of a snapshot. -/
def PreSnapshot.toPreImage (snap : PreSnapshot) (key : InodeRef) (path : String)
    (postContentHash : Option BlobHash) (isDelete : Bool) : CapturedPreImage :=
  { command := command, ref := key, path := some path, blobHash := h.blake3 snap.bytes,
    storedBytes := snap.bytes.length, postContentHash := postContentHash,
    mode := snap.fileMeta.mode, uid := snap.fileMeta.uid, gid := snap.fileMeta.gid,
    mtimeUnixNanos := snap.fileMeta.mtimeUnixNanos, xattrs := snap.fileMeta.xattrs, flags := 0,
    isDelete := isDelete, staged := some snap.bytes }

/-- The common end of the handlers that send a snapshot: stage it, find the path, send, and mark the
inode as captured. -/
def sendSnapshot (ws : WatchState) (key : InodeRef) (bytes : Bytes)
    (response : String → CapturedPreImage) : WatchState × List HelperResponse :=
  if !io.stages bytes then (ws, [])
  else
    match resolveInodeToPath io ws key with
    | none => (ws, [])
    | some path => (ws.mark key false, io.deliver (.capturedPreImage (response path)))

def handleLsmOpen (ws : WatchState) (ev : LsmOpenView) : WatchState × List HelperResponse :=
  let key := InodeRef.user ⟨ev.dev, ev.inode⟩
  if !shouldCaptureDedupe ws.dedupe key then (ws, [])
  else
    match ws.preSnapshots key with
    | none => (ws, [])
    | some snap =>
      sendSnapshot io ws key snap.bytes fun path => snap.toPreImage h command key path none false

/-- `handle_lsm_setattr`: the old attributes are in the event. An inode without a snapshot is
marked, and nothing sent. -/
def handleLsmSetattr (ws : WatchState) (ev : LsmSetattrView) : WatchState × List HelperResponse :=
  let key := InodeRef.user ⟨ev.dev, ev.inode⟩
  if !shouldCaptureDedupe ws.dedupe key then (ws, [])
  else
    match ws.preSnapshots key with
    | none => (ws.mark key false, [])
    | some snap =>
      sendSnapshot io ws key snap.bytes fun path =>
        { snap.toPreImage h command key path none false with
          mode := ev.oldMode, uid := ev.oldUid, gid := ev.oldGid, xattrs := [] }

/-- `handle_lsm_release`: only if the content is not what it was. -/
def handleLsmRelease (ws : WatchState) (ev : LsmOpenView) : WatchState × List HelperResponse :=
  let key := InodeRef.user ⟨ev.dev, ev.inode⟩
  if !shouldCaptureDedupe ws.dedupe key then (ws, [])
  else
    match ws.preSnapshots key, ws.preOpens key with
    | some snap, some fd =>
      match io.readPreImage fs fd with
      | none => (ws, [])
      | some current =>
        let postHash := h.blake3 current
        if h.blake3 snap.bytes = postHash then (ws, [])
        else
          sendSnapshot io ws key snap.bytes fun path =>
            snap.toPreImage h command key path (some postHash) false
    | _, _ => (ws, [])

/-- What is known of a file that is being removed: its size, hash and content, and its metadata. -/
structure UnlinkCapture where
  storedBytes : Nat
  blobHash : BlobHash
  staged : Option Bytes
  fileMeta : Option FileMetadata

/-- `(0, [0u8; 32], None, meta)`. -/
def UnlinkCapture.marker (fileMeta : Option FileMetadata) : UnlinkCapture :=
  ⟨0, ⟨0⟩, none, fileMeta⟩

/-- What `handle_lsm_unlink` captures through the descriptor it has. -/
def captureUnlinked (key : InodeRef) (isDirectory : Bool) (found : Option HeldFd) : UnlinkCapture :=
  match found with
  | none => .marker none
  | some fd =>
    let kind := (fs.inode fd.ino).kind
    let fileMeta := io.fstatMeta fs fd
    if fd.ino.user ≠ key then .marker none
    else if isDirectory then .marker (if kind = .directory then some fileMeta else none)
    else if kind = .fifo ∨ kind = .socket then .marker (some fileMeta)
    else if kind ≠ .regular then .marker none
    else
      match io.readPreImage fs fd with
      | none => .marker none
      | some bytes =>
        if io.stages bytes then ⟨bytes.length, h.blake3 bytes, some bytes, some fileMeta⟩
        else .marker none

def handleLsmUnlink (ws : WatchState) (ev : LsmUnlinkView) : WatchState × List HelperResponse :=
  let key := InodeRef.user ⟨ev.dev, ev.inode⟩
  let ws := ws.mark key true
  match resolveViaParent ws.dirPaths ⟨key.dev, ev.parentInode⟩ ev.basename with
  | none => (ws, [])
  | some path =>
    -- a descriptor held from before, or a race for one
    let found := (ws.preOpens key).or (io.openNoFollow fs path)
    let capture := captureUnlinked io h fs key ev.isDirectory found
    let fileMeta := capture.fileMeta
    (ws.drop key, io.deliver <| .capturedPreImage
      { command := command, ref := key, path := some path.display, blobHash := capture.blobHash,
        storedBytes := capture.storedBytes, postContentHash := none,
        mode := (fileMeta.map FileMetadata.mode).getD 0,
        uid := (fileMeta.map FileMetadata.uid).getD 0,
        gid := (fileMeta.map FileMetadata.gid).getD 0,
        mtimeUnixNanos := (fileMeta.map FileMetadata.mtimeUnixNanos).getD 0,
        xattrs := (fileMeta.map FileMetadata.xattrs).getD [], flags := 0, isDelete := true,
        staged := capture.staged })

/-- The kind and identity `process_lsm_create_resolved` reports; a file it could not open is taken
for a regular one. Other kinds are not reported. -/
def createdAs (found : Option HeldFd) : Option (InodeRef × FileKind) :=
  match found with
  | none => some (⟨0, 0⟩, .regular)
  | some fd =>
    let kind := (fs.inode fd.ino).kind
    if kind = .regular ∨ kind = .fifo ∨ kind = .socket then some (fd.ino.user, kind) else none

/-- What `process_lsm_create_resolved` keeps of a file it has opened. -/
def stashCreated (ws : WatchState) (path : PathBuf) (fd : HeldFd) : WatchState :=
  let key := fd.ino.user
  let ws :=
    if (fs.inode fd.ino).kind = .regular then
      match io.readPreImage fs fd with
      | some bytes => ws.addSnapshot key ⟨io.fstatMeta fs fd, bytes⟩
      | none => ws
    else ws
  (ws.hold key fd path).mark key false

/-- `process_lsm_create_resolved`: whatever is at the path now is taken for the file created. -/
def processLsmCreateResolved (ws : WatchState) (path : PathBuf) (mode : Nat) :
    WatchState × List HelperResponse :=
  let found := io.openNoFollow fs path
  match createdAs fs found with
  | none => (ws, [])
  | some (ref, kind) =>
    let response : HelperResponse :=
      .treeMutation command (.create ref path.display kind mode) io.now
    if !io.sends response then (ws, [])
    else
      match found with
      | none => (ws, [response])
      | some fd => (stashCreated io fs ws path fd, [response])

/-- `handle_lsm_create`: if the parent is not known yet, wait for its `mkdir`. -/
def handleLsmCreate (ws : WatchState) (ev : LsmCreateView) : WatchState × List HelperResponse :=
  let parent := InodeRef.user ⟨ev.parentDev, ev.parentInode⟩
  match resolveViaParent ws.dirPaths parent ev.basename with
  | some path => processLsmCreateResolved io fs command ws path ev.mode
  | none =>
    let queued := ws.pendingCreates parent ++ [⟨command, ev.basename, ev.mode⟩]
    ({ ws with pendingCreates := Function.update ws.pendingCreates parent queued }, [])

/-- The creates that were waiting for a directory, one after the other. -/
def drainPending (dir : PathBuf) :
    List PendingCreate → WatchState × List HelperResponse → WatchState × List HelperResponse
  | [], acc => acc
  | pc :: rest, (ws, sent) =>
    let (ws', sent') :=
      processLsmCreateResolved io fs pc.command ws (dir ++ [.normal pc.basename]) pc.mode
    drainPending dir rest (ws', sent ++ sent')

/-- `symlink_metadata` of a directory just made. -/
def statDir (dir : PathBuf) : InodeRef :=
  match fs.lookup dir with
  | some i => if (fs.inode i).kind = .directory then i.user else ⟨0, 0⟩
  | none => ⟨0, 0⟩

def handleLsmMkdir (ws : WatchState) (ev : LsmCreateView) : WatchState × List HelperResponse :=
  match resolveViaParent ws.dirPaths (InodeRef.user ⟨ev.parentDev, ev.parentInode⟩)
      ev.basename with
  | none => (ws, [])
  | some dir =>
    let ref := statDir fs dir
    let sent := io.deliver
      (.treeMutation command (.create ref dir.display .directory ev.mode) io.now)
    if ref.dev = 0 then (ws, sent)
    else
      let drained := ws.pendingCreates ref
      let ws := { ws.addDir ref dir with
        pendingCreates := Function.update ws.pendingCreates ref [] }
      drainPending io fs dir drained (ws, sent)

/-- The pre-image of what a rename overwrites, by the inode last known at the destination. -/
def clobberedPreImage (ws : WatchState) (dst : PathBuf) : List HelperResponse :=
  match KeyMap.get ws.pathToInode dst with
  | none => []
  | some key =>
    match ws.preSnapshots key with
    | none => []
    | some snap =>
      if io.stages snap.bytes then
        io.deliver (.capturedPreImage (snap.toPreImage h command key dst.display none true))
      else []

def handleLsmRename (ws : WatchState) (ev : LsmRenameView) : WatchState × List HelperResponse :=
  let dev := kernelDevToUserspace ev.dev
  match resolveViaParent ws.dirPaths ⟨dev, ev.oldParentInode⟩ ev.oldBasename,
      resolveViaParent ws.dirPaths ⟨dev, ev.newParentInode⟩ ev.newBasename with
  | some src, some dst =>
    (ws, clobberedPreImage io h command ws dst ++ io.deliver (.treeMutation command
      (.rename src.display dst.display ⟨dev, ev.inode⟩) io.now))
  | _, _ => (ws, [])

/-- The handler of an event. -/
def handleLsm (ws : WatchState) : LsmEvent → WatchState × List HelperResponse
  | .unlink ev => handleLsmUnlink io h fs command ws ev
  | .setattr ev => handleLsmSetattr io h command ws ev
  | .mkdir ev => handleLsmMkdir io fs command ws ev
  | .create ev => handleLsmCreate io fs command ws ev
  | .opened ev => handleLsmOpen io h command ws ev
  | .release ev => handleLsmRelease io h fs command ws ev
  | .rename ev => handleLsmRename io h command ws ev

end Handlers

end ShitUndo
