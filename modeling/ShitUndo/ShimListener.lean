import ShitUndo.Shim

/-!
# The shim listener

`ingest_notification` (`shitd/src/shim_listener.rs`): how the daemon journals what the shim tells
it. The result is the list of events it put in the index, with the ids the index gave them; a
write that fails is logged by the daemon and leaves nothing.

* `ingestNotification` has every arm, the calls that change names included.
-/

namespace ShitUndo

/-- The daemon's stores and what it can see of the file system when it handles a notification. -/
structure ListenerEnv where
  blobPut : Bytes → Except String (BlobHash × Nat × Bool)
  putBlobRecord : BlobHash → Nat → Bool → TimePoint → Except String Unit
  putEvent : CaptureEvent → Except String EventId
  readAllUserXattrs : String → List (String × Bytes)
  inodeOf : String → Option InodeRef
  pathInWatchedSubtree : PathBuf → Bool

/-! ## Pre-images -/

/-- `BTreeMap::insert`. -/
def insertXattr (name : String) (value : Bytes) (xattrs : List (String × Bytes)) :
    List (String × Bytes) :=
  (xattrs.filter (fun e => e.1 ≠ name)).orderedInsert (fun a b => a.1 ≤ b.1) (name, value)

/-- `build_xattrs_target`: the current attributes, with the captured one as it was. -/
def buildXattrsTarget (env : ListenerEnv) (path : String) (xattrPre : Option XattrPreImage) :
    List (String × Bytes) :=
  let target := env.readAllUserXattrs path
  match xattrPre with
  | none => target
  | some ⟨name, some value⟩ => insertXattr name value target
  | some ⟨name, none⟩ => target.filter (fun e => e.1 ≠ name)

/-- A complete event as the listener hands it to the index. -/
def newEvent (command : CommandId) (ts : TimePoint) (kind : CaptureEventKind) : CaptureEvent :=
  { id := ⟨0⟩, command := command, ts := ts, isPartial := false, kind := kind }

/-- `index.put_event`: the event as it is read back, under its id. -/
def ListenerEnv.journal (env : ListenerEnv) (event : CaptureEvent) : Except String CaptureEvent :=
  match env.putEvent event with
  | .ok id => .ok { event with id := id }
  | .error e => .error e

def ingestPreImageWithSource (env : ListenerEnv) (command : CommandId) (pre : ShimPreImage)
    (source : FilePreImageSource) (ts : TimePoint) : Except String CaptureEvent :=
  match env.blobPut pre.bytes with
  | .error e => .error ("blob put: " ++ e)
  | .ok (blobHash, storedBytes, compressed) =>
    match env.putBlobRecord blobHash storedBytes compressed ts with
    | .error e => .error ("put_blob_record: " ++ e)
    | .ok () =>
      let fileMeta : FileMetadata :=
        { mode := pre.mode, uid := pre.uid, gid := pre.gid, size := pre.size,
          mtimeUnixNanos := pre.mtimeUnixNanos,
          xattrs := buildXattrsTarget env pre.path pre.xattr, acl := none, flags := pre.flags }
      let event := newEvent command ts (.filePreImage ⟨pre.dev, pre.inode⟩
        (PathBuf.ofString pre.path) blobHash fileMeta none source)
      match env.journal event with
      | .error e => .error ("put_event: " ++ e)
      | .ok journaled => .ok journaled

def ingestPreImage (env : ListenerEnv) (command : CommandId) (pre : ShimPreImage)
    (ts : TimePoint) : Except String CaptureEvent :=
  ingestPreImageWithSource env command pre .other ts

/-- What an attempt left in the journal. -/
def journaled : Except String CaptureEvent → List CaptureEvent
  | .ok ev => [ev]
  | .error _ => []

/-! ## Names -/

/-- `arg.split_once('\t')`. -/
def splitOnceTab (arg : String) : Option (String × String) :=
  let chars := arg.toList
  if '\t' ∈ chars then
    some (String.ofList (chars.takeWhile (· ≠ '\t')),
      String.ofList ((chars.dropWhile (· ≠ '\t')).drop 1))
  else none

/-- `inode_of(path).unwrap_or_else(|| InodeRef::new(0, 0))`. -/
def ListenerEnv.inodeOrZero (env : ListenerEnv) (path : String) : InodeRef :=
  (env.inodeOf path).getD ⟨0, 0⟩

def classifyTreeOp (env : ListenerEnv) (syscall arg : String) : Option TreeOp :=
  let path := PathBuf.ofString arg
  if syscall ∈ ["unlink", "unlinkat"] then some (.unlink ⟨0, 0⟩ path .regular 0o100644)
  else if syscall ∈ ["rename", "renameat", "renameat2"] then
    (splitOnceTab arg).map fun (src, dst) =>
      .rename (PathBuf.ofString src) (PathBuf.ofString dst) (env.inodeOrZero dst)
  else if syscall ∈ ["mkfifo", "mkfifoat"] then
    some (.create (env.inodeOrZero arg) path .fifo 0o644)
  else if syscall ∈ ["link", "linkat"] then
    some (.create (env.inodeOrZero arg) path .regular 0o644)
  else if syscall ∈ ["mkdir", "mkdirat"] then
    some (.create (env.inodeOrZero arg) path .directory 0o755)
  else none

def PathBuf.isAbsolute (p : PathBuf) : Bool := p.head? = some .rootDir

def isRelativeCreate : TreeOp → Bool
  | .create _ path _ _ => !path.isAbsolute
  | _ => false

/-! ## Notifications -/

/-- The calls whose pre-image is journaled for its metadata. -/
def metadataSyscalls : List String :=
  ["chmod", "fchmod", "fchmodat", "chown", "fchown", "lchown", "fchownat", "utimes", "futimes",
    "futimens", "utimensat", "setxattr", "fsetxattr", "removexattr", "fremovexattr", "chflags",
    "fchflags"]

/-- The marker for a path the shim could not resolve. -/
def ingestFailure (env : ListenerEnv) (command : CommandId) (failure : Option ShimFailure)
    (ts : TimePoint) : List CaptureEvent :=
  match failure with
  | none => []
  | some (.canonicalizeFailed whichArg attemptedPath errorChain) =>
    journaled (env.journal (newEvent command ts (.captureRefused "capture-incomplete"
      (PathBuf.ofString attemptedPath)
      ("shim canonicalize tripped on " ++ whichArg ++ " argument (" ++ errorChain ++ ")"))))

/-- The metadata arm of `ingest_notification`. -/
def ingestMetadata (env : ListenerEnv) (command : CommandId) (note : ShimNotification)
    (ts : TimePoint) : List CaptureEvent :=
  match note.preImage with
  | none => []
  | some pre =>
    let source : FilePreImageSource :=
      if note.syscall ∈ ["chflags", "fchflags"] then .shimFlagsPreMutation else .other
    journaled (ingestPreImageWithSource env command pre source ts)

/-- The arm of `ingest_notification` for calls that open or cut a file. -/
def ingestOpen (env : ListenerEnv) (command : CommandId) (note : ShimNotification)
    (ts : TimePoint) : List CaptureEvent :=
  match note.preImage with
  | some pre => journaled (ingestPreImage env command pre ts)
  | none =>
    let path := PathBuf.ofString note.arg
    if env.pathInWatchedSubtree path then []
    else if !path.isAbsolute then []
    else
      journaled (env.journal (newEvent command ts (.treeOp (.create ⟨0, 0⟩ path .regular 0o644))))

/-- The pre-images a call that changes names brings along. -/
def ingestNamePreImages (env : ListenerEnv) (command : CommandId) (note : ShimNotification)
    (ts : TimePoint) : List CaptureEvent :=
  let own := note.preImage.toList.flatMap fun pre => journaled (ingestPreImage env command pre ts)
  if note.syscall ∈ ["rename", "renameat", "renameat2"] then
    own ++ note.extraPreImages.flatMap fun pre => journaled (ingestPreImage env command pre ts)
  else if note.syscall ∈ ["unlink", "unlinkat"] then own
  else []

/-- The last part of `ingest_notification`: the change of names itself. -/
def ingestTreeOp (env : ListenerEnv) (command : CommandId) (note : ShimNotification)
    (ts : TimePoint) : List CaptureEvent :=
  match classifyTreeOp env note.syscall note.arg with
  | none => []
  | some op =>
    if isRelativeCreate op then []
    else if note.syscall ∈ ["link", "linkat", "mkdir", "mkdirat"]
        ∧ env.pathInWatchedSubtree (PathBuf.ofString note.arg) then []
    else journaled (env.journal (newEvent command ts (.treeOp op)))

/-- `ingest_notification`: the events journaled for a notification whose process was resolved to a
command, or not. -/
def ingestNotification (env : ListenerEnv) (note : ShimNotification) (resolved : Option CommandId)
    (ts : TimePoint) : List CaptureEvent :=
  match resolved with
  | none => []
  | some command =>
    ingestFailure env command note.failure ts ++
      if note.syscall ∈ metadataSyscalls then ingestMetadata env command note ts
      else if note.syscall ∈ ["open", "openat", "truncate"] then ingestOpen env command note ts
      else ingestNamePreImages env command note ts ++ ingestTreeOp env command note ts

/-! ## What is journaled -/

section Journaled

variable {env : ListenerEnv} {command : CommandId} {note : ShimNotification} {ts : TimePoint}
  {ev : CaptureEvent}

theorem mem_journaled {attempt : Except String CaptureEvent} :
    ev ∈ journaled attempt ↔ attempt = .ok ev := by
  cases attempt with
  | ok e => simp [journaled, eq_comm]
  | error e => simp [journaled]

theorem ListenerEnv.journal_eq_ok {event : CaptureEvent} (hok : env.journal event = .ok ev) :
    ∃ id, ev = { event with id := id } := by
  unfold ListenerEnv.journal at hok
  split at hok
  · cases hok
    exact ⟨_, rfl⟩
  · cases hok

/-- A journaled pre-image refers to the blob its bytes were stored under, and does not say what the
content was changed to. -/
structure JournaledPreImage (env : ListenerEnv) (pre : ShimPreImage) (source : FilePreImageSource)
    (ev : CaptureEvent) : Prop where
  complete : ev.isPartial = false
  recorded : ∃ blob stat fileMeta, env.blobPut pre.bytes = .ok (blob, stat) ∧
    ev.kind = .filePreImage ⟨pre.dev, pre.inode⟩ (PathBuf.ofString pre.path) blob fileMeta none
      source

theorem ingestPreImageWithSource_eq_ok {pre : ShimPreImage} {source : FilePreImageSource}
    (hok : ingestPreImageWithSource env command pre source ts = .ok ev) :
    JournaledPreImage env pre source ev := by
  unfold ingestPreImageWithSource at hok
  split at hok
  · cases hok
  rename_i blob stored compressed hput
  split at hok
  · cases hok
  dsimp only at hok
  split at hok
  · cases hok
  · rename_i _ _ hjournal
    cases hok
    obtain ⟨id, rfl⟩ := ListenerEnv.journal_eq_ok hjournal
    exact ⟨rfl, blob, (stored, compressed), _, hput, rfl⟩

/-- A marker for a capture that failed. -/
structure JournaledRefusal (ev : CaptureEvent) : Prop where
  complete : ev.isPartial = false
  recorded : ∃ cls path detail, ev.kind = .captureRefused cls path detail

theorem mem_ingestFailure (hev : ev ∈ ingestFailure env command note.failure ts) :
    note.failure ≠ none ∧ JournaledRefusal ev := by
  cases hfail : note.failure with
  | none =>
    rw [hfail] at hev
    cases hev
  | some failure =>
    obtain ⟨whichArg, attemptedPath, errorChain⟩ := failure
    rw [hfail, ingestFailure, mem_journaled] at hev
    obtain ⟨id, rfl⟩ := ListenerEnv.journal_eq_ok hev
    exact ⟨Option.some_ne_none _, rfl, _, _, _, rfl⟩

theorem MetadataSyscall.name_mem (syscall : MetadataSyscall) : syscall.name ∈ metadataSyscalls := by
  cases syscall <;> decide

theorem MetadataSyscall.name_mem_flags (syscall : MetadataSyscall) :
    syscall.name ∈ ["chflags", "fchflags"] ↔ syscall.isFlags = true := by
  cases syscall <;> decide

/-- **What a metadata call leaves in the journal**: a marker if the shim failed to resolve the path,
and the pre-image if there is one. -/
theorem mem_ingest_metadata {resolved : Option CommandId} {syscall : MetadataSyscall}
    (hname : note.syscall = syscall.name) (hev : ev ∈ ingestNotification env note resolved ts) :
    (note.failure ≠ none ∧ JournaledRefusal ev) ∨
      ∃ pre, note.preImage = some pre ∧ JournaledPreImage env pre
        (if syscall.isFlags then .shimFlagsPreMutation else .other) ev := by
  cases resolved with
  | none => cases hev
  | some command =>
    rw [ingestNotification, hname, if_pos syscall.name_mem, List.mem_append] at hev
    rcases hev with hev | hev
    · exact .inl (mem_ingestFailure hev)
    unfold ingestMetadata at hev
    cases hpre : note.preImage with
    | none =>
      rw [hpre] at hev
      cases hev
    | some pre =>
      rw [hpre] at hev
      simp only [hname, syscall.name_mem_flags, mem_journaled] at hev
      exact .inr ⟨pre, rfl, ingestPreImageWithSource_eq_ok hev⟩

end Journaled

/-- A daemon whose blob store takes what the toy content address can hold. -/
def ListenerEnv.sample : ListenerEnv where
  blobPut := fun bytes =>
    if sampleBytes (sampleHash bytes) = bytes then .ok (sampleHash bytes, bytes.length, false)
    else .error "too large"
  putBlobRecord := fun _ _ _ _ => .ok ()
  putEvent := fun _ => .ok ⟨1⟩
  readAllUserXattrs := fun _ => []
  inodeOf := fun _ => none
  pathInWatchedSubtree := fun _ => false

end ShitUndo
