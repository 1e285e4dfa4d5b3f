import ShitUndo.BlobStore

/-!
# The copy-on-write engine

`DefaultEngine::capture` (`cow/engine.rs`) stores a file's content in the blob directory. It goes
through the tiers that the two filesystems support and stops at the first one that the system does
not refuse.

The tiers fall into two groups. `streaming` and `zfs_clone` hand the bytes to `BlobStore::put`.
`clonefile`, `ficlone`, `copy_file_range` and `hardlink` make a copy next to the blobs and rename it
to the place `put` would have used: without the flag byte that `BlobStore::get` reads first.

The system's part is `Answers`: whether a call is refused, and how many bytes a copy or a read
moves. A hard link is a copy here, since its source is about to be removed.
-/

namespace ShitUndo.Cow

open List Option Function BlobStore Except

/-! ## Filesystems and tiers -/

/-- The values of `target_os` that the sources distinguish. -/
inductive Target where
  | linux | macos | freebsd | netbsd | openbsd | dragonfly | other
deriving DecidableEq, Repr

def Target.isBsd : Target → Bool
  | .freebsd | .netbsd | .openbsd | .dragonfly => true
  | _ => false

inductive FsKind where
  | apfs | hfs | btrfs | xfs | ext4 | ext3 | ext2 | zfs | ufs | tmpfs | nfs | smb | sshfs | fuse
  | procfs | sysfs | devfs | overlayfs
  | other (name : String)
deriving DecidableEq, Repr

def FsKind.isSynthetic : FsKind → Bool
  | .procfs | .sysfs | .devfs => true
  | _ => false

inductive CowTier where
  | clonefile | reflink | zfsClone | copyFileRange | hardlink | streamingCopy
deriving DecidableEq, Repr

/-- `supported_tiers`, the preferred one first. -/
def supportedTiers (os : Target) : FsKind → List CowTier
  | .apfs => [.clonefile, .hardlink, .streamingCopy]
  | .btrfs | .xfs => [.reflink, .copyFileRange, .hardlink, .streamingCopy]
  | .ext4 | .ext3 | .ext2 => [.copyFileRange, .hardlink, .streamingCopy]
  | .zfs => if os.isBsd then [.zfsClone, .hardlink, .streamingCopy] else [.hardlink, .streamingCopy]
  | .ufs => [.copyFileRange, .hardlink, .streamingCopy]
  | .hfs | .tmpfs | .fuse | .overlayfs => [.hardlink, .streamingCopy]
  | .nfs | .smb | .sshfs => [.streamingCopy]
  | .procfs | .sysfs | .devfs => []
  | .other _ => [.streamingCopy]

def detectOrDefault (detected : Except String FsKind) : FsKind :=
  match detected with
  | .ok kind => kind
  | .error _ => .other "unknown"

/-! ## The system -/

structure SourceFingerprint where
  ino : Nat
  dev : Nat
  size : Nat
  mtimeSecs : Int
  mtimeNsecs : Int
deriving DecidableEq, Repr

/-- The errors that the tiers tell apart. -/
inductive SysError where
  | exdev | enosys | eopnotsupp | enotsup | einval | eperm
  | other (err : String)
deriving DecidableEq, Repr

def SysError.text : SysError → String
  | .exdev => "Invalid cross-device link (os error 18)"
  | .enosys => "Function not implemented (os error 38)"
  | .eopnotsupp | .enotsup => "Operation not supported (os error 95)"
  | .einval => Errno.einval.text
  | .eperm => Errno.eperm.text
  | .other err => err

/-- What `read` returns when `left` bytes are left: none of them only at the end. -/
abbrev ReadCount (left : Nat) := {n : Nat // n ≤ left ∧ (n = 0 → left = 0)}

/-- **The answers of the system** to the calls of one tier. An `Option String` is the error of a
call that fails, apart from `dataset`, which is the dataset of the source if it has one; `clone`
answers `clonefile`, `FICLONE` and `link`. -/
structure Answers where
  fstatBefore : Except String SourceFingerprint
  fstatAfter : Except String SourceFingerprint
  createTmpDir : Option String
  createTmp : Option String
  clone : Option SysError
  copyFileRange : (offset want : Nat) → Except SysError {n : Nat // n ≤ want}
  read : (left : Nat) → Except String (ReadCount left)
  createParent : Option String
  rename : Option String
  fileSize : Option String
  openStore : Option String
  dup : Option String
  seek : Option String
  writeBlob : Option String
  dataset : Option String
  mountpoint : Except String (Option PathBuf)
  snapshot : Option String
  cloneDataset : Option String
  cloneId : String

/-- `CowError`. The text that goes with a refused tier is for the log and left out. -/
inductive CowError where
  | io (err : String)
  | nix (err : String)
  | hashMismatch (expected actual : BlobHash)
  | sourceMutated
  | noViableTier (src dest : PathBuf)
  | tierUnsupported (tier : CowTier)
  | store (err : BlobError)
deriving DecidableEq, Repr

def CowError.isFallthrough : CowError → Bool
  | .tierUnsupported _ => true
  | _ => false

structure CaptureOutcome where
  hash : BlobHash
  tier : CowTier
  storedBytes : Nat
deriving DecidableEq, Repr

/-- `?` on a call that returns nothing. -/
def succeed (wrap : String → CowError) : Option String → Except CowError Unit
  | some e => .error (wrap e)
  | none => .ok ()

/-- An early return with `TierUnsupported`. -/
def refuseIf (cond : Bool) (tier : CowTier) : Except CowError Unit :=
  if cond then .error (.tierUnsupported tier) else .ok ()

def assertStable (before after : SourceFingerprint) : Except CowError Unit :=
  if before = after then .ok () else .error .sourceMutated

/-- A call that copies in the kernel: some errors mean that the tier is not supported here. -/
def kernelCall (tier : CowTier) (unsupported : List SysError) :
    Option SysError → Except CowError Unit
  | none => .ok ()
  | some e => .error (if e ∈ unsupported then .tierUnsupported tier else .io e.text)

/-- Read to the end: the loop of `hash_file` and of `capture_streaming`. -/
def readLoop (read : (left : Nat) → Except String (ReadCount left)) (content buf : Bytes) :
    Except String Bytes :=
  match read content.length with
  | .error e => .error e
  | .ok n =>
    if n.1 = 0 then .ok buf else readLoop read (content.drop n.1) (buf ++ content.take n.1)
termination_by content.length
decreasing_by
  have := n.2.1
  rw [length_drop]
  omega

/-! ## The tiers -/

/-- What a tier has when it turns to the blob directory: a temporary file of known hash, or bytes
for `BlobStore::put`. -/
inductive Fetched where
  | tmpFile (hash : BlobHash) (tmp : Bytes)
  | bytes (buf : Bytes)
deriving DecidableEq, Repr

section Tiers

variable (store : BlobStore) (a : Answers) (srcPath : PathBuf) (content : Bytes)

def hashFile (tmp : Bytes) : Except CowError BlobHash :=
  (readLoop a.read tmp []).mapError .io |>.map store.blake3

/-- The steps from the copy to the blob's directory, which the four tiers share. -/
def checked (before : SourceFingerprint) (tmp : Bytes) : Except CowError Fetched := do
  let hash ← hashFile store a tmp
  let after ← a.fstatAfter.mapError .nix
  assertStable before after
  succeed .io a.createParent
  return .tmpFile hash tmp

/-- A path that is no C string. -/
def hasNul (p : PathBuf) : Bool := p.display.toList.contains '\x00'

def captureClonefile : Except CowError Fetched := do
  let before ← a.fstatBefore.mapError .nix
  succeed .io a.createTmpDir
  refuseIf (hasNul srcPath || hasNul store.root) .clonefile
  kernelCall .clonefile [.exdev, .enotsup, .eopnotsupp] a.clone
  checked store a before content

def captureFiclone : Except CowError Fetched := do
  let before ← a.fstatBefore.mapError .nix
  succeed .io a.createTmpDir
  succeed .io a.createTmp
  kernelCall .reflink [.exdev, .eopnotsupp, .einval] a.clone
  checked store a before content

def copyChunk : Nat := 1024 * 1024

/-- The loop of `capture_copy_file_range`. Both offsets are the number of bytes copied so far. -/
def copyLoop (remaining : Nat) (tmp : Bytes) : Except CowError Bytes :=
  if remaining = 0 then .ok tmp
  else
    match a.copyFileRange tmp.length (min remaining copyChunk) with
    | .error e =>
      .error (if e ∈ [.enosys, .eopnotsupp, .exdev] then .tierUnsupported .copyFileRange
        else .io e.text)
    | .ok n =>
      if n.1 = 0 then .error .sourceMutated
      else copyLoop (remaining - n.1) (tmp ++ (content.drop tmp.length).take n.1)
termination_by remaining
decreasing_by omega

def captureCopyFileRange : Except CowError Fetched := do
  let before ← a.fstatBefore.mapError .nix
  succeed .io a.createTmpDir
  succeed .io a.createTmp
  let tmp ← copyLoop a content before.size []
  checked store a before tmp

def captureHardlink (sourceDoomed : Bool) : Except CowError Fetched := do
  refuseIf (!sourceDoomed) .hardlink
  let before ← a.fstatBefore.mapError .nix
  succeed .io a.createTmpDir
  kernelCall .hardlink [.exdev, .eperm] a.clone
  checked store a before content

/-- `capture_streaming`, up to `put`. -/
def captureStreaming : Except CowError Fetched := do
  succeed (fun e => .store (.io e)) a.openStore
  let before ← a.fstatBefore.mapError .nix
  succeed .nix a.dup
  succeed .io a.seek
  let buf ← (readLoop a.read content []).mapError .io
  let after ← a.fstatAfter.mapError .nix
  assertStable before after
  return .bytes buf

def clonePreImagePath (filePath sourceMountpoint cloneMountpoint : PathBuf) : Option PathBuf :=
  if filePath.startsWith sourceMountpoint then
    some (cloneMountpoint ++ filePath.drop sourceMountpoint.length)
  else none

/-- `capture_zfs_clone`, up to `put`. Whatever keeps the clone from being made refuses the tier. -/
def captureZfsClone : Except CowError Fetched := do
  refuseIf a.dataset.isNone .zfsClone
  match a.mountpoint with
  | .error _ | .ok none => .error (.tierUnsupported .zfsClone)
  | .ok (some srcMp) =>
    refuseIf (a.snapshot.isSome || a.cloneDataset.isSome) .zfsClone
    let cloneMp := PathBuf.ofString ("/tmp/.shit-clones/" ++ a.cloneId)
    refuseIf (clonePreImagePath srcPath srcMp cloneMp).isNone .zfsClone
    succeed (fun e => .store (.io e)) a.openStore
    let buf ← (readLoop a.read content []).mapError .io
    return .bytes buf

end Tiers

def blobPath (root : PathBuf) (hash : BlobHash) : PathBuf :=
  let hex := hash.toHex.toList
  root ++ [.normal "blobs", .normal (String.ofList (hex.take 2)),
    .normal (String.ofList ((hex.drop 2).take 2)), .normal hash.toHex]

theorem blobPath_root (store : BlobStore) (hash : BlobHash) :
    blobPath store.root hash = store.pathFor hash := rfl

/-- The end of a tier. A temporary file is dropped if there is a blob of its name, and renamed to it
otherwise; bytes go to `put`, which hashes them again. -/
def Fetched.save (store : BlobStore) (a : Answers) (tier : CowTier) (dir : BlobDir) :
    Fetched → Except CowError CaptureOutcome × BlobDir
  | .tmpFile hash tmp =>
    let size (file : Bytes) : Except CowError CaptureOutcome :=
      (succeed .io a.fileSize).map fun _ => ⟨hash, tier, file.length⟩
    match dir (blobPath store.root hash) with
    | some file => (size file, dir)
    | none =>
      match a.rename with
      | some e => (.error (.io e), dir)
      | none => (size tmp, update dir (blobPath store.root hash) (some tmp))
  | .bytes buf =>
    match store.put a.writeBlob buf dir with
    | (.error e, dir') => (.error (.store e), dir')
    | (.ok (hash, st), dir') =>
      if hash = store.blake3 buf then (.ok ⟨hash, tier, st.storedBytes⟩, dir')
      else (.error (.hashMismatch (store.blake3 buf) hash), dir')

/-! ## The engine -/

/-- **A call of `capture`**: the source, what the two paths' filesystems are found to be, and the
system's answers to each tier. The source does not change, so its size is the one `fstat` sees. -/
structure Capture where
  content : Bytes
  srcPath : PathBuf
  sourceDoomed : Bool
  srcDetected : Except String FsKind
  destDetected : Except String FsKind
  answers : CowTier → Answers
  size_eq : ∀ tier fp, (answers tier).fstatBefore = .ok fp → fp.size = content.length

section Engine

variable (store : BlobStore) (os : Target) (c : Capture)

/-- The first half of `dispatch`; a tier that is not compiled in is not supported. -/
def Capture.fetch (tier : CowTier) : Except CowError Fetched :=
  match tier with
  | .clonefile =>
    if os = .macos then captureClonefile store (c.answers tier) c.srcPath c.content
    else .error (.tierUnsupported tier)
  | .reflink =>
    if os = .linux then captureFiclone store (c.answers tier) c.content
    else .error (.tierUnsupported tier)
  | .copyFileRange =>
    if os = .linux ∨ os = .freebsd then captureCopyFileRange store (c.answers tier) c.content
    else .error (.tierUnsupported tier)
  | .hardlink => captureHardlink store (c.answers tier) c.content c.sourceDoomed
  | .streamingCopy => captureStreaming (c.answers tier) c.content
  | .zfsClone =>
    if os.isBsd then captureZfsClone (c.answers tier) c.srcPath c.content
    else .error (.tierUnsupported tier)

def Capture.dispatch (tier : CowTier) (dir : BlobDir) : Except CowError CaptureOutcome × BlobDir :=
  match c.fetch store os tier with
  | .error e => (.error e, dir)
  | .ok fetched => fetched.save store (c.answers tier) tier dir

/-- The loop of `capture`. -/
def Capture.tryTiers (dir : BlobDir) :
    List CowTier → Except CowError CaptureOutcome × BlobDir
  | [] => (.error (.noViableTier c.srcPath store.root), dir)
  | tier :: rest =>
    let srcFs := detectOrDefault c.srcDetected
    let destFs := detectOrDefault c.destDetected
    if !(supportedTiers os destFs).contains tier then Capture.tryTiers dir rest
    else if tier = .hardlink ∧ c.sourceDoomed = false then Capture.tryTiers dir rest
    else if srcFs ≠ destFs ∧ tier ∈ [.clonefile, .reflink, .zfsClone] then Capture.tryTiers dir rest
    else
      match c.dispatch store os tier dir with
      | (.ok out, dir') => (.ok out, dir')
      | (.error e, dir') => if e.isFallthrough then Capture.tryTiers dir' rest else (.error e, dir')

def Capture.capture (dir : BlobDir) : Except CowError CaptureOutcome × BlobDir :=
  let srcFs := detectOrDefault c.srcDetected
  if srcFs.isSynthetic then (.error (.noViableTier c.srcPath store.root), dir)
  else c.tryTiers store os dir (supportedTiers os srcFs)

/-- The blob directory after some captures. -/
def captures (cs : List Capture) (dir : BlobDir) : BlobDir :=
  cs.foldl (fun d c => (c.capture store os d).2) dir

/-- The engine does not skip the tier. -/
def Capture.tries (tier : CowTier) : Bool :=
  let srcFs := detectOrDefault c.srcDetected
  let destFs := detectOrDefault c.destDetected
  (supportedTiers os destFs).contains tier && !(tier == .hardlink && !c.sourceDoomed) &&
    !(srcFs != destFs && [.clonefile, .reflink, .zfsClone].contains tier)

/-- The tiers that the engine tries. -/
def Capture.viableTiers : List CowTier :=
  let srcFs := detectOrDefault c.srcDetected
  if srcFs.isSynthetic then [] else (supportedTiers os srcFs).filter (c.tries os)

/-- The system refuses the tier. -/
def refused {α : Type} : Except CowError α → Bool
  | .error e => e.isFallthrough
  | .ok _ => false

/-- **The tier that the engine selects**: the first one that is not refused. -/
def Capture.selected : Option CowTier :=
  (c.viableTiers os).find? fun tier => !refused (c.fetch store os tier)

end Engine

/-! ## What a tier fetches -/

theorem readLoop_cases (read : (left : Nat) → Except String (ReadCount left))
    (content buf : Bytes) :
    (∃ e, readLoop read content buf = .error e) ∨
      readLoop read content buf = .ok (buf ++ content) := by
  fun_induction readLoop read content buf with
  | case1 content buf e hread => exact .inl ⟨e, rfl⟩
  | case2 content buf n hread hzero =>
    have hnil : content = [] := length_eq_zero_iff.mp (n.2.2 hzero)
    rw [hnil, append_nil]
    exact .inr rfl
  | case3 content buf n hread hzero ih =>
    rwa [append_assoc, take_append_drop] at ih

theorem readLoop_of_ok {read : (left : Nat) → Except String (ReadCount left)}
    (h : ∀ left, ∃ n, read left = .ok n) (content buf : Bytes) :
    readLoop read content buf = .ok (buf ++ content) := by
  rcases readLoop_cases read content buf with ⟨e, he⟩ | hok
  · fun_induction readLoop read content buf with
    | case1 content buf e' hread =>
      obtain ⟨n, hn⟩ := h content.length
      rw [hread] at hn
      cases hn
    | case2 => cases he
    | case3 content buf n hread hzero ih =>
      have := ih he
      rwa [append_assoc, take_append_drop] at this
  · exact hok

/-- A temporary file that was filled up to some offset is the content at the end of the loop. -/
theorem copyLoop_ok {a : Answers} {content : Bytes} {remaining : Nat} {tmp out : Bytes}
    (htmp : tmp = content.take tmp.length) (hremaining : tmp.length + remaining = content.length)
    (hok : copyLoop a content remaining tmp = .ok out) : out = content := by
  fun_induction copyLoop a content remaining tmp with
  | case1 tmp =>
    cases hok
    rw [htmp]
    exact take_of_length_le (by omega)
  | case2 => cases hok
  | case3 => cases hok
  | case4 remaining tmp hne n hcall hzero ih =>
    have hlength : (tmp ++ (content.drop tmp.length).take n.1).length = tmp.length + n.1 := by
      rw [length_append, length_take, length_drop]
      omega
    refine ih ?_ (by omega) hok
    rw [hlength, take_add, ← htmp]

theorem ok_of_bind {α β : Type} {x : Except CowError α} {f : α → Except CowError β} {b : β}
    (h : (x >>= f) = .ok b) : ∃ a, x = .ok a ∧ f a = .ok b := by
  cases x with
  | error e => cases h
  | ok a => exact ⟨a, rfl, h⟩

theorem ok_of_mapError {α ε : Type} {x : Except ε α} {f : ε → CowError} {a : α}
    (h : x.mapError f = .ok a) : x = .ok a := by
  cases x with
  | error e => cases h
  | ok b => rw [ok.inj h]

/-- The tier leaves a copy of the source where a blob file is expected. -/
def CowTier.keepsRaw : CowTier → Bool
  | .zfsClone | .streamingCopy => false
  | _ => true

variable {store : BlobStore} {os : Target} {fetched : Fetched} {content : Bytes} {tier : CowTier}
  {dir : BlobDir} {a : Answers} {c : Capture}

section FetchLemmas

variable {buf : Bytes} {before : SourceFingerprint} {srcPath : PathBuf}

theorem read_content (h : (readLoop a.read content []).mapError CowError.io = .ok buf) :
    buf = content := by
  have hok := ok_of_mapError h
  rcases readLoop_cases a.read content [] with ⟨e, he⟩ | hall
  · rw [he] at hok
    cases hok
  · rw [hall] at hok
    exact (ok.inj hok).symm

theorem checked_ok (h : checked store a before content = .ok fetched) :
    fetched = .tmpFile (store.blake3 content) content := by
  obtain ⟨hash, hhash, h⟩ := ok_of_bind h
  obtain ⟨_, -, h⟩ := ok_of_bind h
  obtain ⟨_, -, h⟩ := ok_of_bind h
  obtain ⟨_, -, h⟩ := ok_of_bind h
  have hread : hash = store.blake3 content := by
    unfold hashFile at hhash
    cases hbuf : (readLoop a.read content []).mapError CowError.io with
    | error e =>
      rw [hbuf] at hhash
      cases hhash
    | ok buf =>
      rw [hbuf] at hhash
      rw [← ok.inj hhash, read_content hbuf]
  rw [← ok.inj h, hread]

/-- Four steps and the common ones: `capture_clonefile`, `capture_ficlone`, `capture_hardlink`. -/
theorem checked_of_steps {α β γ δ : Type} {x : Except CowError α} {y : α → Except CowError β}
    {z : α → β → Except CowError γ} {w : α → β → γ → Except CowError δ}
    {before : α → β → γ → δ → SourceFingerprint}
    (h : (x >>= fun i => y i >>= fun j => z i j >>= fun k => w i j k >>= fun l =>
      checked store a (before i j k l) content) = .ok fetched) :
    fetched = .tmpFile (store.blake3 content) content := by
  obtain ⟨_, -, h⟩ := ok_of_bind h
  obtain ⟨_, -, h⟩ := ok_of_bind h
  obtain ⟨_, -, h⟩ := ok_of_bind h
  obtain ⟨_, -, h⟩ := ok_of_bind h
  exact checked_ok h

theorem captureCopyFileRange_ok (hsize : ∀ fp, a.fstatBefore = .ok fp → fp.size = content.length)
    (h : captureCopyFileRange store a content = .ok fetched) :
    fetched = .tmpFile (store.blake3 content) content := by
  obtain ⟨before, hbefore, h⟩ := ok_of_bind h
  obtain ⟨_, -, h⟩ := ok_of_bind h
  obtain ⟨_, -, h⟩ := ok_of_bind h
  obtain ⟨tmp, htmp, h⟩ := ok_of_bind h
  have hlength : before.size = content.length := hsize before (ok_of_mapError hbefore)
  have hcopy : tmp = content := copyLoop_ok (by simp) (by simpa using hlength) htmp
  rw [hcopy] at h
  exact checked_ok h

theorem captureStreaming_ok (h : captureStreaming a content = .ok fetched) :
    fetched = .bytes content := by
  obtain ⟨_, -, h⟩ := ok_of_bind h
  obtain ⟨_, -, h⟩ := ok_of_bind h
  obtain ⟨_, -, h⟩ := ok_of_bind h
  obtain ⟨_, -, h⟩ := ok_of_bind h
  obtain ⟨buf, hbuf, h⟩ := ok_of_bind h
  obtain ⟨_, -, h⟩ := ok_of_bind h
  obtain ⟨_, -, h⟩ := ok_of_bind h
  rw [← ok.inj h, read_content hbuf]

theorem captureZfsClone_ok (h : captureZfsClone a srcPath content = .ok fetched) :
    fetched = .bytes content := by
  obtain ⟨_, -, h⟩ := ok_of_bind h
  cases hmount : a.mountpoint with
  | error e =>
    rw [hmount] at h
    cases h
  | ok mount =>
    rw [hmount] at h
    cases mount with
    | none => cases h
    | some srcMp =>
      obtain ⟨_, -, h⟩ := ok_of_bind h
      obtain ⟨_, -, h⟩ := ok_of_bind h
      obtain ⟨_, -, h⟩ := ok_of_bind h
      obtain ⟨buf, hbuf, h⟩ := ok_of_bind h
      rw [← ok.inj h, read_content hbuf]

/-- **A tier that is not refused has the source's content**, as a file or as bytes. -/
theorem fetch_ok (h : c.fetch store os tier = .ok fetched) :
    fetched = if tier.keepsRaw then .tmpFile (store.blake3 c.content) c.content
      else .bytes c.content := by
  cases tier with
  | clonefile | reflink =>
    simp only [Capture.fetch] at h
    split at h
    · exact checked_of_steps h
    · cases h
  | copyFileRange =>
    simp only [Capture.fetch] at h
    split at h
    · exact captureCopyFileRange_ok (c.size_eq _) h
    · cases h
  | hardlink => exact checked_of_steps h
  | streamingCopy => exact captureStreaming_ok h
  | zfsClone =>
    simp only [Capture.fetch] at h
    split at h
    · exact captureZfsClone_ok h
    · cases h

end FetchLemmas

/-! ## What the engine does -/

section EngineLemmas

variable {rest : List CowTier} {outcome : CaptureOutcome}

theorem not_refused_save (fetched : Fetched) (a : Answers) :
    refused (fetched.save store a tier dir).1 = false := by
  cases fetched with
  | tmpFile hash tmp =>
    have hsize : ∀ file : Bytes, refused ((succeed CowError.io a.fileSize).map fun _ =>
        (⟨hash, tier, file.length⟩ : CaptureOutcome)) = false := by
      intro file
      cases a.fileSize <;> rfl
    simp only [Fetched.save]
    split
    · exact hsize _
    · split
      · rfl
      · exact hsize _
  | bytes buf =>
    simp only [Fetched.save]
    split
    · rfl
    · split <;> rfl

theorem refused_dispatch (dir : BlobDir) :
    refused (c.dispatch store os tier dir).1 = refused (c.fetch store os tier) := by
  unfold Capture.dispatch
  split
  · rename_i e hfetch
    rw [hfetch]
    rfl
  · rename_i fetched hfetch
    rw [hfetch, not_refused_save]
    rfl

theorem dispatch_of_refused (h : refused (c.fetch store os tier) = true) (dir : BlobDir) :
    ∃ e, e.isFallthrough = true ∧ c.dispatch store os tier dir = (.error e, dir) := by
  unfold Capture.dispatch
  cases hfetch : c.fetch store os tier with
  | error e =>
    rw [hfetch] at h
    exact ⟨e, h, rfl⟩
  | ok fetched =>
    rw [hfetch] at h
    cases h

theorem tries_iff : c.tries os tier = true ↔
    (!(supportedTiers os (detectOrDefault c.destDetected)).contains tier) = false ∧
      ¬(tier = .hardlink ∧ c.sourceDoomed = false) ∧
      ¬(detectOrDefault c.srcDetected ≠ detectOrDefault c.destDetected ∧
        tier ∈ [CowTier.clonefile, .reflink, .zfsClone]) := by
  simp only [Capture.tries, Bool.and_eq_true, Bool.and_eq_false_imp, beq_iff_eq, bne_iff_ne,
    Bool.not_eq_eq_eq_not, Bool.not_false, Bool.not_true, not_and, contains_eq_mem,
    decide_eq_false_iff_not, Bool.not_eq_false, and_assoc]

theorem tryTiers_skip (h : c.tries os tier = false) :
    c.tryTiers store os dir (tier :: rest) = c.tryTiers store os dir rest := by
  rw [Capture.tryTiers]
  split_ifs with hcontains hdoomed hcross
  · rfl
  · rfl
  · rfl
  · have htries : c.tries os tier = true :=
      tries_iff.mpr ⟨Bool.eq_false_iff.mpr hcontains, hdoomed, hcross⟩
    rw [h] at htries
    cases htries

theorem tryTiers_tries (h : c.tries os tier = true) :
    c.tryTiers store os dir (tier :: rest) =
      if refused (c.fetch store os tier) then c.tryTiers store os dir rest
      else c.dispatch store os tier dir := by
  obtain ⟨hcontains, hdoomed, hcross⟩ := tries_iff.mp h
  rw [Capture.tryTiers, if_neg (by rw [hcontains]; decide), if_neg hdoomed, if_neg hcross]
  by_cases hrefused : refused (c.fetch store os tier) = true
  · obtain ⟨e, he, hdispatch⟩ := dispatch_of_refused hrefused dir
    rw [if_pos hrefused, hdispatch]
    exact if_pos he
  rw [if_neg hrefused]
  rw [← refused_dispatch dir] at hrefused
  cases hdispatch : c.dispatch store os tier dir with
  | mk result dir' =>
    rw [hdispatch] at hrefused
    cases result with
    | ok out => rfl
    | error e => exact if_neg hrefused

theorem tryTiers_eq (tiers : List CowTier) :
    c.tryTiers store os dir tiers =
      (((tiers.filter (c.tries os)).find? fun tier => !refused (c.fetch store os tier)).map
        fun tier => c.dispatch store os tier dir).getD
          (.error (.noViableTier c.srcPath store.root), dir) := by
  induction tiers with
  | nil => rfl
  | cons tier rest ih =>
    cases htries : c.tries os tier with
    | false => rw [tryTiers_skip htries, ih, filter_cons_of_neg (by simp [htries])]
    | true =>
      rw [filter_cons_of_pos htries, tryTiers_tries htries]
      cases hrefused : refused (c.fetch store os tier) with
      | true => rw [if_pos rfl, ih, find?_cons_of_neg (by simp [hrefused])]
      | false =>
        rw [find?_cons_of_pos (by simp [hrefused])]
        rfl

/-- **The engine does what the tier it selects does.** -/
theorem capture_eq :
    c.capture store os dir = ((c.selected store os).map fun tier =>
      c.dispatch store os tier dir).getD (.error (.noViableTier c.srcPath store.root), dir) := by
  unfold Capture.capture Capture.selected Capture.viableTiers
  by_cases hsynth : (detectOrDefault c.srcDetected).isSynthetic = true
  · rw [if_pos hsynth, if_pos hsynth]
    rfl
  · rw [if_neg hsynth, if_neg hsynth]
    exact tryTiers_eq _

/-! ## Blob files -/

/-- The file that a tier makes of a content. -/
def CowTier.blobFile (tier : CowTier) (store : BlobStore) (content : Bytes) : Bytes :=
  if tier.keepsRaw then content else store.encodeFile content

theorem save_bytes_snd (a : Answers) (buf : Bytes) :
    ((Fetched.bytes buf).save store a tier dir).2 = (store.put a.writeBlob buf dir).2 := by
  simp only [Fetched.save]
  split
  · rename_i e dir' hput
    rw [hput]
  · rename_i hash st dir' hput
    rw [hput]
    split <;> rfl

theorem put_of_save_ok {buf : Bytes}
    (hok : ((Fetched.bytes buf).save store a tier dir).1 = .ok outcome) :
    ∃ st, (store.put a.writeBlob buf dir).1 = .ok (outcome.hash, st) ∧
      outcome.hash = store.blake3 buf := by
  simp only [Fetched.save] at hok
  split at hok
  · cases hok
  rename_i hash st dir' hput
  split at hok
  · rename_i hhash
    cases hok
    exact ⟨st, by rw [hput], hhash⟩
  · cases hok

theorem hash_of_size {err : Option String} {hash : BlobHash} {size : Nat}
    (hok : ((succeed CowError.io err).map fun _ => (⟨hash, tier, size⟩ : CaptureOutcome)) =
      .ok outcome) :
    outcome.hash = hash := by
  cases err with
  | some e => cases hok
  | none =>
    cases hok
    rfl

/-- A tier that gets as far as the blob directory adds its file there if there is none of that name;
a call that fails can keep it from doing so. -/
theorem save_snd (hfetched : fetched =
      if tier.keepsRaw then .tmpFile (store.blake3 content) content else .bytes content) :
    (fetched.save store a tier dir).2 = dir ∨ dir (store.pathFor (store.blake3 content)) = none ∧
        (fetched.save store a tier dir).2 = update dir
          (store.pathFor (store.blake3 content)) (some (tier.blobFile store content)) := by
  subst hfetched
  unfold CowTier.blobFile
  split
  · simp only [Fetched.save, blobPath_root]
    cases hfile : dir (store.pathFor (store.blake3 content)) with
    | some file => exact .inl rfl
    | none =>
      cases a.rename with
      | some e => exact .inl rfl
      | none => exact .inr ⟨rfl, rfl⟩
  · rw [save_bytes_snd]
    exact put_snd store a.writeBlob content dir

/-- A tier that succeeds returns the content's hash, and there is a file of that name: the one that
was there, or its own. -/
theorem save_ok (hfetched : fetched =
      if tier.keepsRaw then .tmpFile (store.blake3 content) content else .bytes content)
    (hok : (fetched.save store a tier dir).1 = .ok outcome) :
    outcome.hash = store.blake3 content ∧
      (fetched.save store a tier dir).2 (store.pathFor (store.blake3 content)) =
        some ((dir (store.pathFor (store.blake3 content))).getD (tier.blobFile store content)) := by
  subst hfetched
  unfold CowTier.blobFile
  split at hok
  · rename_i hraw
    rw [if_pos hraw, if_pos hraw]
    simp only [Fetched.save, blobPath_root] at hok ⊢
    cases hfile : dir (store.pathFor (store.blake3 content)) with
    | some file =>
      rw [hfile] at hok
      exact ⟨hash_of_size hok, hfile⟩
    | none =>
      rw [hfile] at hok
      cases hrename : a.rename with
      | some e =>
        rw [hrename] at hok
        cases hok
      | none =>
        rw [hrename] at hok
        exact ⟨hash_of_size hok, update_self _ _ _⟩
  · rename_i hraw
    rw [if_neg hraw, if_neg hraw, save_bytes_snd]
    obtain ⟨st, hput, hhash⟩ := put_of_save_ok hok
    exact ⟨hhash, hhash ▸ (file_of_put_ok hput).2.1⟩

theorem capture_snd (store : BlobStore) (os : Target) (c : Capture) (dir : BlobDir) :
    (c.capture store os dir).2 = dir ∨ ∃ tier, c.selected store os = some tier ∧
      dir (store.pathFor (store.blake3 c.content)) = none ∧
        (c.capture store os dir).2 = update dir
          (store.pathFor (store.blake3 c.content)) (some (tier.blobFile store c.content)) := by
  rw [capture_eq]
  cases hselected : c.selected store os with
  | none => exact .inl rfl
  | some tier =>
    rw [map_some, getD_some]
    unfold Capture.dispatch
    cases hfetch : c.fetch store os tier with
    | error e => exact .inl rfl
    | ok fetched =>
      rcases save_snd (fetch_ok hfetch) with hsame | ⟨hnone, hadd⟩
      · exact .inl hsame
      · exact .inr ⟨tier, rfl, hnone, hadd⟩

theorem capture_ok (hok : (c.capture store os dir).1 = .ok outcome) :
    ∃ tier, c.selected store os = some tier ∧ outcome.hash = store.blake3 c.content ∧
      (c.capture store os dir).2 (store.pathFor (store.blake3 c.content)) =
        some ((dir (store.pathFor (store.blake3 c.content))).getD
          (tier.blobFile store c.content)) := by
  rw [capture_eq] at hok ⊢
  cases hselected : c.selected store os with
  | none =>
    rw [hselected] at hok
    cases hok
  | some tier =>
    rw [hselected, map_some, getD_some] at hok
    rw [map_some, getD_some]
    unfold Capture.dispatch at hok ⊢
    cases hfetch : c.fetch store os tier with
    | error e =>
      rw [hfetch] at hok
      cases hok
    | ok fetched =>
      rw [hfetch] at hok
      exact ⟨tier, rfl, save_ok (fetch_ok hfetch) hok⟩

end EngineLemmas

/-! ## Whole histories -/

section Histories

variable {contents : Set Bytes}

/-- **Every blob file is one of the contents**, as it was or as `put` writes it, under its hash. -/
def FilledBy (store : BlobStore) (contents : Set Bytes) (dir : BlobDir) : Prop :=
  ∀ hash file, dir (store.pathFor hash) = some file →
    ∃ content ∈ contents, store.blake3 content = hash ∧
      (file = content ∨ file = store.encodeFile content)

theorem FilledBy.capture {c : Capture} (hfilled : FilledBy store contents dir)
    (hc : c.content ∈ contents) : FilledBy store contents (c.capture store os dir).2 := by
  rcases capture_snd store os c dir with hsame | ⟨tier, -, -, hadd⟩
  · rwa [hsame]
  rw [hadd]
  intro hash file hfile
  by_cases hhash : hash = store.blake3 c.content
  · subst hhash
    rw [update_self] at hfile
    refine ⟨c.content, hc, rfl, ?_⟩
    rw [← some.inj hfile, CowTier.blobFile]
    split
    · exact .inl rfl
    · exact .inr rfl
  · rw [update_of_ne (store.pathFor_injective.ne hhash)] at hfile
    exact hfilled hash file hfile

theorem FilledBy.captures {cs : List Capture} (hfilled : FilledBy store contents dir)
    (hcs : ∀ c ∈ cs, c.content ∈ contents) :
    FilledBy store contents (captures store os cs dir) := by
  induction cs generalizing dir with
  | nil => exact hfilled
  | cons c rest ih =>
    exact ih (hfilled.capture (hcs c mem_cons_self))
      fun d hd => hcs d (mem_cons_of_mem c hd)

/-- The contents of a history. -/
def contentsOf (cs : List Capture) : Set Bytes := {content | ∃ c ∈ cs, c.content = content}

/-- **A capture whose content can be read back**: the blob that is there was written by
`BlobStore::put`, or there is none and the tier that is selected calls `put`. Apart from that, a
copy can only be read if it happens to be a blob file that decodes to itself. -/
def ReadableBlob (store : BlobStore) (os : Target) (dir : BlobDir) (c : Capture) : Prop :=
  dir (store.pathFor (store.blake3 c.content)) = some (store.encodeFile c.content) ∨
    dir (store.pathFor (store.blake3 c.content)) = none ∧
      (c.selected store os).any (fun tier => !tier.keepsRaw) = true ∨
    store.decodeFile (store.pathFor (store.blake3 c.content)) c.content = .ok c.content

theorem decodeFile_eq_iff {path : PathBuf} {content file : Bytes}
    (hforms : file = content ∨ file = store.encodeFile content) :
    store.decodeFile path file = .ok content ↔
      file = store.encodeFile content ∨ store.decodeFile path content = .ok content := by
  constructor
  · intro hdecode
    rcases hforms with rfl | hput
    · exact .inr hdecode
    · exact .inl hput
  · rintro (rfl | hself)
    · exact decodeFile_encodeFile
    · rcases hforms with rfl | rfl
      · exact hself
      · exact decodeFile_encodeFile

/-- **After any captures, a capture that succeeds returns the hash of its content, and the content
can be read back under it exactly when its blob is readable.** -/
theorem capture_reads_back_iff {history : List Capture} {c : Capture} {outcome : CaptureOutcome}
    (hinj : Set.InjOn store.blake3 (contentsOf (c :: history)))
    (hok : (c.capture store os (captures store os history fun _ => none)).1 = .ok outcome) :
    outcome.hash = store.blake3 c.content ∧
      (store.get (c.capture store os (captures store os history fun _ => none)).2 outcome.hash =
          .ok c.content ↔
        ReadableBlob store os (captures store os history fun _ => none) c) := by
  obtain ⟨tier, hselected, hhash, hfile⟩ := capture_ok hok
  refine ⟨hhash, ?_⟩
  rw [hhash, get_eq_of_file hfile]
  unfold ReadableBlob
  have hfilled : FilledBy store (contentsOf (c :: history))
      (captures store os history fun _ => none) := by
    refine FilledBy.captures (fun hash file h => ?_) fun d hd =>
      ⟨d, mem_cons_of_mem c hd, rfl⟩
    cases h
  cases hbefore : captures store os history (fun _ => none)
      (store.pathFor (store.blake3 c.content)) with
  | none =>
    rw [getD_none, CowTier.blobFile, hselected]
    cases hraw : tier.keepsRaw with
    | true => simp [hraw]
    | false => simp [hraw, decodeFile_encodeFile]
  | some file =>
    -- without collisions the file that is there was made of the same content
    obtain ⟨content, hmem, hsame, hforms⟩ := hfilled _ _ hbefore
    have heq : content = c.content := hinj hmem ⟨c, mem_cons_self, rfl⟩ hsame
    rw [heq] at hforms
    rw [getD_some, decodeFile_eq_iff hforms]
    simp

end Histories

/-! ### Two filesystems -/

/-- A system that refuses nothing and moves all bytes at once. -/
def obliging (content : Bytes) : Answers where
  fstatBefore := .ok ⟨1, 1, content.length, 0, 0⟩
  fstatAfter := .ok ⟨1, 1, content.length, 0, 0⟩
  createTmpDir := none
  createTmp := none
  clone := none
  copyFileRange := fun _ want => .ok ⟨want, le_rfl⟩
  read := fun left => .ok ⟨left, le_rfl, id⟩
  createParent := none
  rename := none
  fileSize := none
  openStore := none
  dup := none
  seek := none
  writeBlob := none
  dataset := none
  mountpoint := .ok none
  snapshot := none
  cloneDataset := none
  cloneId := ""

/-- A capture on such a system, source and blobs on one filesystem. -/
def captureOn (kind : FsKind) (content : Bytes) : Capture where
  content := content
  srcPath := PathBuf.ofString "/srv/f"
  sourceDoomed := false
  srcDetected := .ok kind
  destDetected := .ok kind
  answers := fun _ => obliging content
  size_eq := by
    intro tier fp hfp
    cases hfp
    rfl

theorem readLoop_obliging (content : Bytes) :
    readLoop (obliging content).read content [] = .ok content :=
  readLoop_of_ok (fun left => ⟨⟨left, le_rfl, id⟩, rfl⟩) content []

theorem assertStable_self (fp : SourceFingerprint) : assertStable fp fp = .ok () := if_pos rfl

theorem fetch_reflink (store : BlobStore) (content : Bytes) :
    (captureOn .btrfs content).fetch store .linux .reflink =
      .ok (.tmpFile (store.blake3 content) content) := by
  change (hashFile store (obliging content) content >>= fun hash =>
    (assertStable _ _ >>= fun _ => .ok (Fetched.tmpFile hash content))) = _
  rw [hashFile, readLoop_obliging, assertStable_self]
  rfl

theorem fetch_streaming (store : BlobStore) (content : Bytes) :
    (captureOn .nfs content).fetch store .linux .streamingCopy = .ok (.bytes content) := by
  change ((readLoop (obliging content).read content []).mapError CowError.io >>= fun buf =>
    (assertStable _ _ >>= fun _ => .ok (Fetched.bytes buf))) = _
  rw [readLoop_obliging, assertStable_self]
  rfl

theorem capture_btrfs (store : BlobStore) (content : Bytes) :
    (captureOn .btrfs content).capture store .linux (fun _ => none) =
      (.ok ⟨store.blake3 content, .reflink, content.length⟩,
        update (fun _ => none) (store.pathFor (store.blake3 content)) (some content)) := by
  have hviable : (captureOn .btrfs content).viableTiers .linux =
      [.reflink, .copyFileRange, .streamingCopy] := rfl
  rw [capture_eq, Capture.selected, hviable, find?_cons_of_pos (by rw [fetch_reflink]; rfl),
    map_some, Capture.dispatch, fetch_reflink]
  rfl

theorem get_btrfs (store : BlobStore) (content : Bytes) :
    store.get ((captureOn .btrfs content).capture store .linux fun _ => none).2
        (store.blake3 content) =
      store.decodeFile (store.pathFor (store.blake3 content)) content := by
  rw [capture_btrfs]
  dsimp only
  exact get_eq_of_file (update_self _ _ _)

theorem capture_nfs {content : Bytes} {dir : BlobDir}
    (hnew : dir (store.pathFor (store.blake3 content)) = none) :
    (captureOn .nfs content).selected store .linux = some .streamingCopy ∧
      ((captureOn .nfs content).capture store .linux dir).1 =
        .ok ⟨store.blake3 content, .streamingCopy, (store.encodeFile content).length⟩ := by
  have hviable : (captureOn .nfs content).viableTiers .linux = [.streamingCopy] := rfl
  have hselected : (captureOn .nfs content).selected store .linux = some .streamingCopy := by
    rw [Capture.selected, hviable, find?_cons_of_pos (by rw [fetch_streaming]; rfl)]
  have hput : store.put ((captureOn .nfs content).answers .streamingCopy).writeBlob content
      dir = _ := put_of_absent hnew
  refine ⟨hselected, ?_⟩
  rw [capture_eq, hselected, map_some, getD_some, Capture.dispatch, fetch_streaming]
  simp only [Fetched.save, hput, if_true]

/-- A copy that does not begin with a flag byte cannot be read, and one that does is read without
it. -/
theorem reflinked_content_lost :
    (((captureOn .btrfs [42]).capture sample .linux fun _ => none).1 =
        .ok ⟨sampleHash [42], .reflink, 1⟩ ∧
      sample.get ((captureOn .btrfs [42]).capture sample .linux fun _ => none).2 (sampleHash [42]) =
        .error (.unknownFlag (sample.pathFor (sampleHash [42])) 42)) ∧
    (((captureOn .btrfs [0, 7]).capture sample .linux fun _ => none).1 =
        .ok ⟨sampleHash [0, 7], .reflink, 2⟩ ∧
      sample.get ((captureOn .btrfs [0, 7]).capture sample .linux fun _ => none).2
          (sampleHash [0, 7]) = .ok [7]) := by
  refine ⟨⟨?_, ?_⟩, ?_, ?_⟩
  · rw [capture_btrfs]
    rfl
  · exact (get_btrfs sample [42]).trans rfl
  · rw [capture_btrfs]
    rfl
  · exact (get_btrfs sample [0, 7]).trans rfl

/-- A streamed copy after a reflinked one of another file. -/
theorem capture_reads_back_streamed :
    sample.get ((captureOn .nfs [42]).capture sample .linux
        (captures sample .linux [captureOn .btrfs [7]] fun _ => none)).2 (sample.blake3 [42]) =
      .ok [42] := by
  have hnew : captures sample .linux [captureOn .btrfs [7]] (fun _ => none)
      (sample.pathFor (sample.blake3 [42])) = none := by
    have hother : sample.pathFor (sample.blake3 [42]) ≠ sample.pathFor (sample.blake3 [7]) := by
      decide
    rw [captures, foldl_cons, foldl_nil, capture_btrfs]
    dsimp only
    rw [update_of_ne hother]
  obtain ⟨hselected, hok⟩ := capture_nfs hnew
  have hinj : Set.InjOn sample.blake3 (contentsOf [captureOn .nfs [42], captureOn .btrfs [7]]) := by
    rintro x ⟨c, hc, rfl⟩ y ⟨d, hd, rfl⟩ hsame
    simp only [mem_cons, not_mem_nil, or_false] at hc hd
    rcases hc with rfl | rfl <;> rcases hd with rfl | rfl
    · rfl
    · exact absurd hsame (by decide)
    · exact absurd hsame (by decide)
    · rfl
  refine (capture_reads_back_iff hinj hok).2.mpr (.inr (.inl ⟨hnew, ?_⟩))
  rw [hselected]
  rfl

end ShitUndo.Cow
