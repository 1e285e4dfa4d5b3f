import ShitUndo.Orchestrator
import ShitUndo.Tree

/-!
# The preload shim

`shit-preload-shim` interposes libc calls and tells the daemon about them before they happen. This
file has the wire types (`shit-proto/src/shim.rs`), what the shim captures of a file, and the
notifiers of the metadata calls.

* A notification may get lost: the shim is disabled, the path is skipped, or the daemon does not
  answer. The notifiers return `none` then.
* The recursion guard `IN_NOTIFY` only stops the shim's own reads, which are not modelled as calls.
-/

namespace ShitUndo

/-! ## Wire types -/

/-- `XattrPreImage`: one extended attribute before the call. -/
structure XattrPreImage where
  name : String
  value : Option Bytes
deriving DecidableEq, Repr

structure ShimPreImage where
  path : String
  dev : Nat
  inode : Nat
  mode : Nat
  uid : Nat
  gid : Nat
  size : Nat
  mtimeUnixNanos : Int
  bytes : Bytes
  xattr : Option XattrPreImage
  flags : Nat
deriving DecidableEq, Repr

inductive ShimFailure where
  | canonicalizeFailed (whichArg attemptedPath errorChain : String)
deriving DecidableEq, Repr

structure ShimNotification where
  pid : Nat
  syscall : String
  arg : String
  tsUnixNanos : Nat
  preImage : Option ShimPreImage
  extraPreImages : List ShimPreImage
  failure : Option ShimFailure
deriving DecidableEq, Repr

/-- `SHIM_INLINE_PREIMAGE_CAP`, in bytes. -/
def shimInlinePreimageCap : Nat := 32 * 1024 * 1024

/-! ## The process the shim is loaded into -/

/-- The interposed process. `entry` is the name its kernel finds for a path argument, the last
component not followed; `canonicalize` is `std::fs::canonicalize` with the text of its error;
`reachable` says whether the daemon takes the frame. -/
structure ShimEnv where
  disabled : Bool
  reachable : Bool
  pid : Nat
  nowUnixNanos : Nat
  entry : Fs → String → PathBuf
  canonicalize : Fs → String → Except String String

/-- `std::fs::canonicalize(path).ok()…unwrap_or_else(|| path.to_string())`. -/
def ShimEnv.canonicalOr (env : ShimEnv) (fs : Fs) (path : String) : String :=
  match env.canonicalize fs path with
  | .ok abs => abs
  | .error _ => path

def shouldSkipPath (path : String) : Bool :=
  "/dev/".isPrefixOf path || path == "/dev" || "/proc/".isPrefixOf path || "/sys/".isPrefixOf path

inductive CanonicalizeError where
  | noFileName (path : String)
  | noParent (path : String)
  | pathAndParentBothFailed (path pathErr parent parentErr : String)
deriving DecidableEq, Repr

/-- `impl Display for CanonicalizeError`. -/
def CanonicalizeError.display : CanonicalizeError → String
  | noFileName path => "path has no file-name component: " ++ debugText path
  | noParent path => "path has no parent component: " ++ debugText path
  | pathAndParentBothFailed path pathErr parent parentErr =>
    "canonicalize " ++ debugText path ++ " failed (" ++ pathErr ++ "); parent " ++ debugText parent
      ++ " also failed (" ++ parentErr ++ ")"

def PathBuf.fileName (p : PathBuf) : Option String :=
  match p.getLast? with
  | some (.normal name) => some name
  | _ => none

/-- `Path::join` of a file name onto the text of a directory. -/
def joinName (dir name : String) : String :=
  if dir.toList.getLast? = some '/' then dir ++ name else dir ++ "/" ++ name

/-- `canonical_path`: the path itself, or its parent with the name put back. -/
def canonicalPath (env : ShimEnv) (fs : Fs) (path : String) : Except CanonicalizeError String :=
  match env.canonicalize fs path with
  | .ok abs => .ok abs
  | .error pathErr =>
    let p := PathBuf.ofString path
    match p.fileName, p.parent with
    | none, _ => .error (.noFileName path)
    | some _, none => .error (.noParent path)
    | some name, some parent =>
      let parentIn := if parent = [] then "." else parent.display
      match env.canonicalize fs parentIn with
      | .ok parentAbs => .ok (joinName parentAbs name)
      | .error parentErr => .error (.pathAndParentBothFailed path pathErr parentIn parentErr)

def canonicalizeOrRaw (env : ShimEnv) (fs : Fs) (path whichArg : String) :
    String × Option ShimFailure :=
  match canonicalPath env fs path with
  | .ok abs => (abs, none)
  | .error e => (path, some (.canonicalizeFailed whichArg path e.display))

/-! ## Capture -/

/-- The identity and `stat` part of a pre-image. -/
def ShimPreImage.ofStat (path : String) (i : InodeRef) (stat : FileMetadata) (bytes : Bytes)
    (xattr : Option XattrPreImage) (flags : Nat) : ShimPreImage :=
  { path := path, dev := i.dev, inode := i.inode, mode := stat.mode, uid := stat.uid,
    gid := stat.gid, size := stat.size, mtimeUnixNanos := stat.mtimeUnixNanos, bytes := bytes,
    xattr := xattr, flags := flags }

/-- `capture_pre_image_resolved`: the bytes of a regular file that can be read and is not too
large. -/
def capturePreImageResolved (env : ShimEnv) (h : Host) (fs : Fs) (path : String)
    (pathResolved : Bool) : Option ShimPreImage :=
  match fs.lookup (env.entry fs path) with
  | none => none
  | some i =>
    let n := fs.inode i
    let stat := n.stat h.os
    if n.kind ≠ .regular then none
    else if shimInlinePreimageCap < stat.size then none
    else if (h.deny .openRead (env.entry fs path) fs).isSome then none
    else
      let resolved := if pathResolved then path else env.canonicalOr fs path
      some (.ofStat resolved i stat n.content none stat.flags)

/-- `capture_flags_pre_image`: identity and flags only, on the systems that have flags. -/
def captureFlagsPreImage (env : ShimEnv) (h : Host) (fs : Fs) (path : String) (follow : Bool) :
    Option ShimPreImage :=
  let found := if follow then fs.resolve (env.entry fs path) else fs.lookup (env.entry fs path)
  match h.os, found with
  | .linux, _ => none
  | _, none => none
  | _, some i =>
    let stat := (fs.inode i).stat h.os
    some (.ofStat path i stat [] none stat.flags)

/-! ## Notifiers -/

def tryNotify (env : ShimEnv) (syscall arg : String) (preImage : Option ShimPreImage)
    (extraPreImages : List ShimPreImage) (failure : Option ShimFailure) :
    Option ShimNotification :=
  if env.reachable then
    some { pid := env.pid, syscall := syscall, arg := arg, tsUnixNanos := env.nowUnixNanos,
           preImage := preImage, extraPreImages := extraPreImages, failure := failure }
  else none

def notifyInnerWithFailure (env : ShimEnv) (h : Host) (fs : Fs) (syscall arg : String)
    (capturePath : Option String) (failure : Option ShimFailure) (pathResolved : Bool) :
    Option ShimNotification :=
  if env.disabled then none
  else
    let preImage := capturePath.bind fun c => capturePreImageResolved env h fs c pathResolved
    let wireArg := match preImage, capturePath with
      | some pre, some cap => if cap = arg then pre.path else arg
      | _, _ => arg
    tryNotify env syscall wireArg preImage [] failure

def notifyPreMutationWithContent (env : ShimEnv) (h : Host) (fs : Fs) (syscall path : String) :
    Option ShimNotification :=
  if shouldSkipPath path then none
  else notifyInnerWithFailure env h fs syscall path (some path) none false

/-- `notify_xattr_mutation`: the attribute's old value, and no file bytes. -/
def notifyXattrMutation (env : ShimEnv) (h : Host) (fs : Fs) (syscall path : String)
    (xattrPre : XattrPreImage) : Option ShimNotification :=
  if env.disabled || shouldSkipPath path then none
  else
    let resolved := env.canonicalOr fs path
    let pre := match fs.lookup (env.entry fs resolved) with
      | some i => ShimPreImage.ofStat resolved i ((fs.inode i).stat h.os) [] (some xattrPre) 0
      | none =>
        { path := resolved, dev := 0, inode := 0, mode := 0, uid := 0, gid := 0, size := 0,
          mtimeUnixNanos := 0, bytes := [], xattr := some xattrPre, flags := 0 }
    tryNotify env syscall resolved (some pre) [] none

def notifyFlagsMutation (env : ShimEnv) (h : Host) (fs : Fs) (syscall path : String)
    (follow : Bool) : Option ShimNotification :=
  if env.disabled || shouldSkipPath path then none
  else
    let (resolved, failure) := canonicalizeOrRaw env fs path "path"
    let preImage := captureFlagsPreImage env h fs resolved follow
    let wireArg := (preImage.map ShimPreImage.path).getD resolved
    tryNotify env syscall wireArg preImage [] failure

/-! ## Metadata calls -/

/-- The interposed calls that change metadata. -/
inductive MetadataSyscall where
  | chmod | fchmod | fchmodat
  | chown | fchown | lchown | fchownat
  | utimes | futimes | futimens | utimensat
  | setxattr | fsetxattr | removexattr | fremovexattr
  | chflags | fchflags
deriving DecidableEq, Repr

/-- The name on the wire. -/
def MetadataSyscall.name : MetadataSyscall → String
  | chmod => "chmod"
  | fchmod => "fchmod"
  | fchmodat => "fchmodat"
  | chown => "chown"
  | fchown => "fchown"
  | lchown => "lchown"
  | fchownat => "fchownat"
  | utimes => "utimes"
  | futimes => "futimes"
  | futimens => "futimens"
  | utimensat => "utimensat"
  | setxattr => "setxattr"
  | fsetxattr => "fsetxattr"
  | removexattr => "removexattr"
  | fremovexattr => "fremovexattr"
  | chflags => "chflags"
  | fchflags => "fchflags"

/-- The `setxattr` and `removexattr` family. -/
def MetadataSyscall.isXattr (call : MetadataSyscall) : Bool :=
  call ∈ [setxattr, fsetxattr, removexattr, fremovexattr]

/-- The `chflags` family. -/
def MetadataSyscall.isFlags (call : MetadataSyscall) : Bool := call ∈ [chflags, fchflags]

/-- A metadata call with its arguments: the path (of the descriptor, for the `f` variants), the
attribute of an xattr call, and whether a `chflags` call follows a symlink. -/
structure MetadataCall where
  syscall : MetadataSyscall
  path : String
  xattrName : String
  follow : Bool
deriving DecidableEq, Repr

/-- The notification an interposer (`my_chmod`, `my_setxattr`, `my_chflags`, …) sends before it
makes the call. -/
def MetadataCall.notify (env : ShimEnv) (h : Host) (fs : Fs) (call : MetadataCall) :
    Option ShimNotification :=
  if call.syscall.isXattr then
    let value :=
      (fs.resolve (env.entry fs call.path)).bind fun i => (fs.inode i).xattrs call.xattrName
    notifyXattrMutation env h fs call.syscall.name call.path ⟨call.xattrName, value⟩
  else if call.syscall.isFlags then
    notifyFlagsMutation env h fs call.syscall.name call.path call.follow
  else notifyPreMutationWithContent env h fs call.syscall.name call.path

/-! ## What a notification says -/

section NotificationOf

variable {env : ShimEnv} {h : Host} {fs : Fs} {call : MetadataCall} {note : ShimNotification}
  {syscall : MetadataSyscall}

/-- What the notification of a metadata call says about the file: the old value of an attribute and
no bytes, or flags, or the bytes of a regular file if it could be captured. -/
inductive NotificationOf (env : ShimEnv) (fs : Fs) (call : MetadataCall) (note : ShimNotification) :
    Prop
  | xattr {pre : ShimPreImage} (hcall : call.syscall.isXattr = true) (hfail : note.failure = none)
      (hpre : note.preImage = some pre) (hpath : pre.path = env.canonicalOr fs call.path)
      (hbytes : pre.bytes = [])
  | flags (hcall : call.syscall.isFlags = true)
  | content (hxattr : call.syscall.isXattr = false) (hflags : call.syscall.isFlags = false)
      (hfail : note.failure = none)
      (hpre : ∀ pre, note.preImage = some pre → pre.path = env.canonicalOr fs call.path ∧
        fs.fileAt (env.entry fs call.path) = some pre.bytes)

theorem tryNotify_eq_some {syscall arg : String} {preImage : Option ShimPreImage}
    {extra : List ShimPreImage} {failure : Option ShimFailure}
    (hnote : tryNotify env syscall arg preImage extra failure = some note) :
    note.syscall = syscall ∧ note.preImage = preImage ∧ note.failure = failure := by
  unfold tryNotify at hnote
  split at hnote
  · cases hnote
    exact ⟨rfl, rfl, rfl⟩
  · cases hnote

theorem capturePreImageResolved_eq_some {path : String} {pre : ShimPreImage}
    (hpre : capturePreImageResolved env h fs path false = some pre) :
    pre.path = env.canonicalOr fs path ∧ fs.fileAt (env.entry fs path) = some pre.bytes := by
  unfold capturePreImageResolved at hpre
  split at hpre
  · cases hpre
  rename_i i hi
  simp only [Bool.false_eq_true, if_false] at hpre
  split_ifs at hpre with hkind hsize hread
  cases hpre
  exact ⟨rfl, Fs.fileAt_of_lookup hi (not_not.mp hkind)⟩

theorem MetadataSyscall.not_isFlags_of_isXattr (hx : syscall.isXattr = true) :
    syscall.isFlags = false := by
  cases syscall <;> first | rfl | cases hx

theorem MetadataSyscall.not_isXattr_of_isFlags (hf : syscall.isFlags = true) :
    syscall.isXattr = false := by
  cases syscall <;> first | rfl | cases hf

/-- **What the shim sends before a metadata call.** -/
theorem MetadataCall.notificationOf (hnote : call.notify env h fs = some note) :
    note.syscall = call.syscall.name ∧ NotificationOf env fs call note := by
  unfold MetadataCall.notify at hnote
  split_ifs at hnote with hx hf
  · unfold notifyXattrMutation at hnote
    split_ifs at hnote
    obtain ⟨hname, hpre, hfail⟩ := tryNotify_eq_some hnote
    refine ⟨hname, .xattr hx hfail hpre ?_ ?_⟩ <;> split <;> rfl
  · unfold notifyFlagsMutation at hnote
    split_ifs at hnote
    exact ⟨(tryNotify_eq_some hnote).1, .flags hf⟩
  · unfold notifyPreMutationWithContent notifyInnerWithFailure at hnote
    split_ifs at hnote
    obtain ⟨hname, hpre, hfail⟩ := tryNotify_eq_some hnote
    refine ⟨hname, .content (by simpa using hx) (by simpa using hf) hfail fun pre hsome => ?_⟩
    rw [hpre] at hsome
    exact capturePreImageResolved_eq_some hsome

end NotificationOf

end ShitUndo
