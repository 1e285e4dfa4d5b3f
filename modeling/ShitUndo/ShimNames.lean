import ShitUndo.PathText
import ShitUndo.Lib.PathWalk

/-!
# Calls that change names

The interposers of `unlink`, `unlinkat`, `rename` and `renameat`, from the arguments of the call to
the notification. What the kernel makes of a path is path resolution over the tree
(`Lib/PathWalk`), and so is `std::fs::canonicalize`.

* Paths are text; a trailing `/` or `/.` is not told apart from none. The kernel takes one only
  after a directory, and makes nothing of it there.
* A directory descriptor stands for the directory it was opened on. Whether the process can read
  its path back (`/proc/self/fd` on Linux, `F_KINFO` on FreeBSD) is up to the machine.
* A `NameReport` is a notification with the paths its argument was put together from; they are
  kept for reasoning only.
-/

namespace ShitUndo

open PathWalk (Node WalkError)

/-! ## Path resolution -/

/-- A component, as the kernel walks it. -/
def Component.step : Component → PathWalk.Step String
  | .rootDir => .root
  | .curDir => .here
  | .parentDir => .up
  | .normal name => .down name

/-- The components of a path text. -/
def stepsOf (path : String) : List (PathWalk.Step String) :=
  (PathBuf.ofString path).map Component.step

/-- What a name stands for in path resolution. -/
def Inode.pathNode (n : Inode) : Node String :=
  match n.kind with
  | .directory => .dir
  | .symlink => .link (stepsOf n.target)
  | _ => .leaf

/-- The tree paths are resolved in. -/
def Fs.pathTree (fs : Fs) : PathWalk.Tree String := fun names =>
  (fs.node (.absolute names)).map Inode.pathNode

def maxSymlinks : Nat := 40

/-- Where a path leads from the directory `base`, all symlinks followed. -/
def Fs.walkFrom (fs : Fs) (base : List String) (path : String) :
    Except WalkError (List String × Nat) :=
  PathWalk.walk fs.pathTree maxSymlinks base (stepsOf path)

/-- The directory entry a call acts on: the parent is resolved, the last component is not. -/
def Fs.entryFrom (fs : Fs) (base : List String) (path : String) : Option (List String) :=
  let p := PathBuf.ofString path
  match p.getLast? with
  | some (.normal name) =>
    match PathWalk.walk fs.pathTree maxSymlinks base (p.dropLast.map Component.step) with
    | .ok (dir, _) =>
      match fs.pathTree dir with
      | some .dir => some (dir ++ [name])
      | _ => none
    | .error _ => none
  | _ => none

/-- `impl Display for io::Error`. -/
def walkErrorText : WalkError → String
  | .missing => Errno.enoent.text
  | .notDir => Errno.enotdir.text
  | .loop => "Too many levels of symbolic links (os error 40)"

/-- `std::fs::canonicalize`, in a process with the given working directory. -/
def Fs.canonicalize (cwd : List String) (fs : Fs) (path : String) : Except String String :=
  if path = "" then .error (walkErrorText .missing)
  else
    match fs.walkFrom cwd path with
    | .ok (place, _) => .ok (PathBuf.absolute place).display
    | .error e => .error (walkErrorText e)

/-! ## The process -/

/-- The directory argument of an `*at` call: `AT_FDCWD` or a descriptor. -/
inductive DirFd where
  | cwd
  | fd (number : Nat)
deriving DecidableEq, Repr

/-- An interposed process whose shim is enabled and heard. `dirOf` is the directory of a
descriptor, `fdReadable` says whether its path can be read back, and `readDir` lists the names in a
directory in whatever order the disk has them. -/
structure Process where
  pid : Nat
  nowUnixNanos : Nat
  cwd : List String
  dirOf : Nat → Option (List String)
  fdReadable : Nat → Bool
  readDir : Fs → String → List String

/-- The process as the notifiers see it. -/
def Process.env (proc : Process) : ShimEnv where
  disabled := false
  reachable := true
  pid := proc.pid
  nowUnixNanos := proc.nowUnixNanos
  entry := fun fs path => ((fs.entryFrom proc.cwd path).map PathBuf.absolute).getD []
  canonicalize := Fs.canonicalize proc.cwd

/-- The path starts with a `/`. -/
def isAbsoluteText (path : String) : Bool := path.toList.head? = some '/'

/-- `join_at_path`: the path the kernel will act on, unless the directory cannot be told. -/
def joinAtPath (proc : Process) (dirfd : DirFd) (path : String) : String :=
  if isAbsoluteText path then path
  else
    match dirfd with
    | .cwd => path
    | .fd n =>
      match proc.dirOf n with
      | some dir => if proc.fdReadable n then joinName (PathBuf.absolute dir).display path else path
      | none => path

/-! ## Resolving the arguments -/

inductive AtResolution where
  | resolved (abs : String)
  | failed (raw : String) (failure : ShimFailure)
  | nothing
deriving DecidableEq, Repr

/-- `impl Display for c_int`, of a descriptor. -/
def DirFd.display : DirFd → String
  | .cwd => "-100"
  | .fd n => toString n

def resolveAtForNotify (proc : Process) (fs : Fs) (dirfd : DirFd) (path whichArg : String) :
    AtResolution :=
  let joined := joinAtPath proc dirfd path
  if !isAbsoluteText joined && dirfd ≠ .cwd then
    .failed path (.canonicalizeFailed whichArg path
      ("dirfd " ++ dirfd.display ++ " could not be resolved to a directory"))
  else
    match canonicalPath proc.env fs joined with
    | .ok abs => .resolved abs
    | .error e =>
      let nothingThere := match e with
        | .pathAndParentBothFailed _ _ _ parentErr =>
          parentErr == Errno.enoent.text || parentErr == Errno.enotdir.text
        | _ => false
      if nothingThere then .nothing
      else .failed joined (.canonicalizeFailed whichArg joined e.display)

/-! ## The source of a rename -/

def recursiveMaxFiles : Nat := 1000

def recursiveMaxBytes : Nat := 50 * 1024 * 1024

def recursiveMaxDepth : Nat := 5

/-- The variables of `collect_recursive_pre_images`; `stopped` once it has returned. -/
structure Collection where
  stack : List (String × Nat)
  out : List ShimPreImage
  totalBytes : Nat
  stopped : Bool

/-- One entry of a directory: descend later, capture, or leave it. -/
def collectEntry (proc : Process) (h : Host) (fs : Fs) (dir : String) (depth : Nat)
    (c : Collection) (name : String) : Collection :=
  if c.stopped || decide (recursiveMaxFiles ≤ c.out.length) then c
  else
    let path := joinName dir name
    match fs.node (proc.env.entry fs path) with
    | none => c
    | some n =>
      if n.kind = .directory then { c with stack := (path, depth + 1) :: c.stack }
      else if n.kind ≠ .regular then c
      else if recursiveMaxBytes < c.totalBytes + n.content.length then { c with stopped := true }
      else if shouldSkipPath path then c
      else
        match capturePreImageResolved proc.env h fs path false with
        | none => c
        | some pre =>
          { c with out := c.out ++ [pre], totalBytes := c.totalBytes + pre.bytes.length }

/-- The loop of `collect_recursive_pre_images`; each directory is taken off the stack once, so as
many rounds as there are names are enough. -/
def collectLoop (proc : Process) (h : Host) (fs : Fs) : Nat → Collection → List ShimPreImage
  | 0, c => c.out
  | rounds + 1, c =>
    match c.stack with
    | [] => c.out
    | (dir, depth) :: rest =>
      let c := { c with stack := rest }
      if c.stopped || decide (recursiveMaxFiles ≤ c.out.length) then c.out
      else if recursiveMaxDepth < depth then collectLoop proc h fs rounds c
      else collectLoop proc h fs rounds
        ((proc.readDir fs dir).foldl (collectEntry proc h fs dir depth) c)

def collectRecursivePreImages (proc : Process) (h : Host) (fs : Fs) (fromAbs : String) :
    List ShimPreImage :=
  match fs.node (proc.env.entry fs fromAbs) with
  | none => []
  | some n =>
    if n.kind ≠ .directory then []
    else collectLoop proc h fs (fs.entries.length + 1) ⟨[(fromAbs, 0)], [], 0, false⟩

/-! ## Notifiers -/

/-- A notification, with the paths its argument was put together from. -/
structure NameReport where
  paths : List String
  note : ShimNotification

/-- The report of a call with one path: the argument is that path. -/
def NameReport.single (note : ShimNotification) : NameReport := ⟨[note.arg], note⟩

def notifyPreMutationWithContentAt (proc : Process) (h : Host) (fs : Fs) (syscall : String)
    (dirfd : DirFd) (path : String) : Option ShimNotification :=
  match resolveAtForNotify proc fs dirfd path "path" with
  | .resolved abs =>
    if shouldSkipPath abs then none
    else notifyInnerWithFailure proc.env h fs syscall abs (some abs) none true
  | .failed raw failure =>
    if shouldSkipPath raw then none
    else notifyInnerWithFailure proc.env h fs syscall raw none (some failure) false
  | .nothing => none

def notifyRenameInnerWithRecursive (proc : Process) (h : Host) (fs : Fs)
    (syscall arg capturePath fromAbs : String) (failure : Option ShimFailure) :
    Option ShimNotification :=
  let preImage := capturePreImageResolved proc.env h fs capturePath false
  let extras := collectRecursivePreImages proc h fs fromAbs
  let wireArg := match preImage with
    | some pre => if pre.path = capturePath then pre.path else arg
    | none => arg
  tryNotify proc.env syscall wireArg preImage extras failure

def notifyRenameWithDstPreimage (proc : Process) (h : Host) (fs : Fs) (syscall src dst : String) :
    Option NameReport :=
  let (fromAbs, fromFailure) := canonicalizeOrRaw proc.env fs src "from"
  let (toAbs, toFailure) := canonicalizeOrRaw proc.env fs dst "to"
  let failure := fromFailure.or toFailure
  if fromAbs = toAbs then none
  else
    let arg := fromAbs ++ "\t" ++ toAbs
    (notifyRenameInnerWithRecursive proc h fs syscall arg dst fromAbs failure).map
      fun note => ⟨[fromAbs, toAbs], note⟩

def notifyRenameAt (proc : Process) (h : Host) (fs : Fs) (syscall : String) (srcfd : DirFd)
    (src : String) (dstfd : DirFd) (dst : String) : Option NameReport :=
  let unresolved (fa ta : String) (failure : ShimFailure) : Option NameReport :=
    (notifyInnerWithFailure proc.env h fs syscall (fa ++ "\t" ++ ta) none (some failure) false).map
      fun note => ⟨[fa, ta], note⟩
  match resolveAtForNotify proc fs srcfd src "from", resolveAtForNotify proc fs dstfd dst "to" with
  | .nothing, _ => none
  | _, .nothing => none
  | .resolved a, .resolved b => notifyRenameWithDstPreimage proc h fs syscall a b
  | .failed fa fe, .failed ta _ => unresolved fa ta fe
  | .failed fa fe, .resolved ta => unresolved fa ta fe
  | .resolved fa, .failed ta fe => unresolved fa ta fe

/-! ## The interposed calls -/

/-- A call that removes or renames a directory entry. -/
inductive NameCall where
  | unlink (path : String)
  | unlinkat (dirfd : DirFd) (path : String)
  | rename (src dst : String)
  | renameat (srcfd : DirFd) (src : String) (dstfd : DirFd) (dst : String)
deriving DecidableEq, Repr

/-- What the interposer sends before it makes the call. The macOS ones do not look at the
descriptors. -/
def NameCall.notify (proc : Process) (h : Host) (fs : Fs) : NameCall → Option NameReport
  | .unlink path =>
    (notifyPreMutationWithContent proc.env h fs "unlink" path).map NameReport.single
  | .unlinkat dirfd path =>
    match h.os with
    | .macos => (notifyPreMutationWithContent proc.env h fs "unlinkat" path).map NameReport.single
    | _ => (notifyPreMutationWithContentAt proc h fs "unlinkat" dirfd path).map NameReport.single
  | .rename src dst => notifyRenameWithDstPreimage proc h fs "rename" src dst
  | .renameat srcfd src dstfd dst =>
    match h.os with
    | .macos => notifyRenameWithDstPreimage proc h fs "renameat" src dst
    | _ => notifyRenameAt proc h fs "renameat" srcfd src dstfd dst

end ShitUndo
