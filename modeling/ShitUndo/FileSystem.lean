import ShitUndo.Probe
import ShitUndo.Lib.PathTree
import Mathlib.Data.List.Dedup
import Mathlib.Data.List.MinMax

/-!
# The file system undo acts on

A file system is a finite tree of names over an inode table. The system calls the file executor
makes are functions on it that fail with an `Errno` where POSIX says so.

* Names are absolute canonical paths: intermediate symlinks are not followed, a final one is
  (`Fs.resolve`), as far as the call in question follows it.
* Time stamps change only where a call sets them, and on new inodes; the implicit updates of
  directories are left out.
* What the machine decides is in `Host`: the operating system, the umask, the next inode number,
  the content hash, and which calls the kernel or the disk refuses.
-/

namespace ShitUndo

open PathTree (Entries Tree)

/-! ## Inodes and names -/

/-- The content and metadata of an inode. `target` is the text of a symlink. -/
@[ext] structure Inode where
  kind : FileKind
  perm : Nat
  uid : Nat
  gid : Nat
  mtime : Int
  xattrs : String → Option Bytes
  flags : Nat
  content : Bytes
  target : String

/-- A file system: names, and the inodes they refer to. -/
structure Fs where
  entries : Entries Component InodeRef
  inode : InodeRef → Inode

namespace Fs

/-- The inode a name refers to, without following it. -/
def lookup (fs : Fs) : PathBuf → Option InodeRef := fs.entries.get

/-- The content and metadata at a name, without following it. -/
def node (fs : Fs) (p : PathBuf) : Option Inode := (fs.lookup p).map fs.inode

/-- Where a symlink at `p` points. -/
def linkTarget (p : PathBuf) (target : String) : PathBuf :=
  match PathBuf.ofString target with
  | .rootDir :: rest => .rootDir :: rest
  | relative => p.dropLast ++ relative

/-- Follow symlinks at the end of a path, at most `fuel` of them. -/
def follow (fs : Fs) : Nat → PathBuf → Option InodeRef
  | 0, _ => none
  | fuel + 1, p =>
    match fs.lookup p with
    | none => none
    | some i =>
      if (fs.inode i).kind = .symlink then fs.follow fuel (linkTarget p (fs.inode i).target)
      else some i

/-- The inode a path resolves to; the kernel gives up after 40 symlinks. -/
def resolve (fs : Fs) (p : PathBuf) : Option InodeRef := fs.follow 40 p

/-- The name that symlinks at the end of a path lead to, which may be free. -/
def followName (fs : Fs) : Nat → PathBuf → Option PathBuf
  | 0, _ => none
  | fuel + 1, p =>
    match fs.lookup p with
    | none => some p
    | some i =>
      if (fs.inode i).kind = .symlink then fs.followName fuel (linkTarget p (fs.inode i).target)
      else some p

/-- The inode table with one inode changed. -/
def setInode (fs : Fs) (i : InodeRef) (n : Inode) : Fs :=
  { fs with inode := Function.update fs.inode i n }

/-- Change the inode a path resolves to. -/
def modifyInode (fs : Fs) (i : InodeRef) (f : Inode → Inode) : Fs :=
  fs.setInode i (f (fs.inode i))

/-- Give the name `p` to inode `i`. -/
def link (fs : Fs) (p : PathBuf) (i : InodeRef) : Fs :=
  { fs with entries := fs.entries.put p i }

end Fs

/-! ## The machine -/

/-- Error numbers. -/
inductive Errno where
  | eperm | enoent | eacces | eexist | enotdir | eisdir | einval | enospc | enotempty | eloop
deriving DecidableEq, Repr

/-- `impl Display for io::Error`. -/
def Errno.text : Errno → String
  | eperm => "Operation not permitted (os error 1)"
  | enoent => "No such file or directory (os error 2)"
  | eacces => "Permission denied (os error 13)"
  | eexist => "File exists (os error 17)"
  | enotdir => "Not a directory (os error 20)"
  | eisdir => "Is a directory (os error 21)"
  | einval => "Invalid argument (os error 22)"
  | enospc => "No space left on device (os error 28)"
  | enotempty => "Directory not empty (os error 39)"
  | eloop => "Too many levels of symbolic links (os error 40)"

/-- `impl Display for nix::errno::Errno`. -/
def Errno.nixText : Errno → String
  | eperm => "EPERM: Operation not permitted"
  | enoent => "ENOENT: No such file or directory"
  | eacces => "EACCES: Permission denied"
  | eexist => "EEXIST: File exists"
  | enotdir => "ENOTDIR: Not a directory"
  | eisdir => "EISDIR: Is a directory"
  | einval => "EINVAL: Invalid argument"
  | enospc => "ENOSPC: No space left on device"
  | enotempty => "ENOTEMPTY: Directory not empty"
  | eloop => "ELOOP: Too many symbolic links encountered"

/-- Operating systems the executor distinguishes. -/
inductive Os where
  | linux | macos | freebsd
deriving DecidableEq, Repr

/-- System calls the kernel may refuse for reasons of its own (permissions, a full disk). -/
inductive Syscall where
  | mkdir | create | rename | chown | chmod | openRead | setxattr | chflags | utimensat
  | openWrite | truncate | unlink | rmdir | link | symlink
deriving DecidableEq, Repr

/-- `PrivilegedOpOutcome`, with the state after the helper acted. -/
inductive PrivilegedOpOutcome where
  | applied (after : Fs)
  | outOfScope
  | permissionDenied
  | notFound
  | failed (err : String)

/-- The machine undo runs on. `freshInode` numbers the next new inode; `tmpName` is the name of
the next temporary file, which no other file has; `deny` refuses a call; `routerChown` and
`routerMknod` are the privileged helper; `debugOp` is the derived `Debug` of an op. -/
structure Host where
  os : Os
  umask : Nat
  euid : Nat
  egid : Nat
  now : Int
  freshInode : Fs → InodeRef
  freshInode_unused : ∀ fs p, fs.lookup p ≠ some (freshInode fs)
  tmpName : Fs → String
  blake3 : Bytes → BlobHash
  readBlob : BlobHash → Except String Bytes
  deny : Syscall → PathBuf → Fs → Option Errno
  routerChown : PathBuf → Nat → Nat → Fs → PrivilegedOpOutcome
  routerMknod : PathBuf → Nat → Fs → PrivilegedOpOutcome
  debugOp : InverseOp → String

/-- No call is ever refused. -/
def Host.Permissive (h : Host) : Prop := ∀ c p fs, h.deny c p fs = none

/-- Permission bits left after the umask. -/
def Host.masked (h : Host) (perm : Nat) : Nat := perm ^^^ (perm &&& h.umask)

/-- A new inode of the given kind. -/
def Host.newInode (h : Host) (kind : FileKind) (perm : Nat) (content : Bytes) (target : String) :
    Inode :=
  { kind := kind, perm := perm, uid := h.euid, gid := h.egid, mtime := h.now,
    xattrs := fun _ => none, flags := 0, content := content, target := target }

/-- Create `p` as a new inode. -/
def Fs.create (h : Host) (p : PathBuf) (n : Inode) (fs : Fs) : Fs :=
  (fs.link p (h.freshInode fs)).setInode (h.freshInode fs) n

/-! ## A concrete machine -/

/-- One past the largest inode number in use. -/
def Fs.nextInode (fs : Fs) : InodeRef :=
  ⟨1, (fs.entries.map (fun e => e.2.inode)).foldr max 0 + 1⟩

theorem Fs.nextInode_unused (fs : Fs) (p : PathBuf) : fs.lookup p ≠ some fs.nextInode := by
  intro hp
  obtain ⟨l₁, l₂, hl, -⟩ := List.lookup_eq_some_iff.mp hp
  have hmem : fs.nextInode.inode ∈ fs.entries.map (fun e => e.2.inode) := by
    rw [List.mem_map]
    exact ⟨(p, fs.nextInode), by rw [hl]; exact List.mem_append_right _ List.mem_cons_self, rfl⟩
  have hle : fs.nextInode.inode ≤ (fs.entries.map (fun e => e.2.inode)).foldr max 0 :=
    List.le_max_of_le' 0 hmem le_rfl
  simp only [nextInode] at hle
  omega

/-- A toy content address, one to one on up to 31 bytes: the bytes as digits after a leading 1. -/
def sampleHash (bytes : Bytes) : BlobHash :=
  ⟨BitVec.ofNat 256 (bytes.foldl (fun n b => n * 256 + b.toNat) 1)⟩

/-- The bytes at a toy content address. -/
def sampleBytes (hash : BlobHash) : Bytes :=
  go 32 hash.digest.toNat []
where
  go : Nat → Nat → Bytes → Bytes
    | 0, _, acc => acc
    | fuel + 1, n, acc => if n ≤ 1 then acc else go fuel (n / 256) (UInt8.ofNat (n % 256) :: acc)

/-- A Linux machine that refuses nothing and whose blob store has everything. -/
def Host.sample : Host where
  os := .linux
  umask := 0o022
  euid := 1000
  egid := 1000
  now := 9
  freshInode := Fs.nextInode
  freshInode_unused := Fs.nextInode_unused
  tmpName := fun _ => ".shit-tmp-1-1"
  blake3 := sampleHash
  readBlob := fun hash => .ok (sampleBytes hash)
  deny := fun _ _ _ => none
  routerChown := fun _ _ _ _ => .permissionDenied
  routerMknod := fun _ _ _ => .permissionDenied
  debugOp := fun _ => ""

theorem Host.sample_permissive : Host.sample.Permissive := fun _ _ _ => rfl

/-- An ordinary file. -/
def Inode.file (content : Bytes) : Inode :=
  Host.sample.newInode .regular 0o644 content ""

/-- An ordinary directory. -/
def Inode.dir : Inode :=
  Host.sample.newInode .directory 0o755 [] ""

/-- A tree with the given names over a root directory; the n-th name has inode number n + 2. -/
def Fs.ofList (nodes : List (String × Inode)) : Fs where
  entries := ([.rootDir], ⟨1, 1⟩) ::
    nodes.mapIdx fun i e => (PathBuf.ofString e.1, ⟨1, i + 2⟩)
  inode := fun ref =>
    if ref.inode ≤ 1 then .dir else ((nodes.map Prod.snd)[ref.inode - 2]?).getD .dir

/-! ## The live probe -/

/-- `lstat` of an inode, as `LiveStateProbe::stat` reports it (no xattrs, no ACL). -/
def Inode.stat (os : Os) (n : Inode) : FileMetadata :=
  -- the permissions are the low twelve bits of the mode
  { mode := n.kind.ifmt + n.perm % 0o10000, uid := n.uid, gid := n.gid,
    size := match n.kind with
      | .regular => n.content.length
      | .symlink => n.target.length
      | _ => 0
    mtimeUnixNanos := n.mtime, xattrs := [], acl := none
    flags := if os = .linux then 0 else n.flags }

/-- `LiveStateProbe`. -/
def Fs.probe (h : Host) (fs : Fs) : StateProbe where
  stat := fun p => (fs.lookup p).map fun i => ⟨i, (fs.inode i).stat h.os⟩
  contentHash := fun p =>
    match fs.node p with
    | some n => if n.kind = .regular then some (h.blake3 n.content) else none
    | none => none

/-! ## System calls -/

/-- The directory a new entry `p` goes into must exist and be a directory. -/
def Fs.parentIsDir (fs : Fs) (p : PathBuf) : Except Errno Unit :=
  match p.parent with
  | none => .error .eexist
  | some parent =>
    match fs.resolve parent with
    | none => .error .enoent
    | some i => if (fs.inode i).kind = .directory then .ok () else .error .enotdir

/-- Do a call unless the machine refuses it. -/
def Host.attempt (h : Host) (c : Syscall) (p : PathBuf) (fs : Fs) (act : Except Errno Fs) :
    Except Errno Fs :=
  match h.deny c p fs with
  | some e => .error e
  | none => act

/-- `mkdir(2)`. -/
def Fs.mkdir (h : Host) (p : PathBuf) (fs : Fs) : Except Errno Fs :=
  h.attempt .mkdir p fs <|
    match fs.lookup p with
    | some _ => .error .eexist
    | none =>
      match fs.parentIsDir p with
      | .error e => .error e
      | .ok () => .ok (fs.create h p (h.newInode .directory (h.masked 0o777) [] ""))

/-- `rename(2)`. -/
def Fs.rename (h : Host) (src dst : PathBuf) (fs : Fs) : Except Errno Fs :=
  h.attempt .rename src fs <|
    match fs.lookup src with
    | none => .error .enoent
    | some i =>
      match fs.parentIsDir dst with
      | .error e => .error e
      | .ok () =>
        if src <+: dst ∧ src ≠ dst then .error .einval
        else
          let moved : Fs := { fs with entries := fs.entries.move src dst }
          match fs.lookup dst with
          | none => .ok moved
          | some j =>
            -- two names of one inode: nothing to do
            if i = j then .ok fs
            else if (fs.inode i).kind = .directory then
              if (fs.inode j).kind ≠ .directory then .error .enotdir
              else if fs.entries.hasBelow dst then .error .enotempty
              else .ok moved
            else if (fs.inode j).kind = .directory then .error .eisdir
            else .ok moved

/-- Change the inode `p` resolves to. -/
def Fs.onResolved (fs : Fs) (p : PathBuf) (f : Inode → Inode) : Except Errno Fs :=
  match fs.resolve p with
  | none => .error .enoent
  | some i => .ok (fs.modifyInode i f)

/-- `chown(2)`: also drops the set-id bits of a regular file. -/
def Fs.chown (h : Host) (p : PathBuf) (uid gid : Nat) (fs : Fs) : Except Errno Fs :=
  h.attempt .chown p fs <| fs.onResolved p fun n =>
    { n with uid := uid, gid := gid,
             perm := if n.kind = .regular then n.perm &&& 0o1777 else n.perm }

/-- `chmod(2)`. -/
def Fs.chmod (h : Host) (p : PathBuf) (perm : Nat) (fs : Fs) : Except Errno Fs :=
  h.attempt .chmod p fs <| fs.onResolved p fun n => { n with perm := perm }

/-- `utimensat(2)`, modification time only. -/
def Fs.utimensat (h : Host) (p : PathBuf) (mtime : Int) (fs : Fs) : Except Errno Fs :=
  h.attempt .utimensat p fs <| fs.onResolved p fun n => { n with mtime := mtime }

/-- `chflags(2)`. -/
def Fs.chflags (h : Host) (p : PathBuf) (flags : Nat) (fs : Fs) : Except Errno Fs :=
  h.attempt .chflags p fs <| fs.onResolved p fun n => { n with flags := flags }

/-- Remove the name of a file, symlink or other non-directory. -/
def Fs.unlink (h : Host) (p : PathBuf) (fs : Fs) : Except Errno Fs :=
  h.attempt .unlink p fs <|
    match fs.node p with
    | none => .error .enoent
    | some n =>
      if n.kind = .directory then .error .eisdir
      else .ok { fs with entries := fs.entries.erase p }

/-- `rmdir(2)`. -/
def Fs.rmdir (h : Host) (p : PathBuf) (fs : Fs) : Except Errno Fs :=
  h.attempt .rmdir p fs <|
    match fs.node p with
    | none => .error .enoent
    | some n =>
      if n.kind ≠ .directory then .error .enotdir
      else if fs.entries.hasBelow p then .error .enotempty
      else .ok { fs with entries := fs.entries.erase p }

/-- The entries of a directory, in the order they are stored in. -/
def Fs.children (fs : Fs) (p : PathBuf) : List PathBuf :=
  ((fs.entries.map Prod.fst).filter fun q => q ≠ [] ∧ q.dropLast = p).dedup

/-- How long the paths of a tree get. -/
def Fs.depth (fs : Fs) : Nat := (fs.entries.map fun e => e.1.length).foldr max 0

/-- What a call answers, with the file system it leaves behind. -/
def Fs.settle (fs : Fs) : Except Errno Fs → Except Errno Unit × Fs
  | .ok fs' => (.ok (), fs')
  | .error e => (.error e, fs)

/-- Remove one path after the other, up to the first that fails. -/
def removeEach (remove : PathBuf → Fs → Except Errno Unit × Fs) :
    List PathBuf → Fs → Except Errno Unit × Fs
  | [], fs => (.ok (), fs)
  | p :: rest, fs =>
    match remove p fs with
    | (.ok (), fs') => removeEach remove rest fs'
    | (.error e, fs') => (.error e, fs')

/-- Remove what is at a path: a directory is read and emptied before it goes. No path is deeper than
the fuel allows. -/
def removeTree (h : Host) : Nat → PathBuf → Fs → Except Errno Unit × Fs
  | 0, _, fs => (.error .enotempty, fs)
  | fuel + 1, p, fs =>
    if (fs.node p).any fun n => n.kind = .directory then
      match h.deny .openRead p fs with
      | some e => (.error e, fs)
      | none =>
        match removeEach (removeTree h fuel) (fs.children p) fs with
        | (.ok (), fs') => fs'.settle (fs'.rmdir h p)
        | (.error e, fs') => (.error e, fs')
    else fs.settle (fs.unlink h p)

/-- `remove_dir_all`: entry by entry. What was removed before a call that fails stays removed. -/
def Fs.removeDirAll (h : Host) (p : PathBuf) (fs : Fs) : Except Errno Unit × Fs :=
  removeTree h (fs.depth + 1) p fs

end ShitUndo
