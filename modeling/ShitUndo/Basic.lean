import Mathlib.Data.List.Sort
import Mathlib.Logic.Function.Basic

/-!
# Paths, inodes, metadata and time

The value types every other module is about, as `shit-planner` declares them in `inode.rs`,
`metadata.rs` and `time.rs`, together with the part of `std::path` the planner relies on.

* A `PathBuf` is the sequence of its components. Equality, `parent` and `starts_with` of
  `std::path::Path` are all defined on that sequence, so the model keeps nothing else.
* `InodeRef` and `BlobHash` are identities; blobs are looked up by hash, never inspected.
* Machine integers are `Nat` and `Int`: the planner copies and compares them only.
-/

namespace ShitUndo

/-! ## Paths -/

/-- `std::path::Component` on Unix. -/
inductive Component where
  | rootDir
  | curDir
  | parentDir
  | normal (name : String)
deriving DecidableEq, Repr

namespace Component

/-- The text of one component, as `Path::display` shows it. -/
def text : Component → String
  | rootDir => ""
  | curDir => "."
  | parentDir => ".."
  | normal name => name

/-- Position of the constructor in the derived order of `Component`. -/
def rank : Component → Nat
  | rootDir => 0
  | curDir => 1
  | parentDir => 2
  | normal _ => 3

/-- The derived `Ord` of `Component`: constructor first, then the name. -/
def le (a b : Component) : Bool :=
  match a, b with
  | normal m, normal n => decide (m ≤ n)
  | _, _ => decide (a.rank ≤ b.rank)

end Component

/-- `std::path::PathBuf`, up to the spelling of separators. -/
abbrev PathBuf := List Component

/-- Membership in a list of paths is decided by comparing components. -/
instance PathBuf.instLawfulBEq : LawfulBEq PathBuf := inferInstance

namespace PathBuf

/-- `PathBuf::from`: a leading `/` is the root, empty components and inner dots vanish. -/
def ofString (s : String) : PathBuf :=
  let pieces := s.toList.splitOnP (· == '/')
  let absolute := s.toList.head? == some '/'
  let comp (first : Bool) (piece : List Char) : Option Component :=
    if piece = [] then none
    else if piece = ['.'] then (if first && !absolute then some .curDir else none)
    else if piece = ['.', '.'] then some .parentDir
    else some (.normal (String.ofList piece))
  let rest := match pieces with
    | [] => []
    | p :: ps => (comp true p).toList ++ ps.filterMap (comp false)
  if absolute then .rootDir :: rest else rest

/-- `Path::parent`: all but the last component, nothing for the root and the empty path. -/
def parent (p : PathBuf) : Option PathBuf :=
  match p.getLast? with
  | none => none
  | some .rootDir => none
  | some _ => some p.dropLast

/-- `Path::starts_with`, on whole components. -/
def startsWith (p base : PathBuf) : Bool :=
  base.isPrefixOf p

def display (p : PathBuf) : String :=
  match p with
  | [.rootDir] => "/"
  | _ => "/".intercalate (p.map Component.text)

/-- The derived `Ord` of paths: lexicographic on components. -/
def le : PathBuf → PathBuf → Bool
  | [], _ => true
  | _ :: _, [] => false
  | a :: as, b :: bs => if a = b then le as bs else a.le b

/-- `path.parent().filter(|p| !p.as_os_str().is_empty())`: the parent, if it can be probed. -/
def nonemptyParent (p : PathBuf) : Option PathBuf :=
  p.parent.filter (fun pp => pp ≠ [])

theorem parent_concat_normal (p : PathBuf) (name : String) :
    parent (p ++ [.normal name]) = some p := by
  simp [parent]

theorem parent_eq_dropLast {p q : PathBuf} (h : p.parent = some q) : q = p.dropLast := by
  unfold parent at h
  split at h
  · cases h
  · cases h
  · exact (Option.some.inj h).symm

end PathBuf

/-! ## Inodes and blobs -/

/-- `InodeRef`: device and inode number. -/
structure InodeRef where
  dev : Nat
  inode : Nat
deriving DecidableEq, Repr

/-- `impl Display for InodeRef`. -/
def InodeRef.display (i : InodeRef) : String :=
  toString i.dev ++ ":" ++ toString i.inode

/-- `BlobHash([u8; 32])`. -/
structure BlobHash where
  digest : BitVec 256
deriving DecidableEq, Repr

/-- `BlobHash::to_hex`: 64 lower-case hexadecimal digits, also its `Display`. -/
def BlobHash.toHex (h : BlobHash) : String :=
  String.ofList <| (List.range 64).map fun i =>
    Nat.digitChar ((h.digest >>> (4 * (63 - i))).toNat % 16)

/-- File content. -/
abbrev Bytes := List UInt8

/-! ## Metadata -/

/-- `FileMetadata`: everything `stat`, `listxattr` and the flags call report. -/
structure FileMetadata where
  mode : Nat
  uid : Nat
  gid : Nat
  size : Nat
  mtimeUnixNanos : Int
  xattrs : List (String × Bytes)
  acl : Option Bytes
  flags : Nat
deriving DecidableEq, Repr

def FileMetadata.onlyFlagsChanged (self other : FileMetadata) : Bool :=
  decide (self.flags ≠ other.flags ∧ self.mode = other.mode ∧ self.uid = other.uid
    ∧ self.gid = other.gid
    ∧ self.size = other.size
    ∧ self.mtimeUnixNanos = other.mtimeUnixNanos
    ∧ self.xattrs = other.xattrs
    ∧ self.acl = other.acl)

/-- Metadata of an ordinary file of the given size, for concrete journals and trees. -/
def plainMeta (size : Nat) : FileMetadata :=
  { mode := 0o100644, uid := 1000, gid := 1000, size := size, mtimeUnixNanos := 1, xattrs := [],
    acl := none, flags := 0 }

inductive FileKind where
  | regular
  | directory
  | symlink
  | fifo
  | socket
  | blockDevice
  | charDevice
deriving DecidableEq, Repr

namespace FileKind

/-- The `S_IFMT` bits of a kind. -/
def ifmt : FileKind → Nat
  | regular => 0o100000
  | directory => 0o040000
  | symlink => 0o120000
  | fifo => 0o010000
  | socket => 0o140000
  | blockDevice => 0o060000
  | charDevice => 0o020000

def fromMode (mode : Nat) : Option FileKind :=
  let bits := mode &&& 0o170000
  if bits = 0o100000 then some regular
  else if bits = 0o040000 then some directory
  else if bits = 0o120000 then some symlink
  else if bits = 0o010000 then some fifo
  else if bits = 0o140000 then some socket
  else if bits = 0o060000 then some blockDevice
  else if bits = 0o020000 then some charDevice
  else none

end FileKind

/-! ## Time -/

/-- `TimePoint`, ordered by the logical clock first. -/
structure TimePoint where
  logical : Nat
  wallclockUnixNanos : Nat
deriving DecidableEq, Repr

/-- The derived strict order of `TimePoint`. -/
def TimePoint.lt (a b : TimePoint) : Prop :=
  a.logical < b.logical ∨ (a.logical = b.logical ∧ a.wallclockUnixNanos < b.wallclockUnixNanos)

instance : DecidableRel TimePoint.lt := fun a b =>
  inferInstanceAs (Decidable (a.logical < b.logical
    ∨ (a.logical = b.logical ∧ a.wallclockUnixNanos < b.wallclockUnixNanos)))

end ShitUndo
