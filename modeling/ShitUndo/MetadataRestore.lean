import ShitUndo.Effects

/-!
# Whether a metadata restore is complete

`RestoreMetadata` sets owner, mode, attributes, flags and time with one call each. The calls
interfere: a change of owner drops the set-id bits, and an immutable flag refuses the calls that
come after it. A change of owner the daemon may not make goes through the privileged helper, and
only mode and time follow it.

* `Host.GuardsMetadata`: a kernel that refuses metadata changes of immutable files, may refuse the
  daemon a change of owner, and never refuses the helper one;
* `RestoreComplete`: the op is applied and the file has everything that was captured.
-/

namespace ShitUndo

/-! ## Immutable files -/

/-- `UF_IMMUTABLE` or `SF_IMMUTABLE`. -/
def isImmutable (flags : Nat) : Bool := decide (flags &&& 0x20002 ≠ 0)

/-- The path leads to an immutable inode. -/
def Fs.immutableAt (fs : Fs) (p : PathBuf) : Bool :=
  (fs.resolve p).any fun i => isImmutable (fs.inode i).flags

/-- The refusal of a metadata change. -/
def Fs.guard (fs : Fs) (p : PathBuf) : Option Errno :=
  if fs.immutableAt p then some .eperm else none

/-- What `chown(2)` does to an inode. -/
def chowned (uid gid : Nat) (n : Inode) : Inode :=
  { n with uid := uid, gid := gid,
           perm := if n.kind = .regular then n.perm &&& 0o1777 else n.perm }

/-- A kernel that protects immutable files. It may refuse the daemon a change of owner, for want of
privilege; the helper has it. -/
structure Host.GuardsMetadata (h : Host) : Prop where
  chown : ∀ p fs e, h.deny .chown p fs = some e → e = .eperm
  chmod : ∀ p fs, h.deny .chmod p fs = fs.guard p
  setxattr : ∀ p fs, h.deny .setxattr p fs = fs.guard p
  utimensat : ∀ p fs, h.deny .utimensat p fs = fs.guard p
  openRead : ∀ p fs, h.deny .openRead p fs = none
  chflags : ∀ p fs, h.deny .chflags p fs = none
  router : ∀ p uid gid fs i, fs.resolve p = some i → fs.immutableAt p = false →
    h.routerChown p uid gid fs = .applied (fs.modifyInode i (chowned uid gid))

/-! ## The property -/

/-- The inode has the captured metadata. -/
structure HasMetadata (os : Os) (target : FileMetadata) (n : Inode) : Prop where
  perm : n.perm = target.mode &&& 0o7777
  uid : n.uid = target.uid
  gid : n.gid = target.gid
  xattrs : ∀ k, n.xattrs k = target.xattrs.lookup k
  flags : (n.stat os).flags = target.flags
  mtime : n.mtime = target.mtimeUnixNanos

/-- `RestoreMetadata` is applied, and nothing of the captured metadata is missing. -/
def RestoreComplete (h : Host) (p : PathBuf) (target : FileMetadata) (fs : Fs) : Prop :=
  (applyRestoreMetadata h p target fs).1 = .applied ∧
    ∃ n, (applyRestoreMetadata h p target fs).2.node p = some n ∧ HasMetadata h.os target n

/-- Metadata as capture takes it: there are no flags on Linux, and `st_mtime` is an `i64`. -/
structure FileMetadata.Captured (os : Os) (target : FileMetadata) : Prop where
  flags : os = .linux → target.flags = 0
  mtime : -(2 ^ 63) ≤ target.mtimeUnixNanos / 1000000000 ∧
    target.mtimeUnixNanos / 1000000000 < 2 ^ 63

theorem FileMetadata.Captured.utimesValue_eq {os : Os} {target : FileMetadata}
    (hcaptured : target.Captured os) :
    utimesValue target.mtimeUnixNanos = target.mtimeUnixNanos := by
  rw [utimesValue, if_pos hcaptured.mtime]
  omega

/-! ## The calls on a regular file -/

/-- The regular file with the name `p` is inode `i`, and it looks like `n`. -/
structure Fs.FileAt (fs : Fs) (p : PathBuf) (i : InodeRef) (n : Inode) : Prop where
  name : fs.lookup p = some i
  inode : fs.inode i = n
  regular : n.kind = .regular

section Calls

variable {h : Host} {fs : Fs} {p : PathBuf} {i : InodeRef} {n : Inode} {target : FileMetadata}

namespace Fs.FileAt

variable (hfile : fs.FileAt p i n)

include hfile

theorem node_eq : fs.node p = some n := by
  rw [Fs.node, hfile.name, Option.map_some, hfile.inode]

theorem resolve_eq : fs.resolve p = some i := by
  refine Fs.resolve_of_lookup hfile.name ?_
  rw [hfile.inode, hfile.regular]
  decide

theorem immutableAt_eq : fs.immutableAt p = isImmutable n.flags := by
  rw [Fs.immutableAt, hfile.resolve_eq, Option.any_some, hfile.inode]

theorem guard_eq_none (hmut : isImmutable n.flags = false) : fs.guard p = none := by
  rw [Fs.guard, hfile.immutableAt_eq, hmut]
  rfl

theorem modify (f : Inode → Inode) (hf : (f n).kind = n.kind) :
    (fs.modifyInode i f).FileAt p i (f n) where
  name := hfile.name
  inode := by rw [Fs.inode_modifyInode_self, hfile.inode]
  regular := hf.trans hfile.regular

end Fs.FileAt

theorem chown_of_allowed (hfile : fs.FileAt p i n) (hallowed : h.deny .chown p fs = none)
    (uid gid : Nat) :
    fs.chown h p uid gid = .ok (fs.modifyInode i (chowned uid gid)) := by
  rw [Fs.chown, Host.attempt, hallowed]
  exact Fs.onResolved_of_resolve hfile.resolve_eq _

section Guarded

variable (hguard : h.GuardsMetadata)

include hguard

theorem chown_of_refused (hrefused : h.deny .chown p fs ≠ none) (uid gid : Nat) :
    fs.chown h p uid gid = .error .eperm := by
  obtain ⟨e, he⟩ := Option.ne_none_iff_exists'.mp hrefused
  rw [Fs.chown, Host.attempt, he, hguard.chown p fs e he]

theorem chmod_of_mutable (hfile : fs.FileAt p i n) (hmut : isImmutable n.flags = false)
    (perm : Nat) :
    fs.chmod h p perm = .ok (fs.modifyInode i fun m => { m with perm := perm }) := by
  rw [Fs.chmod, Host.attempt, hguard.chmod, hfile.guard_eq_none hmut]
  exact Fs.onResolved_of_resolve hfile.resolve_eq _

theorem restoreUserXattrs_of_mutable (hfile : fs.FileAt p i n)
    (hmut : isImmutable n.flags = false) (xattrs : List (String × Bytes)) :
    restoreUserXattrs h p xattrs fs = fs.modifyInode i fun m =>
      { m with xattrs := fun k => if shouldSkipRestore h.os k then m.xattrs k
                                  else xattrs.lookup k } := by
  simp [restoreUserXattrs, hguard.openRead, hguard.setxattr, hfile.guard_eq_none hmut,
    hfile.resolve_eq]

theorem restoreFlagsValue_fileAt (hos : h.os ≠ .linux) (hfile : fs.FileAt p i n) (flags : Nat) :
    (restoreFlagsValue h p flags fs).2.FileAt p i { n with flags := flags } := by
  have hset : fs.chflags h p flags = .ok (fs.modifyInode i fun m => { m with flags := flags }) := by
    rw [Fs.chflags, Host.attempt, hguard.chflags]
    exact Fs.onResolved_of_resolve hfile.resolve_eq _
  unfold restoreFlagsValue
  split
  case h_1 hlinux => exact absurd hlinux hos
  case h_2 =>
    rw [hfile.node_eq]
    dsimp only
    by_cases hsame : n.flags = flags
    · rw [if_pos hsame, ← hsame]
      exact hfile
    · rw [if_neg hsame, hset]
      exact hfile.modify (fun m => { m with flags := flags }) rfl

/-- A time of zero is not set, so that it must be zero already. -/
theorem restoreMtimeOnly_of_mutable (hfile : fs.FileAt p i n) (hmut : isImmutable n.flags = false)
    (hcaptured : target.Captured h.os) (hmtime : target.mtimeUnixNanos = 0 → n.mtime = 0) :
    ∃ fs', restoreMtimeOnly h p target fs = (.ok (), fs') ∧
      fs'.FileAt p i { n with mtime := target.mtimeUnixNanos } := by
  have hset : fs.utimensat h p (utimesValue target.mtimeUnixNanos) =
      .ok (fs.modifyInode i fun m => { m with mtime := target.mtimeUnixNanos }) := by
    rw [Fs.utimensat, Host.attempt, hguard.utimensat, hfile.guard_eq_none hmut,
      hcaptured.utimesValue_eq]
    exact Fs.onResolved_of_resolve hfile.resolve_eq _
  rw [restoreMtimeOnly, hset]
  split_ifs with hzero
  · refine ⟨fs, rfl, ?_⟩
    rw [hzero, ← hmtime hzero]
    exact hfile
  · exact ⟨_, rfl, hfile.modify (fun m => { m with mtime := target.mtimeUnixNanos }) rfl⟩

theorem restoreMtimeOnly_of_immutable (hfile : fs.FileAt p i n)
    (himm : isImmutable n.flags = true) (hmtime : target.mtimeUnixNanos ≠ 0) :
    ∃ e, restoreMtimeOnly h p target fs = (.error e, fs) := by
  have hset : fs.utimensat h p (utimesValue target.mtimeUnixNanos) = .error .eperm := by
    rw [Fs.utimensat, Host.attempt, hguard.utimensat, Fs.guard, hfile.immutableAt_eq, himm]
    rfl
  rw [restoreMtimeOnly, if_neg hmtime, hset]
  exact ⟨_, rfl⟩

/-! ## The two ways -/

/-- The inode once owner, mode and attributes are set. -/
def attributesRestored (os : Os) (target : FileMetadata) (n : Inode) : Inode :=
  { n with
    uid := target.uid
    gid := target.gid
    perm := target.mode &&& 0o7777
    xattrs := fun k => if shouldSkipRestore os k then n.xattrs k else target.xattrs.lookup k }

/-- The flags after the direct way. -/
def flagsAfter (os : Os) (target : FileMetadata) (n : Inode) : Nat :=
  if os = .linux then n.flags else target.flags

section

variable (hfile : fs.FileAt p i n)

include hfile

variable (hmut : isImmutable n.flags = false)

include hmut

theorem applyRestoreMetadata_routed (hrefused : h.deny .chown p fs ≠ none)
    (hcaptured : target.Captured h.os) (hmtime : target.mtimeUnixNanos = 0 → n.mtime = 0) :
    ∃ fs', applyRestoreMetadata h p target fs = (.applied, fs') ∧
      fs'.FileAt p i { n with
        uid := target.uid
        gid := target.gid
        perm := target.mode &&& 0o7777
        mtime := target.mtimeUnixNanos } := by
  have hinner : restoreMetadataInner h p target fs =
      (.error (.chownNeedsPrivilege target.uid target.gid), fs) := by
    rw [restoreMetadataInner, chown_of_refused hguard hrefused]
  have howned := hfile.modify (chowned target.uid target.gid) rfl
  have hmoded := howned.modify (fun m => { m with perm := target.mode &&& 0o7777 }) rfl
  have hrouter := hguard.router p target.uid target.gid fs i hfile.resolve_eq
    (hfile.immutableAt_eq.trans hmut)
  unfold applyRestoreMetadata
  rw [hinner]
  dsimp only
  rw [hrouter]
  dsimp only
  rw [chmod_of_mutable hguard howned hmut]
  dsimp only
  obtain ⟨fs', htimed, hfile'⟩ := restoreMtimeOnly_of_mutable hguard hmoded hmut hcaptured hmtime
  rw [htimed]
  exact ⟨fs', rfl, hfile'⟩

variable (hallowed : h.deny .chown p fs = none)

include hallowed

theorem restoreMetadataInner_direct (target : FileMetadata) :
    ∃ flagged : Fs, flagged.FileAt p i
        { attributesRestored h.os target n with flags := flagsAfter h.os target n } ∧
      restoreMetadataInner h p target fs =
        ((restoreMtimeOnly h p target flagged).1.mapError .other,
          (restoreMtimeOnly h p target flagged).2) := by
  have howned := hfile.modify (chowned target.uid target.gid) rfl
  have hmoded := howned.modify (fun m => { m with perm := target.mode &&& 0o7777 }) rfl
  have hattr : (restoreUserXattrs h p target.xattrs
      ((fs.modifyInode i (chowned target.uid target.gid)).modifyInode i
        fun m => { m with perm := target.mode &&& 0o7777 })).FileAt p i
        (attributesRestored h.os target n) := by
    rw [restoreUserXattrs_of_mutable hguard hmoded hmut]
    refine hmoded.modify _ ?_
    rfl
  have hinner : ∀ flagged, flagged = (if h.os = .linux then
        restoreUserXattrs h p target.xattrs
          ((fs.modifyInode i (chowned target.uid target.gid)).modifyInode i
            fun m => { m with perm := target.mode &&& 0o7777 })
        else (restoreFlagsValue h p target.flags (restoreUserXattrs h p target.xattrs
          ((fs.modifyInode i (chowned target.uid target.gid)).modifyInode i
            fun m => { m with perm := target.mode &&& 0o7777 }))).2) →
      restoreMetadataInner h p target fs =
        ((restoreMtimeOnly h p target flagged).1.mapError .other,
          (restoreMtimeOnly h p target flagged).2) := by
    rintro flagged rfl
    unfold restoreMetadataInner
    rw [chown_of_allowed hfile hallowed]
    dsimp only
    rw [chmod_of_mutable hguard howned hmut]
    dsimp only
    split <;> rename_i hres <;> rw [hres] <;> rfl
  by_cases hos : h.os = .linux
  · refine ⟨_, ?_, hinner _ rfl⟩
    rw [if_pos hos, flagsAfter, if_pos hos]
    exact hattr
  · refine ⟨_, ?_, hinner _ rfl⟩
    rw [if_neg hos, flagsAfter, if_neg hos]
    exact restoreFlagsValue_fileAt hguard hos hattr target.flags

theorem applyRestoreMetadata_locked
    (hmtime : target.mtimeUnixNanos ≠ 0) (hlast : isImmutable (flagsAfter h.os target n) = true) :
    (applyRestoreMetadata h p target fs).1 ≠ .applied := by
  obtain ⟨flagged, hflagged, hinner⟩ :=
    restoreMetadataInner_direct hguard hfile hmut hallowed target
  obtain ⟨e, he⟩ := restoreMtimeOnly_of_immutable hguard hflagged hlast hmtime
  rw [applyRestoreMetadata, hinner, he]
  intro happlied
  cases happlied

theorem applyRestoreMetadata_direct
    (hcaptured : target.Captured h.os) (hmtime : target.mtimeUnixNanos = 0 → n.mtime = 0)
    (hlast : isImmutable (flagsAfter h.os target n) = false) :
    ∃ fs', applyRestoreMetadata h p target fs = (.applied, fs') ∧
      fs'.FileAt p i { attributesRestored h.os target n with
        flags := flagsAfter h.os target n
        mtime := target.mtimeUnixNanos } := by
  obtain ⟨flagged, hflagged, hinner⟩ :=
    restoreMetadataInner_direct hguard hfile hmut hallowed target
  obtain ⟨fs', htimed, hfile'⟩ :=
    restoreMtimeOnly_of_mutable hguard hflagged hlast hcaptured hmtime
  rw [htimed] at hinner
  rw [applyRestoreMetadata, hinner]
  exact ⟨fs', rfl, hfile'⟩

end

omit hguard in
theorem isImmutable_flagsAfter_iff (hmut : isImmutable n.flags = false) :
    isImmutable (flagsAfter h.os target n) = false ↔
      h.os = .linux ∨ isImmutable target.flags = false := by
  by_cases hos : h.os = .linux
  · simp [flagsAfter, hos, hmut]
  · simp [flagsAfter, hos]

/-! ## Complete restores -/

/-- On the direct way the restored flags must not be immutable ones, and what the kernel stamps
itself must be as captured. Through the helper, attributes and flags must be so already. -/
def RestoreReaches (h : Host) (p : PathBuf) (target : FileMetadata) (fs : Fs) (n : Inode) : Prop :=
  if h.deny .chown p fs = none then
    (h.os = .linux ∨ isImmutable target.flags = false) ∧
      ∀ k, shouldSkipRestore h.os k = true → n.xattrs k = target.xattrs.lookup k
  else
    (n.stat h.os).flags = target.flags ∧ ∀ k, n.xattrs k = target.xattrs.lookup k

/-- **Complete restores, exactly.** For a regular file that is not immutable, on any kernel that
guards immutable files, and any captured metadata with a time. -/
theorem restoreComplete_iff (hfile : fs.FileAt p i n) (hmut : isImmutable n.flags = false)
    (hcaptured : target.Captured h.os) (hmtime : target.mtimeUnixNanos ≠ 0) :
    RestoreComplete h p target fs ↔ RestoreReaches h p target fs n := by
  by_cases hallowed : h.deny .chown p fs = none
  · rw [RestoreReaches, if_pos hallowed, ← isImmutable_flagsAfter_iff hmut]
    cases hlast : isImmutable (flagsAfter h.os target n) with
    | true =>
      constructor
      · rintro ⟨happlied, -⟩
        exact absurd happlied (applyRestoreMetadata_locked hguard hfile hmut hallowed hmtime hlast)
      · rintro ⟨hflags, -⟩
        cases hflags
    | false =>
      obtain ⟨fs', happlied, hfile'⟩ :=
        applyRestoreMetadata_direct hguard hfile hmut hallowed hcaptured
          (fun hzero => absurd hzero hmtime) hlast
      rw [RestoreComplete, happlied]
      constructor
      · rintro ⟨-, m, hm, hhas⟩
        rw [hfile'.node_eq] at hm
        cases hm
        refine ⟨rfl, ?_⟩
        intro k hskip
        exact (if_pos hskip).symm.trans (hhas.xattrs k)
      · rintro ⟨-, hstamped⟩
        refine ⟨rfl, _, hfile'.node_eq, rfl, rfl, rfl, ?_, ?_, rfl⟩
        · intro k
          by_cases hskip : shouldSkipRestore h.os k = true
          · exact (if_pos hskip).trans (hstamped k hskip)
          · exact if_neg hskip
        · by_cases hos : h.os = .linux
          · exact (if_pos hos).trans (hcaptured.flags hos).symm
          · exact (if_neg hos).trans (if_neg hos)
  · obtain ⟨fs', happlied, hfile'⟩ :=
      applyRestoreMetadata_routed hguard hfile hmut hallowed hcaptured
        fun hzero => absurd hzero hmtime
    rw [RestoreReaches, if_neg hallowed, RestoreComplete, happlied]
    constructor
    · rintro ⟨-, m, hm, hhas⟩
      rw [hfile'.node_eq] at hm
      cases hm
      exact ⟨hhas.flags, hhas.xattrs⟩
    · rintro ⟨hflags, hxattrs⟩
      exact ⟨rfl, _, hfile'.node_eq, rfl, rfl, rfl, hxattrs, hflags, rfl⟩

end Guarded

end Calls

/-! ## Two machines -/

/-- A machine that guards immutable files, with or without the privilege to change owners. -/
def Host.guarding (os : Os) (mayChown : Bool) : Host :=
  { Host.sample with
    os := os
    deny := fun call p fs =>
      match call with
      | .chown => if mayChown then none else some .eperm
      | .chmod | .setxattr | .utimensat => fs.guard p
      | _ => none
    routerChown := fun p uid gid fs =>
      match fs.resolve p with
      | some i => .applied (fs.modifyInode i (chowned uid gid))
      | none => .notFound }

theorem Host.guarding_guardsMetadata (os : Os) (mayChown : Bool) :
    (Host.guarding os mayChown).GuardsMetadata where
  chown := by
    intro p fs e he
    cases mayChown with
    | true => cases he
    | false => exact (Option.some.inj he).symm
  chmod := fun _ _ => rfl
  setxattr := fun _ _ => rfl
  utimensat := fun _ _ => rfl
  openRead := fun _ _ => rfl
  chflags := fun _ _ => rfl
  router := by
    intro p uid gid fs i hi _
    simp only [Host.guarding, hi]

/-- `/f`, an ordinary file. -/
def soleFile : Fs := .ofList [("/f", .file [1])]

/-- Captured metadata of a set-uid file of another owner, with an attribute and the given flags. -/
def setuidTarget (flags : Nat) : FileMetadata :=
  { mode := 0o104755, uid := 0, gid := 0, size := 1, mtimeUnixNanos := 1500000000,
    xattrs := [("tag", [7])], acl := none, flags := flags }

theorem soleFile_fileAt : soleFile.FileAt (PathBuf.ofString "/f") ⟨1, 2⟩ (.file [1]) :=
  ⟨by decide, rfl, rfl⟩

/-- With the privilege and without immutable flags everything comes back, the set-uid bit too. -/
theorem setuid_restored :
    RestoreComplete (.guarding .freebsd true) (PathBuf.ofString "/f") (setuidTarget 0x8000)
      soleFile := by
  refine (restoreComplete_iff (Host.guarding_guardsMetadata _ _) soleFile_fileAt (by decide)
    ⟨fun hos => ?_, by decide⟩ (by decide)).mpr ⟨.inr (by decide), fun k hk => ?_⟩
  · cases hos
  · simp [shouldSkipRestore, Host.guarding] at hk

/-- An immutable flag is set before the time, which then is refused; and through the helper neither
attributes nor flags are restored. -/
theorem metadata_left_behind :
    ¬ RestoreComplete (.guarding .freebsd true) (PathBuf.ofString "/f") (setuidTarget 2) soleFile ∧
      ¬ RestoreComplete (.guarding .freebsd false) (PathBuf.ofString "/f") (setuidTarget 0x8000)
        soleFile := by
  constructor
  · rintro ⟨happlied, -⟩
    revert happlied
    decide
  · rintro ⟨-, n, hn, hhas⟩
    have hattr : ((applyRestoreMetadata (.guarding .freebsd false) (PathBuf.ofString "/f")
        (setuidTarget 0x8000) soleFile).2.node (PathBuf.ofString "/f")).bind
          (fun n => n.xattrs "tag") = none := by
      decide
    rw [hn, Option.bind_some, hhas.xattrs] at hattr
    revert hattr
    decide

end ShitUndo
