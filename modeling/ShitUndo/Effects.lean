import ShitUndo.FileExecutor
import ShitUndo.Removal

/-!
# What the file ops do

One lemma per op on a machine that refuses no call (`Host.Permissive`): the exact state an op
leaves behind, or the exact view of it. Proofs about runs use these and never unfold the
executor again.
-/

namespace ShitUndo

open Fs Option Function PathTree Conflict Host

variable {h : Host} {fs fs' : Fs} {p q : PathBuf} {i j : InodeRef} {op : InverseOp}

/-! ## `RestoreContent` -/

section RestoreContent

variable {blob : BlobHash} {bytes : Bytes}

/-- Placing content either fails and leaves everything as it is, or puts a new file at the path. -/
theorem placeContent_cases (h : Host) (parent path : PathBuf) (bytes : Bytes) (fs : Fs) :
    (∃ e, placeContent h parent path bytes fs = (.error e, fs)) ∨
      (∃ q, h.deny .create q fs = none) ∧ placeContent h parent path bytes fs =
        (.ok (), fs.create h path (h.newInode .regular (h.masked 0o666) bytes "")) := by
  unfold placeContent
  dsimp only
  split
  · exact .inl ⟨_, rfl⟩
  rename_i hwritten
  have hallowed := (attempt_eq_ok hwritten).1
  split
  · exact .inl ⟨_, rfl⟩
  rename_i hrenamed
  have hdone := (attempt_eq_ok hrenamed).2
  refine .inr ⟨⟨_, hallowed⟩, ?_⟩
  split at hdone
  · split_ifs at hdone
    cases hdone
    rfl
  · cases hdone
    rfl

variable (habs : AbsolutePath p) (hroot : p ≠ [.rootDir]) (hparent : fs.IsDir p.dropLast)

include habs hroot hparent

theorem restoreContentInner_eq_placeContent (hread : h.readBlob blob = .ok bytes) :
    restoreContentInner h p blob fs = placeContent h p.dropLast p bytes fs := by
  obtain ⟨i, hi, -⟩ := hparent.resolve
  simp [restoreContentInner, hread, habs.parent_eq hroot, ensureParent, hi]

/-- **`RestoreContent` on any machine** leaves everything as it is, or puts a new file with the
stored bytes at the path. -/
theorem restoreContentInner_cases (blob : BlobHash) :
    (restoreContentInner h p blob fs).2 = fs ∨
      (∃ q, h.deny .create q fs = none) ∧ ∃ bytes, h.readBlob blob = .ok bytes ∧
        (restoreContentInner h p blob fs).2 =
          fs.create h p (h.newInode .regular (h.masked 0o666) bytes "") := by
  cases hread : h.readBlob blob with
  | error e => exact .inl (by simp [restoreContentInner, hread])
  | ok bytes =>
    rw [restoreContentInner_eq_placeContent habs hroot hparent hread]
    rcases placeContent_cases h p.dropLast p bytes fs with ⟨e, hfailed⟩ | ⟨hallowed, hdone⟩
    · exact .inl (by rw [hfailed])
    · exact .inr ⟨hallowed, bytes, rfl, by rw [hdone]⟩

/-- **`RestoreContent` puts a new file with the stored bytes at the path**, whatever file is there
or not, in a directory that exists, where the machine lets it. -/
theorem restoreContentInner_eq (hcreate : ∀ q, h.deny .create q fs = none)
    (hrename : ∀ q, h.deny .rename q fs = none)
    (hfile : ∀ n, fs.node p = some n → n.kind ≠ .directory) (hread : h.readBlob blob = .ok bytes) :
    restoreContentInner h p blob fs =
      (.ok (), fs.create h p (h.newInode .regular (h.masked 0o666) bytes "")) := by
  have htmp : fs.parentIsDir (p.dropLast ++ [.normal (h.tmpName fs)]) = .ok () :=
    parentIsDir_of_isDir (PathBuf.parent_concat_normal _ _) hparent
  rw [restoreContentInner_eq_placeContent habs hroot hparent hread]
  cases hn : fs.node p with
  | none => simp [placeContent, attempt, hcreate, hrename, htmp, hn]
  | some n => simp [placeContent, attempt, hcreate, hrename, htmp, hn, hfile n hn]

end RestoreContent

theorem restoreContentInner_kindAt (hwf : fs.WellFormed) (hreg : fs.kindAt p = some .regular)
    (blob : BlobHash) : (restoreContentInner h p blob fs).2.kindAt = fs.kindAt := by
  obtain ⟨habs, hroot, hparent⟩ := hwf.named_in_dir hreg
  rcases restoreContentInner_cases habs hroot hparent blob with hsame | ⟨-, bytes, -, hnew⟩
  · rw [hsame]
  · rw [hnew]
    exact kindAt_create_regular hreg rfl

theorem restoreContentInner_sameFiles {blob : BlobHash} {bytes : Bytes} (hwf : fs.WellFormed)
    (hfile : fs.fileAt p = some bytes) (hread : h.readBlob blob = .ok bytes) :
    (restoreContentInner h p blob fs).2.SameFiles fs := by
  obtain ⟨habs, hroot, hparent⟩ := hwf.named_in_dir (kindAt_of_fileAt hfile)
  rcases restoreContentInner_cases habs hroot hparent blob with hsame | ⟨-, bytes', hread', hnew⟩
  · rw [hsame]
  · rw [hread] at hread'
    cases hread'
    rw [hnew]
    exact sameFiles_create hfile

/-! ## Metadata ops on any machine -/

section AnyMachine

/-- A change of an inode's attributes: what it is, what it contains and where it points stay. -/
def KeepsFile (f : Inode → Inode) : Prop :=
  ∀ n, (f n).kind = n.kind ∧ (f n).target = n.target ∧ (f n).content = n.content

/-- `fs'` is `fs` but for the attributes of the inode that `p` resolves to. -/
def Attributed (p : PathBuf) (fs fs' : Fs) : Prop :=
  fs' = fs ∨ ∃ j f, fs.resolve p = some j ∧ KeepsFile f ∧ fs' = fs.modifyInode j f

namespace Attributed

theorem refl (p : PathBuf) (fs : Fs) : Attributed p fs fs := .inl rfl

theorem resolve_eq (hattr : Attributed p fs fs') : fs'.resolve p = fs.resolve p := by
  rcases hattr with rfl | ⟨j, f, -, hf, rfl⟩
  · rfl
  · exact resolve_modifyInode (fun n => (hf n).1) (fun n => (hf n).2.1)

theorem trans {u : Fs} (huv : Attributed p fs fs') (hv : Attributed p fs' u) :
    Attributed p fs u := by
  have hresolve := huv.resolve_eq
  rcases huv with rfl | ⟨j, f, hj, hf, rfl⟩
  · exact hv
  rcases hv with rfl | ⟨k, g, hk, hg, rfl⟩
  · exact .inr ⟨j, f, hj, hf, rfl⟩
  -- both changes are made to one inode
  rw [hresolve, hj] at hk
  cases hk
  refine .inr ⟨j, fun n => g (f n), hj, ?_, modifyInode_modifyInode f g⟩
  intro n
  obtain ⟨hk₁, ht₁, hc₁⟩ := hf n
  obtain ⟨hk₂, ht₂, hc₂⟩ := hg (f n)
  exact ⟨hk₂.trans hk₁, ht₂.trans ht₁, hc₂.trans hc₁⟩

theorem sameFiles (hattr : Attributed p fs fs') : fs'.SameFiles fs := by
  rcases hattr with rfl | ⟨j, f, -, hf, rfl⟩
  · rfl
  · exact sameFiles_modifyInode (fun n => (hf n).1) (fun n => (hf n).2.2)

end Attributed

/-- A call that changes attributes of the file a path leads to. -/
theorem Fs.attempt_attributed {c : Syscall} {f : Inode → Inode}
    (hok : h.attempt c p fs (fs.onResolved p f) = .ok fs') (hf : KeepsFile f) :
    Attributed p fs fs' := by
  have hres := (attempt_eq_ok hok).2
  unfold onResolved at hres
  split at hres
  · cases hres
  · rename_i j hj
    cases hres
    exact .inr ⟨j, f, hj, hf, rfl⟩

theorem restoreUserXattrs_attributed (h : Host) (p : PathBuf) (target : List (String × Bytes))
    (fs : Fs) : Attributed p fs (restoreUserXattrs h p target fs) := by
  unfold restoreUserXattrs
  split
  · rename_i j _ _ hj
    refine .inr ⟨j, _, hj, ?_, rfl⟩
    exact fun _ => ⟨rfl, rfl, rfl⟩
  · exact .refl p fs

theorem restoreFlagsValue_attributed (h : Host) (p : PathBuf) (flags : Nat) (fs : Fs) :
    Attributed p fs (restoreFlagsValue h p flags fs).2 := by
  unfold restoreFlagsValue
  split
  · exact .refl p fs
  split
  · exact .refl p fs
  split_ifs
  · exact .refl p fs
  · split
    · exact .refl p fs
    · rename_i hok
      exact attempt_attributed hok fun _ => ⟨rfl, rfl, rfl⟩

theorem restoreMtimeOnly_attributed (h : Host) (p : PathBuf) (target : FileMetadata) (fs : Fs) :
    Attributed p fs (restoreMtimeOnly h p target fs).2 := by
  unfold restoreMtimeOnly
  split_ifs
  · exact .refl p fs
  · split
    · exact .refl p fs
    · rename_i hok
      exact attempt_attributed hok fun _ => ⟨rfl, rfl, rfl⟩

theorem restoreMetadataInner_attributed (h : Host) (p : PathBuf) (target : FileMetadata)
    (fs : Fs) : Attributed p fs (restoreMetadataInner h p target fs).2 := by
  unfold restoreMetadataInner
  dsimp only
  split
  · exact .refl p fs
  · exact .refl p fs
  rename_i owned howned
  have h₁ := attempt_attributed howned fun _ => ⟨rfl, rfl, rfl⟩
  split
  · exact h₁
  rename_i moded hmoded
  have h₂ := h₁.trans (attempt_attributed hmoded fun _ => ⟨rfl, rfl, rfl⟩)
  have h₃ := h₂.trans (restoreUserXattrs_attributed h p target.xattrs moded)
  have h₄ : Attributed p fs (if h.os = .linux then restoreUserXattrs h p target.xattrs moded
      else (restoreFlagsValue h p target.flags
        (restoreUserXattrs h p target.xattrs moded)).2) := by
    split_ifs
    · exact h₃
    · exact h₃.trans (restoreFlagsValue_attributed h p target.flags _)
  have h₅ := h₄.trans (restoreMtimeOnly_attributed h p target _)
  split
  · rename_i hmtime
    rwa [hmtime] at h₅
  · rename_i hmtime
    rwa [hmtime] at h₅

/-- **`RestoreMetadata` is attribute changes and at most one call of the helper**, on any machine
and whatever fails. -/
theorem applyRestoreMetadata_cases (h : Host) (p : PathBuf) (target : FileMetadata) (fs : Fs) :
    Attributed p fs (applyRestoreMetadata h p target fs).2 ∨ ∃ fs₁ after, Attributed p fs fs₁ ∧
        h.routerChown p target.uid target.gid fs₁ = .applied after ∧
        Attributed p after (applyRestoreMetadata h p target fs).2 := by
  have hinner := restoreMetadataInner_attributed h p target fs
  unfold applyRestoreMetadata
  split
  · rename_i hres
    rw [hres] at hinner
    exact .inl hinner
  · rename_i hres
    rw [hres] at hinner
    exact .inl hinner
  rename_i uid gid fs₁ hres
  have hids : uid = target.uid ∧ gid = target.gid := by
    unfold restoreMetadataInner at hres
    dsimp only at hres
    split at hres
    · cases hres
      exact ⟨rfl, rfl⟩
    · cases hres
    · split at hres
      · cases hres
      · split at hres <;> cases hres
  obtain ⟨rfl, rfl⟩ := hids
  rw [hres] at hinner
  dsimp only
  split
  · -- the helper changed the owner; mode and time follow
    rename_i after hafter
    refine .inr ⟨fs₁, after, hinner, hafter, ?_⟩
    split
    · exact .refl p after
    rename_i moded hmoded
    have hdone := (attempt_attributed hmoded fun _ => ⟨rfl, rfl, rfl⟩).trans
      (restoreMtimeOnly_attributed h p target moded)
    split
    · rename_i hmtime
      rwa [hmtime] at hdone
    · rename_i hmtime
      rwa [hmtime] at hdone
  all_goals exact .inl hinner

/-- The privileged helper changes owners and no file. -/
def Host.HelperKeepsFiles (h : Host) : Prop :=
  ∀ p uid gid fs fs', h.routerChown p uid gid fs = .applied fs' → fs'.SameFiles fs

/-- **`RestoreMetadata` changes no content**, on any machine and whatever fails. -/
theorem applyRestoreMetadata_sameFiles (hhelper : h.HelperKeepsFiles) (p : PathBuf)
    (target : FileMetadata) (fs : Fs) : (applyRestoreMetadata h p target fs).2.SameFiles fs := by
  rcases applyRestoreMetadata_cases h p target fs with hattr | ⟨fs₁, after, h₁, hafter, h₂⟩
  · exact hattr.sameFiles
  · exact (h₂.sameFiles.trans (hhelper _ _ _ _ _ hafter)).trans h₁.sameFiles

end AnyMachine

/-! ## `RestoreMetadata` -/

/-- The flags `restore_flags_value` leaves on the inode: they are compared with those of the name
itself, which may be a symlink, and set on what it leads to. -/
def flagsRestored (h : Host) (fs : Fs) (path : PathBuf) (flags : Nat) (n : Inode) : Nat :=
  if h.os = .linux ∨ (fs.node path).any (fun m => m.flags = flags) then n.flags else flags

/-- The inode `RestoreMetadata` leaves behind. -/
def metadataRestored (h : Host) (fs : Fs) (path : PathBuf) (target : FileMetadata) (n : Inode) :
    Inode :=
  { n with
    uid := target.uid
    gid := target.gid
    perm := target.mode &&& 0o7777
    xattrs := fun k => if shouldSkipRestore h.os k then n.xattrs k else target.xattrs.lookup k
    flags := flagsRestored h fs path target.flags n
    mtime := if target.mtimeUnixNanos = 0 then n.mtime else utimesValue target.mtimeUnixNanos }

theorem flagsRestored_modifyInode {f : Inode → Inode} (hf : ∀ n, (f n).flags = n.flags)
    (flags : Nat) (n : Inode) :
    flagsRestored h (fs.modifyInode j f) p flags n = flagsRestored h fs p flags n := by
  have hany : ((fs.modifyInode j f).node p).any (fun m => m.flags = flags) =
      (fs.node p).any (fun m => m.flags = flags) := by
    cases hi : fs.lookup p with
    | none => simp [node, hi]
    | some i =>
      simp only [node, lookup_modifyInode, hi, map_some, any_some]
      by_cases hij : i = j
      · subst hij
        rw [inode_modifyInode_self, hf]
      · rw [inode_modifyInode_of_ne f hij]
  simp only [flagsRestored, hany]

section Permissive

variable (hp : h.Permissive)

include hp

theorem restoreUserXattrs_eq (hj : fs.resolve p = some j) (target : List (String × Bytes)) :
    restoreUserXattrs h p target fs = fs.modifyInode j fun n =>
      { n with xattrs := fun k =>
          if shouldSkipRestore h.os k then n.xattrs k else target.lookup k } := by
  simp [restoreUserXattrs, hp _ p fs, hj]

theorem restoreFlagsValue_eq (hos : h.os ≠ .linux) (hj : fs.resolve p = some j) (flags : Nat) :
    restoreFlagsValue h p flags fs =
      (.ok (), fs.modifyInode j fun n => { n with flags := flagsRestored h fs p flags n }) := by
  obtain ⟨m, hm⟩ := node_of_resolve hj
  have hset : fs.chflags h p flags = .ok (fs.modifyInode j fun n => { n with flags := flags }) := by
    rw [chflags, hp.attempt, onResolved_of_resolve hj]
  by_cases hflags : m.flags = flags
  · -- nothing to do: the inode is written back as it is
    have hsame : (fs.modifyInode j fun n =>
        { n with flags := flagsRestored h fs p flags n }) = fs := by
      simp [flagsRestored, hm, hflags, modifyInode, setInode]
    rw [hsame]
    cases hos' : h.os with
    | linux => exact absurd hos' hos
    | macos | freebsd => simp [restoreFlagsValue, hos', hm, hflags]
  · cases hos' : h.os with
    | linux => exact absurd hos' hos
    | macos | freebsd => simp [restoreFlagsValue, flagsRestored, hos', hm, hflags, hset]

theorem restoreMtimeOnly_eq (hj : fs.resolve p = some j) (target : FileMetadata) :
    restoreMtimeOnly h p target fs = (.ok (), fs.modifyInode j fun n =>
      { n with mtime := if target.mtimeUnixNanos = 0 then n.mtime
                        else utimesValue target.mtimeUnixNanos }) := by
  by_cases hzero : target.mtimeUnixNanos = 0
  · simp [restoreMtimeOnly, hzero, modifyInode, setInode]
  · simp only [restoreMtimeOnly, hzero, if_false]
    rw [utimensat, hp.attempt, onResolved_of_resolve hj]

/-- **`RestoreMetadata` sets the captured metadata on whatever the path leads to.** -/
theorem applyRestoreMetadata_eq (hj : fs.resolve p = some j) (target : FileMetadata) :
    applyRestoreMetadata h p target fs =
      (.applied, fs.modifyInode j (metadataRestored h fs p target)) := by
  have keeps : ∀ {f : Inode → Inode}, (∀ n, (f n).kind = n.kind) → (∀ n, (f n).target = n.target) →
      (fs.modifyInode j f).resolve p = some j := by
    intro f hk ht
    rw [resolve_modifyInode hk ht, hj]
  have hinner : restoreMetadataInner h p target fs =
      (.ok (), fs.modifyInode j (metadataRestored h fs p target)) := by
    have howned : fs.chown h p target.uid target.gid = .ok (fs.modifyInode j fun n =>
        { n with uid := target.uid, gid := target.gid,
                 perm := if n.kind = .regular then n.perm &&& 0o1777 else n.perm }) := by
      rw [chown, hp.attempt, onResolved_of_resolve hj]
    unfold restoreMetadataInner
    rw [howned]
    dsimp only
    rw [chmod, hp.attempt, onResolved_of_resolve (keeps ?_ ?_), modifyInode_modifyInode]
    dsimp only
    rw [restoreUserXattrs_eq hp (keeps ?_ ?_), modifyInode_modifyInode]
    · by_cases hos : h.os = .linux
      · rw [if_pos hos, restoreMtimeOnly_eq hp (keeps ?_ ?_), modifyInode_modifyInode]
        · dsimp only
          congr 2
          funext n
          simp only [metadataRestored, flagsRestored, hos, true_or, if_true]
        all_goals exact fun _ => rfl
      · rw [if_neg hos, restoreFlagsValue_eq hp hos (keeps ?_ ?_), modifyInode_modifyInode,
          restoreMtimeOnly_eq hp (keeps ?_ ?_), modifyInode_modifyInode]
        · dsimp only
          congr 2
          funext n
          rw [flagsRestored_modifyInode ?_]
          · rfl
          · exact fun _ => rfl
        all_goals exact fun _ => rfl
    all_goals exact fun _ => rfl
  simp [applyRestoreMetadata, hinner]

theorem applyRestoreMetadata_of_missing (hnone : fs.resolve p = none) (target : FileMetadata) :
    (applyRestoreMetadata h p target fs).2 = fs := by
  have howned : fs.chown h p target.uid target.gid = .error .enoent := by
    simp [chown, hp.attempt, onResolved, hnone]
  simp [applyRestoreMetadata, restoreMetadataInner, howned]

/-! ## `FileExtend` -/

/-- **`FileExtend` cuts a file** that is not shorter already. -/
theorem applyFileExtend_eq (hj : fs.resolve p = some j) (hreg : (fs.inode j).kind = .regular)
    {truncateTo : Nat} (hlen : truncateTo ≤ (fs.inode j).content.length) :
    applyFileExtend h p truncateTo fs =
      (.applied, fs.modifyInode j fun n =>
        { n with content := n.content.take truncateTo, mtime := h.now }) := by
  have hsize : ((fs.inode j).stat h.os).size = (fs.inode j).content.length := by
    simp [Inode.stat, hreg]
  simp [applyFileExtend, hj, hsize, hreg, hp.attempt, Nat.not_lt.mpr hlen]

/-- **`FileExtend` cuts whatever regular file the path leads to**, unless it is shorter already. -/
theorem applyFileExtend_state (hj : fs.resolve p = some j) (truncateTo : Nat) :
    (applyFileExtend h p truncateTo fs).2 =
      if (fs.inode j).kind = .regular ∧ truncateTo ≤ (fs.inode j).content.length then
        fs.modifyInode j fun n => { n with content := n.content.take truncateTo, mtime := h.now }
      else fs := by
  by_cases hreg : (fs.inode j).kind = .regular
  · by_cases hlen : truncateTo ≤ (fs.inode j).content.length
    · rw [applyFileExtend_eq hp hj hreg hlen, if_pos ⟨hreg, hlen⟩]
    · have hsize : ((fs.inode j).stat h.os).size = (fs.inode j).content.length := by
        simp [Inode.stat, hreg]
      simp [applyFileExtend, hj, hsize, hlen, Nat.lt_of_not_le hlen]
  · -- a directory cannot be opened for writing, and nothing else can be truncated
    rw [if_neg (fun hboth => hreg hboth.1)]
    simp only [applyFileExtend, hj, hp.attempt]
    split
    · rfl
    · by_cases hdir : (fs.inode j).kind = .directory
      · simp [hdir]
      · simp [hdir]

/-! ## `RecreatePath` -/

omit hp in
theorem Fs.followName_of_free (hfree : fs.lookup p = none) : fs.followName 40 p = some p := by
  simp [followName, hfree]

/-- **`RecreatePath` makes an empty file or a directory with the recorded permissions.** -/
theorem recreatePathInner_eq {kind : FileKind} {mode : Nat}
    (hkind : kind = .regular ∨ kind = .directory) (habs : AbsolutePath p) (hroot : p ≠ [.rootDir])
    (hparent : fs.IsDir p.dropLast) (hfree : fs.node p = none) :
    ∃ perm, recreatePathInner h p kind mode fs =
      (.ok (), (fs.create h p (h.newInode kind perm [] "")).modifyInode
        (h.freshInode fs) fun n => { n with perm := mode &&& 0o7777 }) := by
  have hensure : ensureParent h p.dropLast fs = (.ok (), fs) := by
    obtain ⟨i, hi, -⟩ := hparent.resolve
    simp [ensureParent, hi]
  have hlookup : fs.lookup p = none := node_eq_none_iff.mp hfree
  have hpar : fs.parentIsDir p = .ok () :=
    parentIsDir_of_isDir (habs.parent_eq hroot) hparent
  rcases hkind with rfl | rfl
  · have hopen : fs.openCreate h p =
        .ok (fs.create h p (h.newInode .regular (h.masked 0o666) [] "")) := by
      simp only [openCreate, hp.attempt, followName_of_free hlookup, hlookup, hpar]
    have hresolve : (fs.create h p (h.newInode .regular (h.masked 0o666) [] "")).resolve p =
        some (h.freshInode fs) := resolve_create nofun
    refine ⟨h.masked 0o666, ?_⟩
    simp only [recreatePathInner, habs.parent_eq hroot, hensure, recreateIn, hopen,
      chmodRecreated, chmod, hp.attempt, onResolved_of_resolve hresolve]
  · have hmk : fs.mkdir h p =
        .ok (fs.create h p (h.newInode .directory (h.masked 0o777) [] "")) := by
      rw [mkdir, hp.attempt, hlookup, hpar]
    have hresolve : (fs.create h p (h.newInode .directory (h.masked 0o777) [] "")).resolve p =
        some (h.freshInode fs) := resolve_create nofun
    refine ⟨h.masked 0o777, ?_⟩
    simp only [recreatePathInner, habs.parent_eq hroot, hensure, recreateIn, hmk, chmodRecreated,
      chmod, hp.attempt, onResolved_of_resolve hresolve]

/-! ## `Rename` -/

/-- **`Rename` moves the subtree**, onto a free name in a directory outside of it. -/
theorem applyRename_eq {src dst : PathBuf} {n : Inode} (habs : AbsolutePath dst)
    (hroot : dst ≠ [.rootDir]) (hsrc : fs.node src = some n) (hfree : fs.node dst = none)
    (hparent : fs.IsDir dst.dropLast) (hout : ¬ src <+: dst) :
    applyRename h src dst fs = (.applied, { fs with entries := fs.entries.move src dst }) := by
  obtain ⟨i, hi, -⟩ := node_eq_some_iff.mp hsrc
  have hrename : fs.rename h src dst = .ok { fs with entries := fs.entries.move src dst } := by
    rw [rename, hp.attempt, hi, node_eq_none_iff.mp hfree,
      parentIsDir_of_isDir (habs.parent_eq hroot) hparent]
    simp [hout]
  simp [applyRename, hrename]

/-! ## `Unlink` -/

/-- **`Unlink` removes what is at the path, with everything below it.** -/
theorem unlinkInner_node {n : Inode} (hwf : fs.WellFormed) (hn : fs.node p = some n) :
    ∃ fs', unlinkInner h p fs = (.ok (), fs') ∧ fs'.node = cut p fs.node := by
  have hkind := kindAt_of_node hn
  have hpne : p ≠ [] := (hwf.absolute p (by rw [hkind]; exact some_ne_none _)).ne_nil
  by_cases hdir : n.kind = .directory
  · cases hbelow : fs.entries.hasBelow p with
    | false =>
      have hnone : ∀ q, p <+: q → q ≠ p → fs.node q = none := fun q hpq hne =>
        node_eq_none_iff.mpr (PathTree.Entries.hasBelow_eq_false_iff.mp hbelow q hpq hne)
      refine ⟨{ fs with entries := fs.entries.erase p }, ?_, ?_⟩
      · simp [unlinkInner, hn, hdir, rmdir, hp.attempt, hbelow]
      · rw [node_erase, cut_eq_update hnone]
    | true =>
      have hisdir : fs.IsDir p := by rw [Fs.IsDir, hkind, hdir]
      obtain ⟨fs', hres⟩ := removeDirAll_permissive hp hisdir.lookup_ne_none (hwf.closedBelow hpne)
      refine ⟨fs', by simp [unlinkInner, hn, hdir, rmdir, hp.attempt, hbelow, hres], ?_⟩
      have hlookup := (removeTree_ok hres).2
      rw [if_pos hisdir] at hlookup
      have hinode := (removeTree_pruned h (fs.depth + 1) p fs).inode
      rw [show (removeTree h (fs.depth + 1) p fs).2 = fs' from congrArg Prod.snd hres] at hinode
      funext q
      simp only [node, hlookup, hinode, PathTree.cut]
      split_ifs <;> rfl
  · -- nothing lies below a file
    refine ⟨{ fs with entries := fs.entries.erase p }, ?_, ?_⟩
    · simp [unlinkInner, hn, hdir, unlink, hp.attempt]
    · rw [node_erase, cut_eq_update]
      exact fun q hpq hne => kindAt_eq_none_iff.mp
        (hwf.rooted.none_below_leaf hpne hkind hdir hpq hne)

end Permissive

theorem fileRuntime_execute (hop : op.tier = .files) (policy : ConflictPolicy) (fs : Fs) :
    (fileRuntime h).execute op false policy fs = applyFileOp h op fs := by
  simp [fileRuntime, executeFileOp, hop]

theorem fileRuntime_execute_of_no_path (hop : op.primaryPath = none) (dryRun : Bool)
    (policy : ConflictPolicy) (fs : Fs) :
    ((fileRuntime h).execute op dryRun policy fs).2 = fs := by
  have htier : op.tier ≠ .files := by
    cases op <;> simp [InverseOp.tier, InverseOp.primaryPath] at hop ⊢
  simp [fileRuntime, executeFileOp, htier]

theorem stepOutcome_snd (step : Step) : (stepOutcome step).2 = step.2 := by
  obtain ⟨result, fs⟩ := step
  cases result <;> rfl

/-! ## Running the inverses -/

theorem probe_pathExists (h : Host) (fs : Fs) (p : PathBuf) :
    (fs.probe h).pathExists p = (fs.node p).isSome := by
  simp [StateProbe.pathExists, probe, node]

theorem probe_stat_eq_none_iff : (fs.probe h).stat p = none ↔ fs.node p = none := by
  simp [probe, node]

section Through

variable {ok : OutcomeKind → Prop} {c : Option Conflict}

theorem through_op (hok : ok .applied) (hc : c.any isHard = false)
    (htier : op.tier = .files) (hpre : preconditionConflict (fs.probe h) op = none)
    (happly : applyFileOp h op fs = (.applied, fs')) :
    RunsThrough (fileRuntime h) ok [.fresh op c] fs fs' := by
  refine RunsThrough.applied hc ?_ hpre ?_ hok
  · intro cls reason rem hop
    have hrefuse : op = .refuse cls reason rem := hop
    rw [hrefuse] at htier
    cases htier
  · exact (fileRuntime_execute htier .abort fs).trans happly

theorem through_missing {detail : String} (hok : ok .conflictMissing)
    (hc : c.any isHard = false) (htier : op.tier = .files)
    (hpre : preconditionConflict (fs.probe h) op = some (.missing detail)) :
    RunsThrough (fileRuntime h) ok [.fresh op c] fs fs := by
  refine RunsThrough.missing hc ?_ hpre hok
  intro cls reason rem hop
  have hrefuse : op = .refuse cls reason rem := hop
  rw [hrefuse] at htier
  cases htier

variable (hp : h.Permissive) (hok : ok .applied) (hc : c.any isHard = false)

include hp hok hc

/-- **The two inverses of a pre-image** bring back a file with the captured bytes and mode. -/
theorem through_restore {blob : BlobHash} {bytes : Bytes} (i : InodeRef) (target : FileMetadata)
    (habs : AbsolutePath p) (hroot : p ≠ [.rootDir]) (hparent : fs.IsDir p.dropLast)
    (hfile : ∀ n, fs.node p = some n → n.kind ≠ .directory) (hread : h.readBlob blob = .ok bytes) :
    ∃ fs' n, RunsThrough (fileRuntime h) ok
        [.fresh (.restoreContent i p blob) c, .fresh (.restoreMetadata i p target) c] fs fs' ∧
      fs'.node = update fs.node p (some n) ∧
      n.kind = .regular ∧ n.content = bytes ∧ n.perm = target.mode &&& 0o7777 := by
  obtain ⟨placed, hplaced⟩ :
      ∃ s, s = fs.create h p (h.newInode .regular (h.masked 0o666) bytes "") := ⟨_, rfl⟩
  have hcontent : applyFileOp h (.restoreContent i p blob) fs = (.applied, placed) := by
    simp [applyFileOp, restoreContentInner_eq habs hroot hparent (hp .create · fs) (hp .rename · fs)
      hfile hread, stepOutcome,
      hplaced]
  have hresolve : placed.resolve p = some (h.freshInode fs) := by
    rw [hplaced]
    exact resolve_create nofun
  have hexists : (placed.probe h).pathExists p = true := by
    rw [probe_pathExists, hplaced, node_create, update_self]
    rfl
  have hmeta : applyFileOp h (.restoreMetadata i p target) placed = (.applied, _) :=
    applyRestoreMetadata_eq hp hresolve target
  have hnode : (placed.modifyInode (h.freshInode fs) (metadataRestored h placed p target)).node =
      update fs.node p (some (metadataRestored h placed p target
        (h.newInode .regular (h.masked 0o666) bytes ""))) := by
    rw [hplaced]
    exact node_create_modifyInode h p _ fs _
  have hrun := (through_op hok hc rfl rfl hcontent).append
    (through_op hok hc rfl (by simp [preconditionConflict, hexists]) hmeta)
  exact ⟨_, _, hrun, hnode, rfl, rfl, rfl⟩

/-- **The inverse of a removal** brings back an empty file or a directory with the recorded
mode. -/
theorem through_recreate {kind : FileKind} (hkind : kind = .regular ∨ kind = .directory)
    (mode : Nat) (habs : AbsolutePath p) (hroot : p ≠ [.rootDir])
    (hparent : fs.IsDir p.dropLast) (hfree : fs.node p = none) :
    ∃ fs' n, RunsThrough (fileRuntime h) ok [.fresh (.recreatePath p kind mode) c] fs fs' ∧
      fs'.node = update fs.node p (some n) ∧
      n.kind = kind ∧ n.perm = mode &&& 0o7777 := by
  have happly : applyFileOp h (.recreatePath p kind mode) fs =
      stepOutcome (recreatePathInner h p kind mode fs) := by
    rcases hkind with rfl | rfl <;> simp [applyFileOp, applyRecreatePath]
  obtain ⟨perm, hinner⟩ : ∃ perm, recreatePathInner h p kind mode fs = _ :=
    recreatePathInner_eq hp hkind habs hroot hparent hfree
  rw [hinner] at happly
  have hpre : preconditionConflict (fs.probe h) (.recreatePath p kind mode) = none := by
    simp [preconditionConflict, probe_stat_eq_none_iff.mpr hfree]
  exact ⟨_, _, through_op hok hc rfl hpre happly, node_create_modifyInode h p _ fs _, rfl, rfl⟩

/-- **The inverse of a rename** moves the subtree back. -/
theorem through_rename {src dst : PathBuf} {n : Inode} (habs : AbsolutePath dst)
    (hroot : dst ≠ [.rootDir]) (hsrc : fs.node src = some n) (hfree : fs.node dst = none)
    (hparent : fs.IsDir dst.dropLast) (hout : ¬ src <+: dst) :
    RunsThrough (fileRuntime h) ok [.fresh (.rename src dst) c] fs
      { fs with entries := fs.entries.move src dst } := by
  refine through_op hok hc rfl ?_ (applyRename_eq hp habs hroot hsrc hfree hparent hout)
  simp [preconditionConflict, probe_pathExists, hsrc, hfree]

/-- **The inverse of a creation** removes the path with everything below it. -/
theorem through_unlink {n : Inode} (hwf : fs.WellFormed) (hn : fs.node p = some n) :
    ∃ fs', RunsThrough (fileRuntime h) ok [.fresh (.unlink p) c] fs fs' ∧
      fs'.node = cut p fs.node := by
  obtain ⟨fs', hunlink, hnode⟩ := unlinkInner_node hp hwf hn
  refine ⟨fs', through_op hok hc rfl ?_ ?_, hnode⟩
  · simp [preconditionConflict, probe_pathExists, hn]
  · simp [applyFileOp, hunlink, stepOutcome]

end Through

end ShitUndo
