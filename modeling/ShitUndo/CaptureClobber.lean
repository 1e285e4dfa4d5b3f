import ShitUndo.CaptureRun

/-!
# Files a rename overwrites

When a rename is handled the file it has overwritten is gone from the tree. The helper finds it in
its index of paths, filled by the walk and by creates, and sends the snapshot it has.

* `KeepsClobbered`: a rename over a regular file sends its pre-image first, and a rename to a free
  name sends none.
-/

namespace ShitUndo

open List Option Function Fs Watched HelperIo KernelOp PathTree

open Transition (Meets Runs)

/-! ## The property -/

/-- The operations on regular files: creates, writes, renames and removals. -/
def FileOp (s : Watched) : KernelOp → Prop
  | .create _ _ _ => True
  | .writeOpen _ _ => True
  | .release _ _ => True
  | .rename src dst => s.fs.kindAt src.path = some .regular ∧
    (s.fs.kindAt dst.path = none ∨ s.fs.kindAt dst.path = some .regular)
  | .unlink e => s.fs.kindAt e.path = some .regular
  | .mkdir _ _ _ => False
  | .setattr _ _ _ _ => False

instance (s : Watched) : ∀ op, Decidable (FileOp s op)
  | .create _ _ _ => isTrue trivial
  | .writeOpen _ _ => isTrue trivial
  | .release _ _ => isTrue trivial
  | .rename _ _ => inferInstanceAs (Decidable (_ ∧ (_ ∨ _)))
  | .unlink _ => inferInstanceAs (Decidable (_ = _))
  | .mkdir _ _ _ => isFalse id
  | .setattr _ _ _ _ => isFalse id

def HelperResponse.isRename : HelperResponse → Bool
  | .treeMutation _ (.rename _ _ _) _ => true
  | _ => false

/-- The delete-marked pre-image of the file at a path. -/
def HelperResponse.IsClobberOf (d : InodeRef) (path : PathBuf) : HelperResponse → Prop
  | .capturedPreImage pre =>
    pre.isDelete = true ∧ pre.ref = d.user ∧ pre.path = some path.display
  | _ => False

instance (d : InodeRef) (path : PathBuf) :
    ∀ msg : HelperResponse, Decidable (msg.IsClobberOf d path)
  | .capturedPreImage _ => inferInstanceAs (Decidable (_ ∧ _ ∧ _))
  | .treeMutation _ _ _ => isFalse id

/-- The pre-image of a file that was at the path comes before the rename, and there is none if the
name was free. -/
def KeepsClobbered (sent : List HelperResponse) (path : PathBuf) : Option InodeRef → Prop
  | some d => (∃ msg ∈ sent, msg.isRename = true) ∧
    ∃ msg ∈ sent.takeWhile fun msg => !msg.isRename, msg.IsClobberOf d path
  | none => ∀ msg ∈ sent, msg.isPreImage = false

instance (sent : List HelperResponse) (path : PathBuf) :
    ∀ was, Decidable (KeepsClobbered sent path was)
  | some _ => inferInstanceAs (Decidable (_ ∧ _))
  | none => inferInstanceAs (Decidable (∀ _ ∈ _, _))

/-! ## What is not a regular file stays -/

/-- What is at a path, if it is not a regular file. -/
def Fs.special (fs : Fs) (p : PathBuf) : Option (InodeRef × FileKind) :=
  ((fs.lookup p).map fun i => (i, (fs.inode i).kind)).filter fun n => decide (n.2 ≠ .regular)

variable {op : KernelOp}

section Special

variable {fs fs' : Fs} {root p q : PathBuf} {i : InodeRef} {s : Watched}

theorem Fs.special_eq_some_iff {kind : FileKind} : fs.special p = some (i, kind) ↔
    fs.lookup p = some i ∧ (fs.inode i).kind = kind ∧ kind ≠ .regular := by
  rw [special, filter_eq_some_iff, map_eq_some_iff, decide_eq_true_iff]
  constructor
  · rintro ⟨⟨j, hj, hpair⟩, hne⟩
    obtain ⟨rfl, rfl⟩ := Prod.mk.inj hpair
    exact ⟨hj, rfl, hne⟩
  · rintro ⟨hi, hkind, hne⟩
    exact ⟨⟨i, hi, Prod.ext rfl hkind⟩, hne⟩

theorem Fs.special_of_lookup_none (hp : fs.lookup p = none) : fs.special p = none := by
  rw [special, hp]
  rfl

theorem Fs.special_of_regular (hreg : fs.kindAt p = some .regular) : fs.special p = none := by
  rw [eq_none_iff_forall_ne_some]
  rintro ⟨i, kind⟩ hspecial
  obtain ⟨hi, rfl, hne⟩ := special_eq_some_iff.mp hspecial
  rw [kindAt_of_lookup hi] at hreg
  exact hne (some.inj hreg)

theorem Fs.special_congr (hlookup : fs'.lookup q = fs.lookup q)
    (hkind : ∀ j, fs.lookup q = some j → (fs'.inode j).kind = (fs.inode j).kind) :
    fs'.special q = fs.special q := by
  rw [special, special, hlookup]
  cases hj : fs.lookup q with
  | none => rfl
  | some j => rw [map_some, map_some, hkind j hj]

theorem Fs.WellFormed.special_below (hwf : fs.WellFormed) (habs : AbsolutePath p)
    (hfile : fs.kindAt p = none ∨ fs.kindAt p = some .regular) (hq : p <+: q) :
    fs.special q = none := by
  rcases hfile with hfree | hreg
  · exact special_of_lookup_none (lookup_eq_none_of_kindAt (hwf.none_below habs hfree hq))
  by_cases hqp : q = p
  · rw [hqp]
    exact special_of_regular hreg
  · refine special_of_lookup_none (lookup_eq_none_of_kindAt ?_)
    exact hwf.rooted.none_below_leaf habs.ne_nil hreg (by decide) hq hqp

/-- **Operations on regular files leave everything else as it is.** -/
theorem FileOp.special (hop : FileOp s op) (hwf : s.fs.WellFormed)
    (hdirs : ∀ e ∈ op.dentries, s.fs.IsDir e.dir) (heffect : op.Effect s.fs fs') (q : PathBuf) :
    fs'.special q = s.fs.special q := by
  cases heffect with
  | mkdir e perm i n hcan hkind => exact absurd hop id
  | create e perm i n hcan hkind hcontent =>
    by_cases hq : q = e.path
    · subst hq
      rw [special_of_lookup_none hcan.1]
      refine special_of_regular ?_
      rw [kindAt_of_lookup (by rw [lookup_make, update_self]), inode_make_self, hkind]
    · refine special_congr ?_ ?_
      · rw [lookup_make, update_of_ne hq]
      · intro j hj
        rw [inode_make_of_ne]
        rintro rfl
        exact hcan.unnamed q hj
  | sameFile src dst i hsrc hdst => rfl
  | rename src dst i hsrc hdst hsd hds hdir =>
    have habsSrc := hwf.dentry (hdirs src mem_cons_self)
    have habsDst := hwf.dentry (hdirs dst (mem_cons_of_mem _ mem_cons_self))
    by_cases hd : dst.path <+: q
    · -- below the destination is what was below the source: only the file itself
      rw [hwf.special_below habsDst hop.2 hd]
      obtain ⟨r, rfl⟩ := hd
      have hsrcBelow := hwf.special_below habsSrc (.inr hop.1) (prefix_append src.path r)
      rw [← hsrcBelow, special, special, lookup_move hsd hds, move_append]
    · by_cases hs : src.path <+: q
      · rw [hwf.special_below habsSrc (.inr hop.1) hs]
        refine special_of_lookup_none ?_
        rw [lookup_move hsd hds, move_src _ hd hs]
      · refine special_congr ?_ fun j hj => rfl
        rw [lookup_move hsd hds, move_of_outside _ hd hs]
  | change e op i f hop' hi hf =>
    refine special_congr rfl fun j hj => ?_
    by_cases hji : j = i
    · rw [hji, inode_modifyInode_self, hf]
    · rw [inode_modifyInode_of_ne f hji]
  | unlink e i hi hbelow =>
    by_cases hq : q = e.path
    · subst hq
      rw [special_of_regular hop]
      exact special_of_lookup_none (by rw [lookup_erase, update_self])
    · refine special_congr ?_ fun j hj => rfl
      rw [lookup_erase, update_of_ne hq]

end Special

/-! ## The invariant -/

/-- The caches are what was seen; directories are known by their path; and what was last found at a
path has a snapshot, or is still there and not a regular file. -/
structure Indexed (root : PathBuf) (dev : Nat) (s : Watched) : Prop where
  tree : OnDevice root dev s.fs
  followed : Followed s.births s.ws
  dirs : ∀ d, root <+: d → s.fs.IsDir d → s.KnowsDir d
  born : ∀ p i, s.births.bornAt p = some i → s.births.filed i = true ∨
    ∃ kind, s.fs.special p = some (i, kind)

section Invariant

variable {io : Fs → HelperIo} {h : Host} {command : CommandId} {root : PathBuf} {dev : Nat}
  {s s' : Watched} {fs fs' : Fs} {e : Dentry} {msg : HelperResponse} {ws : WatchState}

theorem Fs.isDir_iff_special {d : PathBuf} :
    fs.IsDir d ↔ ∃ i, fs.special d = some (i, .directory) := by
  constructor
  · intro hdir
    obtain ⟨n, hn, hkind⟩ := kindAt_eq_some_iff.mp hdir
    obtain ⟨i, hi, rfl⟩ := node_eq_some_iff.mp hn
    exact ⟨i, special_eq_some_iff.mpr ⟨hi, hkind, by decide⟩⟩
  · rintro ⟨i, hspecial⟩
    obtain ⟨hi, hkind, -⟩ := special_eq_some_iff.mp hspecial
    rw [Fs.IsDir, kindAt_of_lookup hi, hkind]

theorem Watchable.indexed (hwatch : Watchable (io fs) fs root dev) (hworks : (io fs).Works) :
    Indexed root dev (start io root fs) where
  tree := hwatch.onDevice
  followed := hwatch.followed
  dirs := by
    intro d hd hdir
    obtain ⟨i, hspecial⟩ := isDir_iff_special.mp hdir
    obtain ⟨hi, hkind, -⟩ := special_eq_some_iff.mp hspecial
    exact bind_eq_some_iff.mpr ⟨i, hi, (dirNamed_eq_some_iff hwatch.dirsOnce).mpr ⟨hd, hi, hkind⟩⟩
  born := by
    intro p i hborn
    obtain ⟨hi, hunder, -⟩ := openedAt_eq_some_iff.mp hborn
    by_cases hreg : (fs.inode i).kind = .regular
    · exact .inl (hwatch.snapshotTaken hworks hunder hi hreg)
    · exact .inr ⟨_, special_eq_some_iff.mpr ⟨hi, rfl, hreg⟩⟩

theorem Births.after_of_fileOp (hop : FileOp s op) (births : Births) :
    (births.after op).dirAt = births.dirAt := by
  cases op with
  | mkdir e perm i => exact absurd hop id
  | _ => rfl

section

variable (hindexed : Indexed root dev s)

include hindexed

theorem Indexed.knows (hdirs : ∀ e ∈ op.dentries, root <+: e.dir ∧ s.fs.IsDir e.dir) :
    ∀ e ∈ op.dentries, s.KnowsDir e.dir :=
  fun e he => hindexed.dirs e.dir (hdirs e he).1 (hdirs e he).2

/-- **An operation on regular files keeps the index in step.** -/
theorem Indexed.step (hop : FileOp s op)
    (hfollow : Followable root dev s op s') : Indexed root dev s' where
  tree := hfollow.tree
  followed := hfollow.followed
  dirs := by
    intro d hd hdir
    have hspecial := hop.special hindexed.tree.wf (fun e he => (hfollow.dirs e he).2)
      hfollow.effect d
    obtain ⟨i, hi⟩ := isDir_iff_special.mp hdir
    have hknows := hindexed.dirs d hd (isDir_iff_special.mpr ⟨i, hspecial ▸ hi⟩)
    have hnew := (special_eq_some_iff.mp hi).1
    rw [hspecial] at hi
    have hold := (special_eq_some_iff.mp hi).1
    rw [Watched.KnowsDir, hold, bind_some] at hknows
    rw [Watched.KnowsDir, hnew, bind_some, hfollow.births, Births.after_of_fileOp hop]
    exact hknows
  born := by
    intro p i hborn
    have hspecial := hop.special hindexed.tree.wf (fun e he => (hfollow.dirs e he).2)
      hfollow.effect p
    rw [hfollow.births] at hborn ⊢
    rw [hspecial]
    cases op with
    | create e perm j =>
      dsimp only [Births.after] at hborn ⊢
      by_cases hij : i = j
      · rw [hij, update_self]
        exact .inl rfl
      rw [update_of_ne hij]
      by_cases hp : p = e.path
      · rw [hp, update_self] at hborn
        exact absurd (some.inj hborn).symm hij
      · rw [update_of_ne hp] at hborn
        exact hindexed.born p i hborn
    | mkdir e perm j => exact absurd hop id
    | _ => exact hindexed.born p i hborn

omit hindexed in
theorem Indexed.of_run {ops : List KernelOp} (hworks : ∀ fs, (io fs).Works)
    (hwatch : Watchable (io fs) fs root dev)
    (hrun : Runs (Watched.step io h command root) (Watched.start io root fs) ops s)
    (hfiles : Meets FileOp (Watched.step io h command root) (Watched.start io root fs) ops) :
    Indexed root dev s := by
  refine hrun.invariant_of_meets hfiles (hwatch.indexed (hworks fs)) ?_
  intro t op t' hindexed hop hstep
  obtain ⟨fs', hnext, -⟩ := map_eq_some_iff.mp hstep
  have hknows := hindexed.knows (next_eq_some hnext).1
  exact hindexed.step hop (followable hworks hwatch.limits.marked hindexed.tree
    hindexed.followed (fun _ => hknows) hstep)

/-! ## Renames -/

theorem Indexed.mem_clobbered {io : HelperIo} (hworks : io.Works) {dst : Dentry} :
    msg ∈ clobberedPreImage io h command s.ws dst.path ↔
      ∃ i snap, s.births.bornAt dst.path = some i ∧ s.ws.preSnapshots i.user = some snap ∧
        msg = .capturedPreImage (snap.toPreImage h command i.user dst.path.display none true) := by
  rw [mem_clobberedPreImage]
  constructor
  · rintro ⟨k, snap, hget, hsnap, -, hmsg, -⟩
    rw [hindexed.followed.index] at hget
    obtain ⟨i, hi, rfl⟩ := map_eq_some_iff.mp hget
    exact ⟨i, snap, hi, hsnap, hmsg⟩
  · rintro ⟨i, snap, hi, hsnap, hmsg⟩
    refine ⟨i.user, snap, ?_, hsnap, hworks.stages _, hmsg, hworks.sends msg⟩
    rw [hindexed.followed.index, hi, map_some]

omit hindexed in
theorem isRename_of_mem_clobbered {io : HelperIo} {dst : PathBuf}
    (hmsg : msg ∈ clobberedPreImage io h command ws dst) :
    msg.isRename = false ∧ msg.isPreImage = true := by
  obtain ⟨k, snap, -, -, -, rfl, -⟩ := mem_clobberedPreImage.mp hmsg
  exact ⟨rfl, rfl⟩

theorem Indexed.messages_rename (hworks : ∀ fs, (io fs).Works)
    {src dst : Dentry} (hnext : s.next h root (.rename src dst) = some fs')
    (hne : s.fs.lookup src.path ≠ s.fs.lookup dst.path) :
    ∃ msg, msg.isRename = true ∧ msg.isPreImage = false ∧
      s.messages io h command root (.rename src dst) =
        clobberedPreImage (io fs') h command s.ws dst.path ++ [msg] := by
  obtain ⟨hdirs, hperform⟩ := next_eq_some hnext
  have hknows := hindexed.knows hdirs
  have hdst : dst ∈ (rename src dst).dentries :=
    mem_cons_of_mem _ mem_cons_self
  obtain ⟨i, hsrc⟩ : ∃ i, s.fs.lookup src.path = some i := by
    have heffect := effect_of_perform hindexed.tree.wf (fun e he => (hdirs e he).2)
      hperform
    cases heffect with
    | sameFile _ _ i hsrc hdst | rename _ _ i hsrc hdst hsd hds hdir => exact ⟨i, hsrc⟩
    | change _ _ _ _ hop => cases hop
  have hover : s.fs.lookup dst.path ≠ some i := by
    rw [← hsrc]
    exact hne.symm
  refine ⟨.treeMutation command (.rename src.path.display dst.path.display i.user) (io fs').now,
    rfl, rfl, ?_⟩
  unfold messages
  rw [hnext]
  dsimp only
  rw [react_rename io h command hindexed.tree hindexed.followed
    (hdirs src mem_cons_self).1 (hdirs dst hdst).1 (hknows src mem_cons_self)
    (hknows dst hdst) hsrc hover, deliver, if_pos ((hworks fs').sends _)]

omit hindexed in
theorem takeWhile_clobbered {io : HelperIo} {dst : PathBuf} (hmsg : msg.isRename = true) :
    (clobberedPreImage io h command ws dst ++ [msg]).takeWhile (fun msg => !msg.isRename) =
      clobberedPreImage io h command ws dst := by
  rw [takeWhile_append_of_pos, takeWhile_cons_of_neg, append_nil]
  · rw [hmsg]
    decide
  · intro m hm
    rw [(isRename_of_mem_clobbered hm).1]
    rfl

theorem Indexed.snapshot {p : PathBuf} {i : InodeRef}
    (hborn : s.births.bornAt p = some i) (hspecial : s.fs.special p = none) :
    ∃ snap, s.ws.preSnapshots i.user = some snap := by
  rcases hindexed.born p i hborn with hfiled | ⟨kind, hsome⟩
  · rw [← hindexed.followed.snaps] at hfiled
    exact isSome_iff_exists.mp hfiled
  · rw [hspecial] at hsome
    cases hsome

end

/-- **A rename keeps what it overwrites exactly if the helper has last seen it there.** This is so
after every run on regular files, for every rename of one over another or to a free name. -/
theorem keepsClobbered_iff (io : Fs → HelperIo) (h : Host) (command : CommandId)
    (root : PathBuf) (dev : Nat) (fs : Fs) (ops : List KernelOp) (s : Watched) (src dst : Dentry)
    (hworks : ∀ fs, (io fs).Works) (hwatch : Watchable (io fs) fs root dev)
    (hrun : Runs (step io h command root) (start io root fs) ops s)
    (hfiles : Meets FileOp (step io h command root) (start io root fs) ops)
    (hop : FileOp s (.rename src dst)) (hsucceeds : s.next h root (.rename src dst) ≠ none)
    (hne : s.fs.lookup src.path ≠ s.fs.lookup dst.path) :
    KeepsClobbered (s.messages io h command root (.rename src dst)) dst.path
        (s.fs.lookup dst.path) ↔
      s.births.bornAt dst.path = s.fs.lookup dst.path := by
  have hindexed := Indexed.of_run hworks hwatch hrun hfiles
  obtain ⟨fs', hnext⟩ := ne_none_iff_exists'.mp hsucceeds
  obtain ⟨msg, hrename, hplain, hsent⟩ := hindexed.messages_rename hworks hnext hne
  have hmem : ∀ m, m ∈ clobberedPreImage (io fs') h command s.ws dst.path ↔ _ := fun m =>
    hindexed.mem_clobbered (hworks fs')
  have hspecial : s.fs.special dst.path = none := by
    rcases hop.2 with hfree | hreg
    · exact special_of_lookup_none (lookup_eq_none_of_kindAt hfree)
    · exact special_of_regular hreg
  rw [hsent]
  cases hd : s.fs.lookup dst.path with
  | none =>
    constructor
    · -- if something was last found at the free name, its snapshot is sent
      intro hnone
      cases hborn : s.births.bornAt dst.path with
      | none => rfl
      | some i =>
        obtain ⟨snap, hsnap⟩ := hindexed.snapshot hborn hspecial
        have hin := (hmem _).mpr ⟨i, snap, hborn, hsnap, rfl⟩
        cases hnone _ (mem_append_left _ hin)
    · intro hborn m hm
      rcases mem_append.mp hm with hclobbered | hlast
      · obtain ⟨i, snap, hi, -⟩ := (hmem m).mp hclobbered
        rw [hborn] at hi
        cases hi
      · rw [mem_singleton.mp hlast]
        exact hplain
  | some d =>
    rw [KeepsClobbered, takeWhile_clobbered hrename]
    constructor
    · rintro ⟨-, m, hm, hclobber⟩
      obtain ⟨i, snap, hi, -, rfl⟩ := (hmem m).mp hm
      obtain ⟨-, href, -⟩ := hclobber
      rw [hi, InodeRef.user_injective href]
    · intro hborn
      obtain ⟨snap, hsnap⟩ := hindexed.snapshot hborn hspecial
      refine ⟨⟨msg, mem_append_right _ mem_cons_self, hrename⟩, _,
        (hmem _).mpr ⟨d, snap, hborn, hsnap, rfl⟩, rfl, rfl, rfl⟩

end Invariant

/-! ## Renames that lose or invent a file -/

/-- Three files in a directory. -/
def threeInDir : Fs := .ofList
  [("/w", .dir), ("/w/a", .file [1]), ("/w/b", .file [2]), ("/w/c", .file [3])]

/-- A system at rest, for runs that do not go through. -/
def Watched.idle : Watched := ⟨.ofList [], .empty, ⟨fun _ => none, fun _ => none, fun _ => false⟩⟩

/-- The watch on the three files after some operations. -/
def Watched.after (ops : List KernelOp) : Watched :=
  (ops.foldlM (step sample .sample (.mk 0 0) (.ofString "/w"))
    (start sample (.ofString "/w") threeInDir)).getD .idle

/-- The operations are on regular files and go through. -/
def OnThreeFiles (ops : List KernelOp) : Prop :=
  Meets FileOp (step sample .sample (.mk 0 0) (.ofString "/w"))
      (start sample (.ofString "/w") threeInDir) ops ∧
    (ops.foldlM (step sample .sample (.mk 0 0) (.ofString "/w"))
      (start sample (.ofString "/w") threeInDir)).isSome = true

instance (ops : List KernelOp) : Decidable (OnThreeFiles ops) :=
  inferInstanceAs (Decidable (_ ∧ _))

theorem OnThreeFiles.runs {ops : List KernelOp} (hops : OnThreeFiles ops) :
    Runs (step sample .sample (.mk 0 0) (.ofString "/w"))
      (Watched.start sample (.ofString "/w") threeInDir) ops (Watched.after ops) := by
  obtain ⟨s, hs⟩ := isSome_iff_exists.mp hops.2
  rw [Watched.after, hs, getD_some]
  exact hs

/-- What a rename sends keeps the file it overwrites. -/
def KeptAfter (ops : List KernelOp) (src dst : Dentry) : Prop :=
  KeepsClobbered ((after ops).messages sample .sample (.mk 0 0) (.ofString "/w")
    (.rename src dst)) dst.path ((after ops).fs.lookup dst.path)

instance (ops : List KernelOp) (src dst : Dentry) : Decidable (KeptAfter ops src dst) :=
  inferInstanceAs (Decidable (KeepsClobbered _ _ _))

/-- A file made anew where one was removed. -/
def recreated : List KernelOp :=
  [.unlink (.of "/w" "b"), .create (.of "/w" "b") 0o644 ⟨1, 9⟩, .writeOpen (.of "/w" "b") [7]]

/-- It is kept when it is overwritten. -/
theorem recreated_file_kept :
    OnThreeFiles recreated ∧ KeptAfter recreated (.of "/w" "a") (.of "/w" "b") := by
  have hops : OnThreeFiles recreated := by decide +kernel
  have hcheck : checkWatchable threeInDir (.ofString "/w") 1 = true := by decide +kernel
  refine ⟨hops, ?_⟩
  exact (keepsClobbered_iff _ _ _ _ 1 _ _ _ _ _ sample_works
    (watchable_of_check hcheck).1 hops.runs hops.1 (by decide +kernel)
    (isSome_iff_ne_none.mp (by decide +kernel)) (by decide +kernel)).mpr
    (by decide +kernel)

/-- A file that was itself moved to its name is lost when the next one is moved over it; and a
file that was removed is sent again when another one is moved to its name. -/
theorem clobbered_lost_or_invented :
    (OnThreeFiles [.rename (.of "/w" "a") (.of "/w" "x"), .rename (.of "/w" "c") (.of "/w" "x")] ∧
      ¬ KeptAfter [.rename (.of "/w" "a") (.of "/w" "x")] (.of "/w" "c") (.of "/w" "x")) ∧
    (OnThreeFiles [.unlink (.of "/w" "b"), .rename (.of "/w" "a") (.of "/w" "b")] ∧
      ¬ KeptAfter [.unlink (.of "/w" "b")] (.of "/w" "a") (.of "/w" "b")) := by
  decide +kernel

end ShitUndo
