import ShitUndo.LinuxCapture

/-!
# What a watch begins with

`pre_open_tree` walks the tree below the watch root before the command runs: it records every
directory, opens every file, and takes a snapshot of every regular one. It stops at a depth of 8
directories and at 512 files.

* `Taken`: everything recorded is in the tree (`preOpenTree_taken`, for every tree);
* `Covers`: within the limits, everything in the tree is recorded (`preOpenTree_covers`).
-/

namespace ShitUndo

open List Option Function WatchState KeyMap InodeRef Fs

/-! ## The walk -/

def preOpenTreeDepthLimit : Nat := 8

def preOpenTreeMaxFiles : Nat := 512

/-- The variables of the walk. -/
structure WatchWalk where
  ws : WatchState
  opened : Nat
  hitCap : Bool

section Walk

variable (io : HelperIo) (fs : Fs) (rootDev : Nat)

/-- The snapshot of a file that was opened, if it can be read. -/
def takeSnapshot (ws : WatchState) (fd : HeldFd) : WatchState :=
  match io.readPreImage fs fd with
  | some bytes => ws.addSnapshot fd.ino.user ⟨io.fstatMeta fs fd, bytes⟩
  | none => ws

/-- One entry of a directory in `pre_open_recurse`. -/
def preOpenEntry (recurse : PathBuf → WatchWalk → WatchWalk) (path : PathBuf) (w : WatchWalk) :
    WatchWalk :=
  match fs.lookup path with
  | none => w
  | some i =>
    match (fs.inode i).kind with
    | .directory =>
      if i.user.dev ≠ rootDev then w
      else
        let ws := w.ws.addDir i.user path
        recurse path { w with ws := if io.opens path then ws.hold i.user ⟨i, true⟩ path else ws }
    | .fifo => if io.opens path then { w with ws := w.ws.hold i.user ⟨i, true⟩ path } else w
    | .socket => if io.opens path then { w with ws := w.ws.hold i.user ⟨i, true⟩ path } else w
    | .regular =>
      if io.opens path then
        { w with ws := (takeSnapshot io fs w.ws ⟨i, false⟩).hold i.user ⟨i, false⟩ path
                 opened := w.opened + 1 }
      else w
    | _ => w

/-- The loop over a directory in `pre_open_recurse`. -/
def preOpenEntries (recurse : PathBuf → WatchWalk → WatchWalk) (dir : PathBuf) :
    List String → WatchWalk → WatchWalk
  | [], w => w
  | name :: rest, w =>
    if preOpenTreeMaxFiles ≤ w.opened then { w with hitCap := true }
    else preOpenEntries recurse dir rest
      (preOpenEntry io fs rootDev recurse (dir ++ [.normal name]) w)

/-- `pre_open_recurse`, by the levels left to go down. -/
def preOpenRecurse : Nat → PathBuf → WatchWalk → WatchWalk
  | 0, _, w => w
  | levels + 1, dir, w =>
    if preOpenTreeMaxFiles ≤ w.opened then { w with hitCap := true }
    else
      match io.readDir dir with
      | none => w
      | some names => preOpenEntries io fs rootDev (preOpenRecurse levels) dir names w

/-- `pre_open_tree`, from the state of a new command. -/
def preOpenTree (cwd : PathBuf) : WatchWalk :=
  match fs.resolve cwd with
  | none => ⟨.empty, 0, false⟩
  | some i =>
    preOpenRecurse io fs i.user.dev preOpenTreeDepthLimit cwd ⟨empty.addDir i.user cwd, 0, false⟩

end Walk

/-! ## What is recorded is there -/

/-- Kinds of files the walk opens. -/
def FileKind.opened (kind : FileKind) : Bool :=
  decide (kind = .regular ∨ kind = .directory ∨ kind = .fifo ∨ kind = .socket)

/-- The file the walk opens at a path. -/
def openedAt (io : HelperIo) (fs : Fs) (root p : PathBuf) : Option InodeRef :=
  (fs.lookup p).filter fun i =>
    decide (root <+: p ∧ p ≠ root ∧ (fs.inode i).kind.opened = true ∧ io.opens p = true)

theorem openedAt_eq_some_iff {io : HelperIo} {fs : Fs} {root p : PathBuf} {i : InodeRef} :
    openedAt io fs root p = some i ↔ fs.lookup p = some i ∧ root <+: p ∧ p ≠ root ∧
      (fs.inode i).kind.opened = true ∧ io.opens p = true := by
  rw [openedAt, filter_eq_some_iff, decide_eq_true_iff]

/-- A regular file with the content its snapshot has. -/
structure SnapshotOf (io : HelperIo) (fs : Fs) (i : InodeRef) (snap : PreSnapshot) : Prop where
  regular : (fs.inode i).kind = .regular
  fileMeta : snap.fileMeta = io.fstatMeta fs ⟨i, false⟩
  bytes : io.readPreImage fs ⟨i, false⟩ = some snap.bytes

/-- What the helper has recorded is what the tree has, and nothing is marked as captured. -/
structure Taken (io : HelperIo) (fs : Fs) (root : PathBuf) (ws : WatchState) : Prop where
  dedupe : ∀ k, ws.dedupe k = none
  pending : ∀ k, ws.pendingCreates k = []
  dirs : ∀ k d, ws.dirPaths k = some d → root <+: d ∧
    ∃ i, fs.lookup d = some i ∧ (fs.inode i).kind = .directory ∧ i.user = k
  index : ∀ p k, KeyMap.get ws.pathToInode p = some k →
    ∃ i, openedAt io fs root p = some i ∧ i.user = k
  snapshots : ∀ k snap, ws.preSnapshots k = some snap →
    ∃ i, i.user = k ∧ SnapshotOf io fs i snap ∧ ws.preOpens k = some ⟨i, false⟩ ∧
      ∃ p, KeyMap.get ws.pathToInode p = some k

variable {recurse : PathBuf → WatchWalk → WatchWalk} {ws : WatchState} {root path dir : PathBuf}
  {io : HelperIo} {i : InodeRef} {rootDev : Nat} {fs : Fs}

section Sound

variable {w : WatchWalk}

section

variable (htaken : Taken io fs root ws)

include htaken

theorem Taken.addDir (hunder : root <+: path) (hi : fs.lookup path = some i)
    (hdir : (fs.inode i).kind = .directory) :
    Taken io fs root (ws.addDir i.user path) where
  dedupe := htaken.dedupe
  pending := htaken.pending
  dirs := by
    intro k d hk
    by_cases hkey : k = i.user
    · subst hkey
      rw [addDir_dirPaths, update_self] at hk
      cases hk
      exact ⟨hunder, i, hi, hdir, rfl⟩
    · rw [addDir_dirPaths, update_of_ne hkey] at hk
      exact htaken.dirs k d hk
  index := htaken.index
  snapshots := htaken.snapshots

variable (hi : openedAt io fs root path = some i)

include hi

theorem Taken.index_hold {p : PathBuf} {k : InodeRef} (hget : get ws.pathToInode p = some k) :
    get (insert PathBuf.le path i.user ws.pathToInode) p = some k := by
  rw [get_insert]
  by_cases hp : path = p
  · subst hp
    obtain ⟨j, hj, hk⟩ := htaken.index path k hget
    rw [hi] at hj
    cases hj
    rw [if_pos rfl, hk]
  · rw [if_neg hp, hget]

theorem Taken.hold {pathOnly : Bool} (hfd : pathOnly = true → (fs.inode i).kind ≠ .regular) :
    Taken io fs root (ws.hold i.user ⟨i, pathOnly⟩ path) where
  dedupe := htaken.dedupe
  pending := htaken.pending
  dirs := htaken.dirs
  index := by
    intro p k hget
    rw [hold_pathToInode, get_insert] at hget
    by_cases hp : path = p
    · subst hp
      rw [if_pos rfl] at hget
      cases hget
      exact ⟨i, hi, rfl⟩
    · rw [if_neg hp] at hget
      exact htaken.index p k hget
  snapshots := by
    intro k snap hk
    obtain ⟨j, rfl, hsnap, hopen, p, hget⟩ := htaken.snapshots k snap hk
    refine ⟨j, rfl, hsnap, ?_, p, htaken.index_hold hi hget⟩
    by_cases hkey : j.user = i.user
    · -- another name of a file whose snapshot is taken
      cases user_injective hkey
      have hread : pathOnly = false := Bool.eq_false_iff.mpr fun hpath =>
        hfd hpath hsnap.regular
      rw [hold_preOpens, update_self, hread]
    · rw [hold_preOpens, update_of_ne hkey, hopen]

theorem Taken.file (hreg : (fs.inode i).kind = .regular) :
    Taken io fs root ((takeSnapshot io fs ws ⟨i, false⟩).hold i.user ⟨i, false⟩ path) := by
  have hheld := htaken.hold hi fun hpath : false = true => absurd hpath Bool.false_ne_true
  unfold takeSnapshot
  split
  · rename_i bytes hread
    refine { hheld with snapshots := ?_ }
    intro k snap hk
    by_cases hkey : k = i.user
    · subst hkey
      simp only [WatchState.hold, WatchState.addSnapshot, update_self] at hk
      cases hk
      refine ⟨i, rfl, ⟨hreg, rfl, hread⟩, ?_, path, ?_⟩
      · simp only [WatchState.hold, update_self]
      · simp only [WatchState.hold, get_insert, if_pos]
    · simp only [WatchState.hold, WatchState.addSnapshot, update_of_ne hkey] at hk
      exact hheld.snapshots k snap hk
  · exact hheld

end

theorem child_of_root (hunder : root <+: dir) (name : String) :
    root <+: dir ++ [.normal name] ∧ dir ++ [.normal name] ≠ root := by
  refine ⟨hunder.trans (prefix_append _ _), ?_⟩
  rintro rfl
  have hlen := hunder.length_le
  rw [length_append, length_singleton] at hlen
  omega

theorem taken_empty : Taken io fs root .empty where
  dedupe := fun _ => rfl
  pending := fun _ => rfl
  dirs := by
    intro k d hk
    cases hk
  index := by
    intro p k hk
    cases hk
  snapshots := by
    intro k snap hk
    cases hk

end Sound

/-! ## What is there is recorded -/

section Complete

variable {w w' w'' : WatchWalk} {ws' : WatchState} {p rest : PathBuf}

/-- Nothing that is recorded gets lost. -/
structure WatchState.Grows (ws ws' : WatchState) : Prop where
  opens : ∀ k, ws.preOpens k ≠ none → ws'.preOpens k ≠ none
  dirs : ∀ k, ws.dirPaths k ≠ none → ws'.dirPaths k ≠ none
  snapshots : ∀ k, ws.preSnapshots k ≠ none → ws'.preSnapshots k ≠ none
  index : ∀ p, KeyMap.get ws.pathToInode p ≠ none → KeyMap.get ws'.pathToInode p ≠ none

theorem WatchState.Grows.refl (ws : WatchState) : ws.Grows ws :=
  ⟨fun _ => id, fun _ => id, fun _ => id, fun _ => id⟩

theorem WatchState.Grows.trans {ws'' : WatchState} (hw : ws.Grows ws') (hw' : ws'.Grows ws'') :
    ws.Grows ws'' where
  opens := fun k => hw'.opens k ∘ hw.opens k
  dirs := fun k => hw'.dirs k ∘ hw.dirs k
  snapshots := fun k => hw'.snapshots k ∘ hw.snapshots k
  index := fun p => hw'.index p ∘ hw.index p

theorem update_ne_none {α β : Type*} [DecidableEq α] {f : α → Option β} {k : α} (a : α) (b : β)
    (hk : f k ≠ none) : update f a (some b) k ≠ none := by
  by_cases hka : k = a
  · rw [hka, update_self]
    exact some_ne_none b
  · rwa [update_of_ne hka]

theorem WatchState.grows_addDir (ws : WatchState) (key : InodeRef) (dir : PathBuf) :
    ws.Grows (ws.addDir key dir) :=
  { WatchState.Grows.refl ws with dirs := fun _ hk => update_ne_none key dir hk }

theorem WatchState.grows_addSnapshot (ws : WatchState) (key : InodeRef) (snap : PreSnapshot) :
    ws.Grows (ws.addSnapshot key snap) :=
  { WatchState.Grows.refl ws with snapshots := fun _ hk => update_ne_none key snap hk }

theorem WatchState.grows_hold (ws : WatchState) (key : InodeRef) (fd : HeldFd) (path : PathBuf) :
    ws.Grows (ws.hold key fd path) where
  opens := fun _ hk => update_ne_none key fd hk
  dirs := fun _ => id
  snapshots := fun _ => id
  index := by
    intro p hp
    rw [hold_pathToInode, get_insert]
    split_ifs
    · exact some_ne_none key
    · exact hp

theorem grows_takeSnapshot (ws : WatchState) (fd : HeldFd) :
    ws.Grows (takeSnapshot io fs ws fd) := by
  unfold takeSnapshot
  split
  · exact ws.grows_addSnapshot _ _
  · exact .refl ws

/-- The walk only adds, and does not forget that it was cut short. -/
structure WatchWalk.Grows (w w' : WatchWalk) : Prop where
  hitCap : w.hitCap = true → w'.hitCap = true
  ws : w.ws.Grows w'.ws

theorem WatchWalk.Grows.trans (hw : w.Grows w') (hw' : w'.Grows w'') : w.Grows w'' :=
  ⟨hw'.hitCap ∘ hw.hitCap, hw.ws.trans hw'.ws⟩

theorem WatchWalk.Grows.refl (w : WatchWalk) : w.Grows w := ⟨id, .refl w.ws⟩

theorem WatchWalk.Grows.whole (hw : w.Grows w') (hcap : w'.hitCap = false) : w.hitCap = false := by
  by_contra hhit
  rw [Bool.not_eq_false] at hhit
  rw [hw.hitCap hhit] at hcap
  cases hcap

theorem grows_enter (ws : WatchState) (key : InodeRef) (fd : HeldFd) (path : PathBuf) :
    ws.Grows
      (if io.opens path then (ws.addDir key path).hold key fd path else ws.addDir key path) := by
  split_ifs
  · exact (ws.grows_addDir key path).trans (grows_hold _ _ _ _)
  · exact ws.grows_addDir key path

theorem openedAt_ne_of_kind (hkind : (fs.inode i).kind.opened = false) :
    openedAt io fs root p ≠ some i := by
  intro hat
  rw [(openedAt_eq_some_iff.mp hat).2.2.2.1] at hkind
  cases hkind

theorem openedAt_ne_of_refused (hopen : ¬ io.opens p = true) : openedAt io fs root p ≠ some i :=
  fun hat => hopen (openedAt_eq_some_iff.mp hat).2.2.2.2

theorem get_hold_self (ws : WatchState) (key : InodeRef) (fd : HeldFd) (p : PathBuf) :
    get (ws.hold key fd p).pathToInode p ≠ none := by
  rw [hold_pathToInode, get_insert, if_pos rfl]
  exact some_ne_none key

theorem preOpenEntry_of_dir (io : HelperIo) (recurse : PathBuf → WatchWalk → WatchWalk)
    (hi : fs.lookup path = some i) (hkind : (fs.inode i).kind = .directory)
    (hdev : i.user.dev = rootDev) (w : WatchWalk) :
    ∃ w', preOpenEntry io fs rootDev recurse path w = recurse path w' := by
  unfold preOpenEntry
  rw [hi]
  dsimp only
  rw [hkind]
  rw [if_neg (not_not.mpr hdev)]
  exact ⟨_, rfl⟩

/-- The walk only adds, and only what is there. -/
def Walks (io : HelperIo) (fs : Fs) (root : PathBuf) (w w' : WatchWalk) : Prop :=
  w.Grows w' ∧ (Taken io fs root w.ws → Taken io fs root w'.ws)

theorem Walks.refl (w : WatchWalk) : Walks io fs root w w := ⟨.refl w, id⟩

theorem Walks.trans (hw : Walks io fs root w w') (hw' : Walks io fs root w' w'') :
    Walks io fs root w w'' := ⟨hw.1.trans hw'.1, hw'.2 ∘ hw.2⟩

theorem walks_hitCap (w : WatchWalk) : Walks io fs root w { w with hitCap := true } :=
  ⟨⟨fun _ => rfl, .refl w.ws⟩, id⟩

section

variable (hrec : ∀ d w, root <+: d → Walks io fs root w (recurse d w))

include hrec

theorem preOpenEntry_walks (hunder : root <+: path) (hne : path ≠ root) (w : WatchWalk) :
    Walks io fs root w (preOpenEntry io fs rootDev recurse path w) := by
  unfold preOpenEntry
  cases hi : fs.lookup path with
  | none => exact .refl w
  | some i =>
    dsimp only
    have hat : (fs.inode i).kind.opened = true → io.opens path = true →
        openedAt io fs root path = some i := fun hkind hopen =>
      openedAt_eq_some_iff.mpr ⟨hi, hunder, hne, hkind, hopen⟩
    cases hkind : (fs.inode i).kind with
    | directory =>
      by_cases hdev : i.user.dev ≠ rootDev
      · rw [if_pos hdev]
        exact .refl w
      rw [if_neg hdev]
      refine Walks.trans ⟨?_, fun htaken => ?_⟩ (hrec path _ hunder)
      · exact ⟨id, grows_enter w.ws i.user ⟨i, true⟩ path⟩
      have hadded := htaken.addDir hunder hi hkind
      split_ifs with hopen
      · exact hadded.hold (hat (by rw [hkind]; decide) hopen) (fun _ => by rw [hkind]; decide)
      · exact hadded
    | fifo | socket =>
      dsimp only
      split_ifs with hopen
      · exact ⟨⟨id, w.ws.grows_hold _ _ _⟩, fun htaken =>
          htaken.hold (hat (by rw [hkind]; decide) hopen) (fun _ => by rw [hkind]; decide)⟩
      · exact .refl w
    | regular =>
      dsimp only
      split_ifs with hopen
      · exact ⟨⟨id, (grows_takeSnapshot _ _).trans (grows_hold _ _ _ _)⟩, fun htaken =>
          htaken.file (hat (by rw [hkind]; decide) hopen) hkind⟩
      · exact .refl w
    | symlink | blockDevice | charDevice => exact .refl w

theorem preOpenEntries_walks (hunder : root <+: dir) (names : List String) (w : WatchWalk) :
    Walks io fs root w (preOpenEntries io fs rootDev recurse dir names w) := by
  induction names generalizing w with
  | nil => exact .refl w
  | cons name rest ih =>
    rw [preOpenEntries]
    split_ifs
    · exact walks_hitCap w
    · obtain ⟨hbelow, hne⟩ := child_of_root hunder name
      exact (preOpenEntry_walks hrec hbelow hne w).trans (ih _)

omit hrec in
theorem preOpenRecurse_walks (rootDev levels : Nat) (dir : PathBuf) (w : WatchWalk)
    (hunder : root <+: dir) : Walks io fs root w (preOpenRecurse io fs rootDev levels dir w) := by
  induction levels generalizing dir w with
  | zero => exact .refl w
  | succ levels ih =>
    rw [preOpenRecurse]
    split_ifs
    · exact walks_hitCap w
    · split
      · exact .refl w
      · exact preOpenEntries_walks ih hunder _ w

omit hrec in
/-- **The walk records only what is there.** -/
theorem preOpenTree_taken (hroot : fs.kindAt root = some .directory) :
    Taken io fs root (preOpenTree io fs root).ws := by
  obtain ⟨n, hn, hdir⟩ := kindAt_eq_some_iff.mp hroot
  obtain ⟨i, hi, rfl⟩ := node_eq_some_iff.mp hn
  have hres := resolve_of_lookup hi (by rw [hdir]; decide)
  rw [preOpenTree, hres]
  exact (preOpenRecurse_walks _ _ _ _ (prefix_refl root)).2
    (taken_empty.addDir (prefix_refl root) hi hdir)

/-- What is at the path is recorded, as far as the walk records its kind and can open it. -/
structure WalkRecorded (io : HelperIo) (fs : Fs) (root : PathBuf) (ws : WatchState) (p : PathBuf)
    (i : InodeRef) : Prop where
  index : openedAt io fs root p = some i → get ws.pathToInode p ≠ none
  dir : (fs.inode i).kind = .directory → ws.dirPaths i.user ≠ none
  snapshot : openedAt io fs root p = some i → (fs.inode i).kind = .regular →
    io.readPreImage fs ⟨i, false⟩ ≠ none → ws.preSnapshots i.user ≠ none

omit hrec in
theorem WalkRecorded.mono (hrec : WalkRecorded io fs root ws p i) (hgrows : ws.Grows ws') :
    WalkRecorded io fs root ws' p i where
  index := fun hat => hgrows.index _ (hrec.index hat)
  dir := fun hk => hgrows.dirs _ (hrec.dir hk)
  snapshot := fun hat hk hread => hgrows.snapshots _ (hrec.snapshot hat hk hread)

omit hrec in
theorem WalkRecorded.of_unopened (hnone : openedAt io fs root p ≠ some i)
    (hdir : (fs.inode i).kind ≠ .directory) :
    WalkRecorded io fs root ws p i where
  index := fun hat => absurd hat hnone
  dir := fun hk => absurd hk hdir
  snapshot := fun hat => absurd hat hnone

omit hrec in
theorem WalkRecorded.of_held {fd : HeldFd} (hdir : (fs.inode i).kind ≠ .directory)
    (hreg : (fs.inode i).kind ≠ .regular) :
    WalkRecorded io fs root (ws.hold i.user fd p) p i where
  index := fun _ => get_hold_self ws i.user fd p
  dir := fun hk => absurd hk hdir
  snapshot := fun _ hk => absurd hk hreg

omit hrec in
theorem WalkRecorded.of_file (hdir : (fs.inode i).kind ≠ .directory) :
    WalkRecorded io fs root ((takeSnapshot io fs ws ⟨i, false⟩).hold i.user ⟨i, false⟩ p) p i where
  index := fun _ => get_hold_self _ _ _ _
  dir := fun hk => absurd hk hdir
  snapshot := by
    intro _ _ hread
    obtain ⟨bytes, hbytes⟩ := ne_none_iff_exists'.mp hread
    rw [hold_preSnapshots, takeSnapshot, hbytes, addSnapshot_preSnapshots, update_self]
    exact some_ne_none _

omit hrec in
theorem WalkRecorded.of_dir {fd : HeldFd} (hkind : (fs.inode i).kind = .directory) :
    WalkRecorded io fs root
      (if io.opens p then (ws.addDir i.user p).hold i.user fd p else ws.addDir i.user p) p i where
  index := by
    intro hat
    rw [if_pos (openedAt_eq_some_iff.mp hat).2.2.2.2]
    exact get_hold_self _ _ _ _
  dir := by
    intro _
    have hrecorded : (ws.addDir i.user p).dirPaths i.user ≠ none := by
      rw [addDir_dirPaths, update_self]
      exact some_ne_none p
    split_ifs
    · exact hrecorded
    · exact hrecorded
  snapshot := by
    intro _ hreg
    rw [hkind] at hreg
    cases hreg

theorem preOpenEntry_recorded (hunder : root <+: path)
    (hi : fs.lookup path = some i) (hdev : (fs.inode i).kind = .directory → i.user.dev = rootDev)
    (w : WatchWalk) :
    WalkRecorded io fs root (preOpenEntry io fs rootDev recurse path w).ws path i := by
  unfold preOpenEntry
  rw [hi]
  dsimp only
  cases hkind : (fs.inode i).kind with
  | directory =>
    rw [if_neg (not_not.mpr (hdev hkind))]
    refine WalkRecorded.mono ?_ (hrec path _ hunder).1.ws
    exact .of_dir hkind
  | fifo | socket =>
    dsimp only
    split_ifs with hopen
    · exact .of_held (by rw [hkind]; decide) (by rw [hkind]; decide)
    · exact .of_unopened (openedAt_ne_of_refused hopen) (by rw [hkind]; decide)
  | regular =>
    dsimp only
    split_ifs with hopen
    · exact .of_file (by rw [hkind]; decide)
    · exact .of_unopened (openedAt_ne_of_refused hopen) (by rw [hkind]; decide)
  | symlink | blockDevice | charDevice =>
    exact .of_unopened (openedAt_ne_of_kind (by rw [hkind]; decide)) (by rw [hkind]; decide)

theorem preOpenEntries_visits {names : List String} {name : String} (hunder : root <+: dir)
    (hname : name ∈ names)
    (hcap : (preOpenEntries io fs rootDev recurse dir names w).hitCap = false) :
    ∃ w', (preOpenEntry io fs rootDev recurse (dir ++ [.normal name]) w').Grows
      (preOpenEntries io fs rootDev recurse dir names w) := by
  induction names generalizing w with
  | nil => cases hname
  | cons first rest ih =>
    rw [preOpenEntries] at hcap ⊢
    split_ifs at hcap ⊢ with hfull
    rcases mem_cons.mp hname with rfl | hrest
    · exact ⟨w, (preOpenEntries_walks hrec hunder rest _).1⟩
    · exact ih hrest hcap

end

/-- A directory is listed with every name in it. -/
def HelperIo.Lists (io : HelperIo) (fs : Fs) : Prop :=
  ∀ d, fs.IsDir d → ∃ names, io.readDir d = some names ∧
    ∀ name, fs.kindAt (d ++ [.normal name]) ≠ none → name ∈ names

/-- The tree is within the limits of the walk: not too deep, not too many files, none too large,
and on one file system, whose number is not the 0 of a marker. -/
structure WithinLimits (io : HelperIo) (fs : Fs) (root : PathBuf) (dev : Nat) : Prop where
  isDir : fs.IsDir root
  depth : ∀ p, root <+: p → fs.kindAt p ≠ none → p.length ≤ root.length + preOpenTreeDepthLimit
  files : (preOpenTree io fs root).hitCap = false
  sizes : ∀ p i, root <+: p → fs.lookup p = some i → (fs.inode i).kind = .regular →
    (fs.inode i).content.length ≤ maxPreImageBytes
  device : ∀ p i, root <+: p → fs.lookup p = some i → i.dev = dev
  marked : dev ≠ 0

theorem normal_of_absolute {comp : Component} (hdir : dir ≠ [])
    (habs : AbsolutePath (dir ++ comp :: rest)) : ∃ name, comp = .normal name := by
  obtain ⟨names, hnames⟩ := habs
  obtain ⟨first, dir, rfl⟩ := exists_cons_of_ne_nil hdir
  obtain ⟨-, htail⟩ := cons.inj hnames
  have hmem : comp ∈ names.map Component.normal := by
    rw [← htail]
    exact mem_append_right _ mem_cons_self
  obtain ⟨name, -, rfl⟩ := mem_map.mp hmem
  exact ⟨name, rfl⟩

/-- **Everything below a directory is recorded**, as deep as there are levels left. -/
theorem preOpenRecurse_recorded (hwf : fs.WellFormed) (hlists : io.Lists fs)
    (hdev : ∀ d i, root <+: d → fs.lookup d = some i → (fs.inode i).kind = .directory →
      i.user.dev = rootDev)
    {levels : Nat} (hunder : root <+: dir) (hdir : fs.IsDir dir) (hrest : rest ≠ [])
    (hlen : rest.length ≤ levels) (hi : fs.lookup (dir ++ rest) = some i)
    (hcap : (preOpenRecurse io fs rootDev levels dir w).hitCap = false) :
    WalkRecorded io fs root (preOpenRecurse io fs rootDev levels dir w).ws (dir ++ rest) i := by
  induction levels generalizing dir rest w with
  | zero => exact absurd (length_eq_zero_iff.mp (Nat.le_zero.mp hlen)) hrest
  | succ levels ih =>
    obtain ⟨names, hread, hnames⟩ := hlists dir hdir
    rw [preOpenRecurse] at hcap ⊢
    split_ifs at hcap ⊢
    rw [hread] at hcap ⊢
    obtain ⟨comp, rest, rfl⟩ := exists_cons_of_ne_nil hrest
    have habs := hwf.absolute _ (kindAt_ne_none hi)
    have hne : dir ≠ [] := (hwf.absolute dir (hdir ▸ some_ne_none _)).ne_nil
    obtain ⟨name, rfl⟩ := normal_of_absolute hne habs
    rw [append_cons] at hi ⊢
    have hbelow := (child_of_root hunder name).1
    have hwalks : ∀ d w, root <+: d → Walks io fs root w _ := preOpenRecurse_walks rootDev levels
    -- the first component is an entry of the directory, and a directory itself if there is more
    by_cases hlast : rest = []
    · subst hlast
      rw [append_nil] at hi ⊢
      have hname := hnames name (kindAt_ne_none hi)
      obtain ⟨w', hvisit⟩ := preOpenEntries_visits hwalks hunder hname hcap
      exact (preOpenEntry_recorded hwalks hbelow hi (hdev _ i hbelow hi) w').mono hvisit.ws
    · obtain ⟨kind, hkind, rfl⟩ := hwf.rooted.dir_of_below (concat_ne_nil _ dir)
        hlast (kindAt_of_lookup hi)
      have hname := hnames name (hkind ▸ some_ne_none _)
      obtain ⟨w', hvisit⟩ := preOpenEntries_visits hwalks hunder hname hcap
      obtain ⟨n, hn, hdirkind⟩ := kindAt_eq_some_iff.mp hkind
      obtain ⟨j, hj, rfl⟩ := node_eq_some_iff.mp hn
      obtain ⟨w'', hdown⟩ := preOpenEntry_of_dir io (preOpenRecurse io fs rootDev levels)
        hj hdirkind (hdev _ j hbelow hj hdirkind) w'
      rw [hdown] at hvisit
      exact (ih hbelow hkind hlast (Nat.le_of_succ_le_succ hlen) hi (hvisit.whole hcap)).mono
        hvisit.ws

end Complete

/-! ## What the watch begins with -/

/-- The path of a directory below the root. -/
def Fs.dirNamed (fs : Fs) (root : PathBuf) (i : InodeRef) : Option PathBuf :=
  (fs.entries.map Prod.fst).find? fun d =>
    decide (root <+: d ∧ fs.lookup d = some i ∧ (fs.inode i).kind = .directory)

/-- A directory has one name. -/
def Fs.DirsOnce (fs : Fs) : Prop :=
  ∀ p q i, fs.lookup p = some i → fs.lookup q = some i → (fs.inode i).kind = .directory → p = q

/-- The walk takes a snapshot of the file. -/
def snapshotTaken (io : HelperIo) (fs : Fs) (root : PathBuf) (i : InodeRef) : Bool :=
  fs.entries.any (fun e => openedAt io fs root e.1 = some i) &&
    decide ((fs.inode i).kind = .regular) && (io.readPreImage fs ⟨i, false⟩).isSome

/-- The helper has recorded exactly what is in the tree. -/
structure Covers (io : HelperIo) (fs : Fs) (root : PathBuf) (ws : WatchState) : Prop where
  dedupe : ∀ k, ws.dedupe k = none
  pending : ∀ k, ws.pendingCreates k = []
  dirs : ∀ i, ws.dirPaths i.user = fs.dirNamed root i
  index : ∀ p, KeyMap.get ws.pathToInode p = (openedAt io fs root p).map user
  snapshots : ∀ i, (ws.preSnapshots i.user).isSome = snapshotTaken io fs root i
  held : ∀ i, snapshotTaken io fs root i = true → ws.preOpens i.user = some ⟨i, false⟩

section Covers

theorem Fs.of_dirNamed {d : PathBuf} (hd : fs.dirNamed root i = some d) :
    root <+: d ∧ fs.lookup d = some i ∧ (fs.inode i).kind = .directory := by
  have hfound := find?_some hd
  exact decide_eq_true_iff.mp hfound

theorem Fs.dirNamed_eq_some_iff (honce : fs.DirsOnce) {d : PathBuf} :
    fs.dirNamed root i = some d ↔
      root <+: d ∧ fs.lookup d = some i ∧ (fs.inode i).kind = .directory := by
  constructor
  · exact of_dirNamed
  · rintro ⟨hunder, hi, hkind⟩
    cases hnamed : fs.dirNamed root i with
    | none =>
      have hall := find?_eq_none.mp hnamed d (mem_map_of_mem (mem_entries_of_lookup hi))
      exact absurd (decide_eq_true ⟨hunder, hi, hkind⟩) hall
    | some d' =>
      obtain ⟨-, hi', -⟩ := of_dirNamed hnamed
      rw [honce d' d i hi' hi hkind]

theorem snapshotTaken_iff : snapshotTaken io fs root i = true ↔
    (∃ p, openedAt io fs root p = some i) ∧ (fs.inode i).kind = .regular ∧
      io.readPreImage fs ⟨i, false⟩ ≠ none := by
  rw [snapshotTaken, Bool.and_eq_true, Bool.and_eq_true, List.any_eq_true, decide_eq_true_iff,
    isSome_iff_ne_none, and_assoc]
  refine and_congr_left fun _ => ⟨?_, ?_⟩
  · rintro ⟨e, -, he⟩
    exact ⟨e.1, of_decide_eq_true he⟩
  · rintro ⟨p, hp⟩
    exact ⟨(p, i), mem_entries_of_lookup (openedAt_eq_some_iff.mp hp).1, decide_eq_true hp⟩

/-- What the walk records is in the tree and what is in the tree is recorded, so they agree. -/
theorem Taken.covers (htaken : Taken io fs root ws) (honce : fs.DirsOnce)
    (hrecorded : ∀ p i, root <+: p → fs.lookup p = some i → WalkRecorded io fs root ws p i) :
    Covers io fs root ws where
  dedupe := htaken.dedupe
  pending := htaken.pending
  dirs := by
    intro i
    ext d
    rw [dirNamed_eq_some_iff honce]
    constructor
    · intro hd
      obtain ⟨hunder, j, hj, hkind, hkey⟩ := htaken.dirs i.user d hd
      cases user_injective hkey
      exact ⟨hunder, hj, hkind⟩
    · rintro ⟨hunder, hi, hkind⟩
      obtain ⟨d', hd'⟩ := ne_none_iff_exists'.mp ((hrecorded d i hunder hi).dir hkind)
      obtain ⟨-, j, hj, -, hkey⟩ := htaken.dirs i.user d' hd'
      cases user_injective hkey
      rw [hd', honce d' d i hj hi hkind]
  index := by
    intro p
    cases hget : KeyMap.get ws.pathToInode p with
    | some k =>
      obtain ⟨j, hj, rfl⟩ := htaken.index p k hget
      rw [hj, map_some]
    | none =>
      cases hat : openedAt io fs root p with
      | none => rfl
      | some i =>
        obtain ⟨hi, hunder, -⟩ := openedAt_eq_some_iff.mp hat
        exact absurd hget ((hrecorded p i hunder hi).index hat)
  snapshots := by
    intro i
    rw [Bool.eq_iff_iff, isSome_iff_ne_none, snapshotTaken_iff]
    constructor
    · intro hsnap
      obtain ⟨snap, hsnap⟩ := ne_none_iff_exists'.mp hsnap
      obtain ⟨j, hkey, hof, -, p, hget⟩ := htaken.snapshots i.user snap hsnap
      cases user_injective hkey
      obtain ⟨k, hk, hkey⟩ := htaken.index p _ hget
      cases user_injective hkey
      exact ⟨⟨p, hk⟩, hof.regular, hof.bytes ▸ some_ne_none _⟩
    · rintro ⟨⟨p, hat⟩, hreg, hread⟩
      obtain ⟨hi, hunder, -⟩ := openedAt_eq_some_iff.mp hat
      exact (hrecorded p i hunder hi).snapshot hat hreg hread
  held := by
    intro i hsnap
    obtain ⟨⟨p, hat⟩, hreg, hread⟩ := snapshotTaken_iff.mp hsnap
    obtain ⟨hi, hunder, -⟩ := openedAt_eq_some_iff.mp hat
    obtain ⟨snap, hsnap⟩ := ne_none_iff_exists'.mp
      ((hrecorded p i hunder hi).snapshot hat hreg hread)
    obtain ⟨j, hkey, -, hopen, -⟩ := htaken.snapshots i.user snap hsnap
    cases user_injective hkey
    exact hopen

/-- **Within the limits, the watch begins with what is in the tree.** -/
theorem preOpenTree_covers (hwf : fs.WellFormed) (honce : fs.DirsOnce) (hlists : io.Lists fs)
    {dev : Nat} (hlimits : WithinLimits io fs root dev) :
    Covers io fs root (preOpenTree io fs root).ws := by
  refine (preOpenTree_taken hlimits.isDir).covers honce ?_
  intro p i hunder hi
  have hcap := hlimits.files
  obtain ⟨n, hn, hdir⟩ := kindAt_eq_some_iff.mp hlimits.isDir
  obtain ⟨r, hr, rfl⟩ := node_eq_some_iff.mp hn
  rw [preOpenTree, resolve_of_lookup hr (by rw [hdir]; decide)] at hcap ⊢
  obtain ⟨rest, rfl⟩ := hunder
  by_cases hrest : rest = []
  · -- the root itself is recorded before the walk begins
    subst hrest
    rw [append_nil, hr] at hi
    cases hi
    refine WalkRecorded.mono ⟨fun hat => ?_, fun _ => ?_, fun _ hreg => ?_⟩
      (preOpenRecurse_walks _ _ _ _ (prefix_refl root)).1.ws
    · exact absurd (append_nil root) (openedAt_eq_some_iff.mp hat).2.2.1
    · rw [addDir_dirPaths, update_self]
      exact some_ne_none root
    · rw [hdir] at hreg
      cases hreg
  · have hdepth := hlimits.depth _ (prefix_append root rest) (kindAt_ne_none hi)
    rw [length_append] at hdepth
    refine preOpenRecurse_recorded hwf hlists ?_ (prefix_refl root) hlimits.isDir hrest
      (by omega) hi hcap
    intro d j hd hj hkind
    rw [user, user, hlimits.device d j hd hj, hlimits.device root r (prefix_refl root) hr]

end Covers

end ShitUndo
