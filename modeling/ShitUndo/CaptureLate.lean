import ShitUndo.CaptureRun

/-!
# Handlers that run late

The helper reads events from ring buffers, each with a thread of its own, so a handler may run any
time after its operation and in any order. The create handler opens its path again when it runs,
and takes what it finds for the file that was created.

* `Late`: the tree, the helper, the events not handled yet, and the messages sent. An operation
  adds its event; any event can be handled at any time.
* `NeverMasked`: the inodes of when the watch began keep their snapshots, and are marked as
  captured only if a pre-image was sent.
-/

namespace ShitUndo

open Option Function List WatchState InodeRef HelperIo

open Transition (Meets Runs)

/-! ## Interleavings -/

/-- A command and the helper, which lags behind. -/
structure Late where
  fs : Fs
  ws : WatchState
  pending : List LsmEvent
  sent : List HelperResponse

/-- An operation, or the handler of an event that waits. -/
inductive LateAction where
  | op (op : KernelOp)
  | handle (n : Nat)
deriving DecidableEq, Repr

/-- Creates, renames, writes and removals. -/
def KernelOp.isLateOp : KernelOp → Bool
  | .mkdir _ _ _ => false
  | .setattr _ _ _ _ => false
  | _ => true

section System

variable (io : Fs → HelperIo) (h : Host) (command : CommandId) (root : PathBuf)

/-- When the command starts. -/
def Late.start (fs : Fs) : Late := ⟨fs, (preOpenTree (io fs) fs root).ws, [], []⟩

/-- An operation below the root changes the tree at once; its event waits. A handler works on the
tree as it is when it runs. -/
def Late.step (s : Late) : LateAction → Option Late
  | .op op =>
    if op.isLateOp && op.dentries.all fun e => decide (root <+: e.dir ∧ s.fs.IsDir e.dir) then
      (op.perform h s.fs).map fun fs' =>
        { s with fs := fs', pending := s.pending ++ (op.event s.fs).toList }
    else none
  | .handle n =>
    match s.pending[n]? with
    | none => none
    | some ev =>
      let handled := handleLsm (io s.fs) h s.fs command s.ws ev
      some ⟨s.fs, handled.1, s.pending.eraseIdx n, s.sent ++ handled.2⟩

end System

/-! ## The property -/

/-- The inodes of the tree when the watch began keep their snapshots, and are marked as captured
only if a pre-image of theirs was sent. -/
def NeverMasked (fs₀ : Fs) (ws₀ : WatchState) (s : Late) : Prop :=
  ∀ p i, fs₀.lookup p = some i → s.ws.preSnapshots i.user = ws₀.preSnapshots i.user ∧
      (s.ws.dedupe i.user = some false → ∃ pre, .capturedPreImage pre ∈ s.sent ∧ pre.ref = i.user)

/-- What a create handler finds at its path. -/
def Late.foundBy (s : Late) : LsmEvent → Option InodeRef
  | .create ev =>
    (resolveViaParent s.ws.dirPaths (user ⟨ev.parentDev, ev.parentInode⟩)
      ev.basename).bind s.fs.lookup
  | _ => none

/-- What a create handler finds was not in the tree when the watch began. -/
def FindsNew (fs₀ : Fs) (s : Late) : LateAction → Prop
  | .op _ => True
  | .handle n => ∀ entry ∈ fs₀.entries, (s.pending[n]?).bind s.foundBy ≠ some entry.2

instance (fs₀ : Fs) (s : Late) : ∀ a, Decidable (FindsNew fs₀ s a)
  | .op _ => isTrue trivial
  | .handle n => inferInstanceAs
      (Decidable (∀ entry ∈ fs₀.entries, (s.pending[n]?).bind s.foundBy ≠ some entry.2))

/-! ## The invariant -/

section Invariant

variable {io : Fs → HelperIo} {h : Host} {command : CommandId} {root : PathBuf} {fs₀ : Fs}
  {ws₀ : WatchState} {s s' : Late} {ev : LsmEvent} {fs : Fs} {ws : WatchState} {key : InodeRef}
  {result : WatchState × List HelperResponse} {path : PathBuf}

/-- An event of one of the operations considered. -/
def LsmEvent.isLate : LsmEvent → Bool
  | .mkdir _ => false
  | .setattr _ => false
  | _ => true

theorem KernelOp.event_isLate {op : KernelOp} (hop : op.isLateOp = true)
    (hev : op.event fs = some ev) : ev.isLate = true := by
  cases op with
  | mkdir e perm i => cases hop
  | setattr e perm uid gid => cases hop
  | rename src dst =>
    unfold KernelOp.event at hev
    dsimp only at hev
    split_ifs at hev
    cases hev
    rfl
  | _ =>
    cases hev
    rfl

/-- The property, and that only events of the operations considered wait. -/
structure Unmasked (fs₀ : Fs) (ws₀ : WatchState) (s : Late) : Prop where
  kept : NeverMasked fs₀ ws₀ s
  pending : ∀ ev ∈ s.pending, ev.isLate = true

theorem unmasked_start (io : Fs → HelperIo) (hroot : fs₀.IsDir root) :
    Unmasked fs₀ (preOpenTree (io fs₀) fs₀ root).ws (Late.start io root fs₀) where
  kept := by
    intro p i _
    refine ⟨rfl, fun hmarked => ?_⟩
    rw [show (Late.start io root fs₀).ws.dedupe i.user = none from
      (preOpenTree_taken hroot).dedupe i.user] at hmarked
    cases hmarked
  pending := fun _ hev => absurd hev not_mem_nil

/-- What a handler may do to the inodes of when the watch began: keep the snapshots, and mark
those it sends. -/
def SparesOld (fs₀ : Fs) (ws : WatchState) (result : WatchState × List HelperResponse) : Prop :=
  ∀ p i, fs₀.lookup p = some i → result.1.preSnapshots i.user = ws.preSnapshots i.user ∧
    (result.1.dedupe i.user = some false → ws.dedupe i.user = some false ∨
      ∃ pre, .capturedPreImage pre ∈ result.2 ∧ pre.ref = i.user)

theorem spares_same (sent : List HelperResponse) :
    SparesOld fs₀ ws (ws, sent) := fun _ _ _ => ⟨rfl, .inl⟩

theorem SentSnapshot.spares {io : HelperIo} (hsends : ∀ msg, io.sends msg = true)
    (hsent : SentSnapshot io h ws key result) : SparesOld fs₀ ws result := by
  cases hsent with
  | nothing => exact spares_same []
  | sent snap path pre hfree hsnap hpath href hprepath hdelete hstaged hhash =>
    intro p i hi
    refine ⟨rfl, fun hmarked => ?_⟩
    by_cases hkey : i.user = key
    · exact .inr ⟨pre, mem_deliver.mpr ⟨rfl, hsends _⟩, by rw [href, hkey]⟩
    · rw [mark_dedupe, update_of_ne hkey] at hmarked
      exact .inl hmarked

theorem spares_of_opened_up {ws' : WatchState} {sent : List HelperResponse}
    (hsnaps : ws'.preSnapshots = ws.preSnapshots)
    (hdedupe : ws'.dedupe = update ws.dedupe key (some true)) :
    SparesOld fs₀ ws (ws', sent) := by
  intro p i _
  refine ⟨by rw [hsnaps], fun hmarked => .inl ?_⟩
  rw [hdedupe] at hmarked
  by_cases hkey : i.user = key
  · rw [hkey, update_self] at hmarked
    cases hmarked
  · rwa [update_of_ne hkey] at hmarked

theorem handleLsmUnlink_spares {io : HelperIo} (ev : LsmUnlinkView) :
    SparesOld fs₀ ws (handleLsmUnlink io h fs command ws ev) := by
  rcases handleLsmUnlink_cases ev with ⟨-, hlost⟩ | ⟨dir, pre, -, -, -, -, hunlink⟩
  · rw [hlost]
    exact spares_of_opened_up rfl rfl
  · rw [hunlink]
    exact spares_of_opened_up rfl rfl

theorem stashCreated_spares {io : HelperIo} {fd : HeldFd} (hnew : ∀ p, fs₀.lookup p ≠ some fd.ino)
    (sent : List HelperResponse) :
    SparesOld fs₀ ws (stashCreated io fs ws path fd, sent) := by
  intro p i hi
  have hne : i.user ≠ fd.ino.user := by
    intro hkey
    rw [user_injective hkey] at hi
    exact hnew p hi
  have hother : (stashCreated io fs ws path fd).preSnapshots i.user = ws.preSnapshots i.user := by
    unfold stashCreated
    rw [mark_preSnapshots, hold_preSnapshots]
    split_ifs
    · split
      · rw [addSnapshot_preSnapshots, update_of_ne hne]
      · rfl
    · rfl
  have hdedupe : (stashCreated io fs ws path fd).dedupe i.user = ws.dedupe i.user := by
    unfold stashCreated
    rw [mark_dedupe, update_of_ne hne, hold_dedupe]
    split_ifs
    · split <;> rfl
    · rfl
  exact ⟨hother, fun hmarked => .inl (hdedupe ▸ hmarked)⟩

theorem lookup_of_openNoFollow {io : HelperIo} {fd : HeldFd}
    (hopen : io.openNoFollow fs path = some fd) : fs.lookup path = some fd.ino := by
  unfold openNoFollow at hopen
  split at hopen
  · cases hopen
  · rename_i i hi
    split_ifs at hopen
    cases hopen
    exact hi

theorem processLsmCreateResolved_spares {io : HelperIo}
    (hnew : ∀ i, fs.lookup path = some i → ∀ p, fs₀.lookup p ≠ some i) (mode : Nat) :
    SparesOld fs₀ ws (processLsmCreateResolved io fs command ws path mode) := by
  rcases (processLsmCreateResolved_cases path mode).2 with hsame | ⟨fd, hopen, hstash⟩
  · rw [← Prod.eta (processLsmCreateResolved io fs command ws path mode), hsame]
    exact spares_same _
  · rw [← Prod.eta (processLsmCreateResolved io fs command ws path mode), hstash]
    exact stashCreated_spares (hnew fd.ino (lookup_of_openNoFollow hopen)) _

/-- **A create handler spares the old inodes unless it finds one.** -/
theorem handleLsmCreate_spares {io : HelperIo} {ev : LsmCreateView} (hnew : ∀ path,
      resolveViaParent ws.dirPaths (user ⟨ev.parentDev, ev.parentInode⟩) ev.basename =
        some path → ∀ i, fs.lookup path = some i → ∀ p, fs₀.lookup p ≠ some i) :
    SparesOld fs₀ ws (handleLsmCreate io fs command ws ev) := by
  unfold handleLsmCreate
  dsimp only
  split
  · rename_i path hpath
    exact processLsmCreateResolved_spares (hnew path hpath) ev.mode
  · exact fun p i _ => ⟨rfl, .inl⟩

theorem handleLsm_spares {n : Nat} (hsends : ∀ fs msg, (io fs).sends msg = true)
    (hev : s.pending[n]? = some ev) (hlate : ev.isLate = true) (hnew : FindsNew fs₀ s (.handle n)) :
    SparesOld fs₀ s.ws (handleLsm (io s.fs) h s.fs command s.ws ev) := by
  cases ev with
  | unlink ev => exact handleLsmUnlink_spares ev
  | setattr ev => cases hlate
  | mkdir ev => cases hlate
  | create ev =>
    refine handleLsmCreate_spares fun path hpath i hi p hp => ?_
    refine hnew _ (Fs.mem_entries_of_lookup hp) ?_
    rw [hev, bind_some, Late.foundBy, hpath, bind_some, hi]
  | opened ev => exact (handleLsmOpen_sent ev).spares (hsends s.fs)
  | release ev => exact (handleLsmRelease_sent ev).spares (hsends s.fs)
  | rename ev =>
    dsimp only [handleLsm]
    rw [← Prod.eta (handleLsmRename (io s.fs) h command s.ws ev), handleLsmRename_state]
    exact spares_same _

theorem NeverMasked.handle {pending : List LsmEvent} (hkept : NeverMasked fs₀ ws₀ s)
    (hspares : SparesOld fs₀ s.ws result) :
    NeverMasked fs₀ ws₀ ⟨s.fs, result.1, pending, s.sent ++ result.2⟩ := by
  intro p i hi
  obtain ⟨hsnap, hmarked⟩ := hkept p i hi
  obtain ⟨hsnap', hmarked'⟩ := hspares p i hi
  refine ⟨hsnap'.trans hsnap, fun hdedupe => ?_⟩
  rcases hmarked' hdedupe with hold | ⟨pre, hpre, href⟩
  · obtain ⟨pre, hpre, href⟩ := hmarked hold
    exact ⟨pre, mem_append_left _ hpre, href⟩
  · exact ⟨pre, mem_append_right _ hpre, href⟩

/-- **No step masks an old inode, unless a create handler finds one.** -/
theorem Unmasked.step {a : LateAction} (hunmasked : Unmasked fs₀ ws₀ s)
    (hsends : ∀ fs msg, (io fs).sends msg = true) (hnew : FindsNew fs₀ s a)
    (hstep : s.step io h command root a = some s') : Unmasked fs₀ ws₀ s' := by
  cases a with
  | op op =>
    unfold Late.step at hstep
    dsimp only at hstep
    split_ifs at hstep with hop
    rw [Bool.and_eq_true] at hop
    obtain ⟨fs', -, rfl⟩ := map_eq_some_iff.mp hstep
    refine ⟨hunmasked.kept, fun ev hev => ?_⟩
    rcases mem_append.mp hev with hold | hadded
    · exact hunmasked.pending ev hold
    · exact KernelOp.event_isLate hop.1 (mem_toList.mp hadded)
  | handle n =>
    unfold Late.step at hstep
    dsimp only at hstep
    cases hev : s.pending[n]? with
    | none =>
      rw [hev] at hstep
      cases hstep
    | some ev =>
      rw [hev] at hstep
      cases hstep
      have hlate := hunmasked.pending ev (mem_of_getElem? hev)
      refine ⟨hunmasked.kept.handle (handleLsm_spares hsends hev hlate hnew), fun ev' hev' => ?_⟩
      exact hunmasked.pending ev' (mem_of_mem_eraseIdx hev')

/-- **Late create events do not mask an older file** in any interleaving in which no create
handler finds one at its path, and messages reach the daemon. -/
theorem never_masked (io : Fs → HelperIo) (h : Host) (command : CommandId) (root : PathBuf)
    (fs₀ : Fs) (actions : List LateAction) (s : Late) (hroot : fs₀.IsDir root)
    (hsends : ∀ fs msg, (io fs).sends msg = true)
    (hrun : Runs (Late.step io h command root) (Late.start io root fs₀) actions s)
    (hnew : Meets (FindsNew fs₀) (Late.step io h command root) (Late.start io root fs₀) actions) :
    NeverMasked fs₀ (preOpenTree (io fs₀) fs₀ root).ws s := by
  have hunmasked : Unmasked fs₀ (preOpenTree (io fs₀) fs₀ root).ws s := by
    refine hrun.invariant_of_meets hnew (unmasked_start io hroot) ?_
    intro t a t' hinv hguard hstep
    exact hinv.step hsends hguard hstep
  exact hunmasked.kept

end Invariant

/-! ## A file that is masked -/

/-- Two files in a directory. -/
def twoInDir : Fs := .ofList [("/w", .dir), ("/w/a", .file [1]), ("/w/b", .file [2])]

/-- One step of a watch on them. -/
def twoInDirStep : Late → LateAction → Option Late :=
  Late.step sample .sample (.mk 0 0) (.ofString "/w")

/-- The watch on them after some actions. -/
def twoInDirAfter (actions : List LateAction) : Option Late :=
  actions.foldlM twoInDirStep (Late.start sample (.ofString "/w") twoInDir)

/-- A new file written and moved over another one, its events handled backwards. -/
def backwards : List LateAction :=
  [.op (.create (.of "/w" "x") 0o644 ⟨1, 5⟩), .op (.writeOpen (.of "/w" "x") [3]),
    .op (.rename (.of "/w" "x") (.of "/w" "a")), .handle 2, .handle 1, .handle 0]

theorem backwards_never_masked : ∃ s, twoInDirAfter backwards = some s ∧
    NeverMasked twoInDir (preOpenTree (sample twoInDir) twoInDir (.ofString "/w")).ws
      s := by
  have hsome : (twoInDirAfter backwards).isSome = true := by decide +kernel
  obtain ⟨s, hs⟩ := isSome_iff_exists.mp hsome
  exact ⟨s, hs, never_masked _ _ _ _ _ backwards s (by decide +kernel) (fun _ _ => rfl) hs
    (by decide +kernel)⟩

/-- A file is moved to a new name and written, and only then the create of the name and the open
are handled. -/
def overtaken : List LateAction :=
  [.op (.create (.of "/w" "x") 0o644 ⟨1, 5⟩), .op (.rename (.of "/w" "a") (.of "/w" "x")),
    .op (.writeOpen (.of "/w" "x") [3]), .handle 0, .handle 1]

/-- The snapshot of the file is replaced by what was written to it, the file is marked as captured,
and no pre-image was sent. -/
theorem late_create_masks :
    (twoInDirAfter overtaken).map (fun s =>
        ((s.ws.preSnapshots (user ⟨1, 3⟩)).map PreSnapshot.bytes,
          s.ws.dedupe (user ⟨1, 3⟩), s.sent.filter HelperResponse.isPreImage)) =
      some (some [3], some false, []) ∧
    ∃ s, twoInDirAfter overtaken = some s ∧ ¬ NeverMasked twoInDir
      (preOpenTree (sample twoInDir) twoInDir (.ofString "/w")).ws s := by
  have hsome : (twoInDirAfter overtaken).isSome = true := by decide +kernel
  obtain ⟨s, hs⟩ := isSome_iff_exists.mp hsome
  refine ⟨by decide +kernel, s, hs, fun hkept => ?_⟩
  have hreplaced : (twoInDirAfter overtaken).map (fun s => s.ws.preSnapshots (user ⟨1, 3⟩))
      ≠ some ((preOpenTree (sample twoInDir) twoInDir (.ofString "/w")).ws.preSnapshots
        (user ⟨1, 3⟩)) := by
    decide +kernel
  rw [hs, map_some] at hreplaced
  exact hreplaced (congrArg some (hkept (.ofString "/w/a") ⟨1, 3⟩ (by decide +kernel)).1)

end ShitUndo
