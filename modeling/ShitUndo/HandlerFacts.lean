import ShitUndo.LinuxCapture

/-!
# What the handlers can do

One lemma for each handler: which new state and which messages come out of it. The proofs about
runs go through these lemmas and do not unfold a handler again.

* `SentSnapshot`: the three handlers that send a snapshot do nothing, or send it under the path
  they find for the inode and mark the inode.
-/

namespace ShitUndo

open InodeRef List Option Function HelperIo

variable {io : HelperIo} {h : Host} {fs : Fs} {command : CommandId} {ws : WatchState}
  {key : InodeRef} {msg : HelperResponse} {i : InodeRef} {path : PathBuf} {ev : LsmCreateView}
  {dir dst : PathBuf}

def HelperResponse.isPreImage : HelperResponse → Bool
  | .capturedPreImage _ => true
  | _ => false

theorem HelperIo.mem_deliver {response : HelperResponse} :
    msg ∈ io.deliver response ↔ msg = response ∧ io.sends response = true := by
  unfold deliver
  split_ifs with hsends
  · simp [hsends]
  · simp [hsends]

theorem HelperIo.readPreImage_of_reads (hreads : io.reads i = true)
    (hlen : (fs.inode i).content.length ≤ maxPreImageBytes) :
    io.readPreImage fs ⟨i, false⟩ = some (fs.inode i).content := by
  simp only [readPreImage, hreads, Bool.not_true, Bool.or_false, Bool.false_or,
    decide_eq_true_iff, not_lt.mpr hlen, if_false]

/-! ## Snapshots -/

/-- Nothing is done, or the snapshot of the inode is sent and the inode marked as captured. -/
inductive SentSnapshot (io : HelperIo) (h : Host) (ws : WatchState) (key : InodeRef) :
    WatchState × List HelperResponse → Prop
  | nothing : SentSnapshot io h ws key (ws, [])
  | sent (snap : PreSnapshot) (path : String) (pre : CapturedPreImage)
      (hfree : shouldCaptureDedupe ws.dedupe key = true)
      (hsnap : ws.preSnapshots key = some snap) (hpath : resolveInodeToPath io ws key = some path)
      (href : pre.ref = key) (hprepath : pre.path = some path) (hdelete : pre.isDelete = false)
      (hstaged : pre.staged = some snap.bytes) (hhash : pre.blobHash = h.blake3 snap.bytes) :
      SentSnapshot io h ws key (ws.mark key false, io.deliver (.capturedPreImage pre))

theorem sentSnapshot_of_send {snap : PreSnapshot} {response : String → CapturedPreImage}
    (hfree : shouldCaptureDedupe ws.dedupe key = true) (hsnap : ws.preSnapshots key = some snap)
    (hresponse : ∀ path, (response path).ref = key ∧ (response path).path = some path ∧
      (response path).isDelete = false ∧ (response path).staged = some snap.bytes ∧
      (response path).blobHash = h.blake3 snap.bytes) :
    SentSnapshot io h ws key (sendSnapshot io ws key snap.bytes response) := by
  unfold sendSnapshot
  split_ifs
  · exact .nothing
  split
  · exact .nothing
  · rename_i path hpath
    obtain ⟨href, hprepath, hdelete, hstaged, hhash⟩ := hresponse path
    exact .sent snap path _ hfree hsnap hpath href hprepath hdelete hstaged hhash

theorem handleLsmOpen_sent (ev : LsmOpenView) :
    SentSnapshot io h ws (user ⟨ev.dev, ev.inode⟩) (handleLsmOpen io h command ws ev) := by
  unfold handleLsmOpen
  dsimp only
  split_ifs with hcaptured
  · exact .nothing
  split
  · exact .nothing
  · rename_i snap hsnap
    exact sentSnapshot_of_send (by simpa using hcaptured) hsnap
      fun path => ⟨rfl, rfl, rfl, rfl, rfl⟩

theorem handleLsmSetattr_cases (ev : LsmSetattrView) :
    (ws.preSnapshots (user ⟨ev.dev, ev.inode⟩) = none ∧ handleLsmSetattr io h command ws ev =
        (ws.mark (user ⟨ev.dev, ev.inode⟩) false, [])) ∨
    SentSnapshot io h ws (user ⟨ev.dev, ev.inode⟩) (handleLsmSetattr io h command ws ev) := by
  unfold handleLsmSetattr
  dsimp only
  split_ifs with hcaptured
  · exact .inr .nothing
  split
  · rename_i hsnap
    exact .inl ⟨hsnap, rfl⟩
  · rename_i snap hsnap
    exact .inr (sentSnapshot_of_send (by simpa using hcaptured) hsnap
      fun path => ⟨rfl, rfl, rfl, rfl, rfl⟩)

theorem handleLsmRelease_sent (ev : LsmOpenView) :
    SentSnapshot io h ws (user ⟨ev.dev, ev.inode⟩) (handleLsmRelease io h fs command ws ev) := by
  unfold handleLsmRelease
  dsimp only
  split_ifs with hcaptured
  · exact .nothing
  split
  · rename_i snap fd hsnap _
    split
    · exact .nothing
    · split_ifs
      · exact .nothing
      · exact sentSnapshot_of_send (by simpa using hcaptured) hsnap
          fun path => ⟨rfl, rfl, rfl, rfl, rfl⟩
  · exact .nothing

/-! ## Removal -/

theorem handleLsmUnlink_cases (ev : LsmUnlinkView) :
    (ws.dirPaths ⟨kernelDevToUserspace ev.dev, ev.parentInode⟩ = none ∧
      handleLsmUnlink io h fs command ws ev = (ws.mark (user ⟨ev.dev, ev.inode⟩) true, [])) ∨
    ∃ dir pre, ws.dirPaths ⟨kernelDevToUserspace ev.dev, ev.parentInode⟩ = some dir ∧
      pre.ref = user ⟨ev.dev, ev.inode⟩ ∧ pre.isDelete = true ∧
      pre.path = some (PathBuf.display (dir ++ [.normal ev.basename])) ∧
      handleLsmUnlink io h fs command ws ev =
        ((ws.mark (user ⟨ev.dev, ev.inode⟩) true).drop
          (user ⟨ev.dev, ev.inode⟩), io.deliver (.capturedPreImage pre)) := by
  unfold handleLsmUnlink resolveViaParent
  dsimp only
  rw [WatchState.mark_dirPaths]
  cases hdir : ws.dirPaths ⟨kernelDevToUserspace ev.dev, ev.parentInode⟩ with
  | none =>
    rw [show (user ⟨ev.dev, ev.inode⟩).dev = kernelDevToUserspace ev.dev from rfl, hdir]
    exact .inl ⟨rfl, rfl⟩
  | some dir =>
    rw [show (user ⟨ev.dev, ev.inode⟩).dev = kernelDevToUserspace ev.dev from rfl, hdir]
    exact .inr ⟨dir, _, rfl, rfl, rfl, rfl, rfl⟩

/-! ## Creation -/

/-- The messages are creates at the path, by the inode now there or by a marker. -/
def CreateAt (path : PathBuf) (found : Option HeldFd) (msg : HelperResponse) : Prop :=
  ∃ command kind mode now, msg = .treeMutation command
    (.create ((found.map fun fd => fd.ino.user).getD ⟨0, 0⟩) path.display kind mode) now

theorem createdAs_ref {found : Option HeldFd} {ref : InodeRef} {kind : FileKind}
    (hcreated : createdAs fs found = some (ref, kind)) :
    ref = (found.map fun fd => fd.ino.user).getD ⟨0, 0⟩ := by
  unfold createdAs at hcreated
  cases found with
  | none =>
    cases hcreated
    rfl
  | some fd =>
    dsimp only at hcreated
    split_ifs at hcreated
    cases hcreated
    rfl

theorem processLsmCreateResolved_cases (path : PathBuf) (mode : Nat) :
    (∀ msg ∈ (processLsmCreateResolved io fs command ws path mode).2,
      CreateAt path (io.openNoFollow fs path) msg) ∧
    ((processLsmCreateResolved io fs command ws path mode).1 = ws ∨
      ∃ fd, io.openNoFollow fs path = some fd ∧
        (processLsmCreateResolved io fs command ws path mode).1 =
          stashCreated io fs ws path fd) := by
  unfold processLsmCreateResolved
  dsimp only
  split
  · exact ⟨fun msg hmsg => absurd hmsg not_mem_nil, .inl rfl⟩
  rename_i ref kind hcreated
  split_ifs
  · exact ⟨fun msg hmsg => absurd hmsg not_mem_nil, .inl rfl⟩
  have hat : ∀ msg ∈ [HelperResponse.treeMutation command
      (.create ref path.display kind mode) io.now],
      CreateAt path (io.openNoFollow fs path) msg := by
    intro msg hmsg
    rw [mem_singleton.mp hmsg, createdAs_ref hcreated]
    exact ⟨command, kind, mode, io.now, rfl⟩
  split
  · exact ⟨hat, .inl rfl⟩
  · rename_i fd hfound
    exact ⟨hat, .inr ⟨fd, hfound, rfl⟩⟩

theorem processLsmCreateResolved_regular {bytes : Bytes}
    (hopen : io.openNoFollow fs path = some ⟨i, false⟩) (hreg : (fs.inode i).kind = .regular)
    (hread : io.readPreImage fs ⟨i, false⟩ = some bytes) (hsends : ∀ msg, io.sends msg = true)
    (mode : Nat) :
    (processLsmCreateResolved io fs command ws path mode).1 =
      ((ws.addSnapshot i.user ⟨io.fstatMeta fs ⟨i, false⟩, bytes⟩).hold i.user ⟨i, false⟩
        path).mark i.user false := by
  have hcreated : createdAs fs (some ⟨i, false⟩) = some (i.user, .regular) := by
    simp only [createdAs, hreg, true_or, if_true]
  unfold processLsmCreateResolved
  dsimp only
  rw [hopen, hcreated]
  dsimp only
  rw [hsends]
  simp only [Bool.not_true, Bool.false_eq_true, if_false, stashCreated, hreg, if_true, hread]

section

variable (hdir : ws.dirPaths (user ⟨ev.parentDev, ev.parentInode⟩) = some dir)

include hdir

variable (hpath : path = dir ++ [.normal ev.basename])

include hpath

theorem handleLsmCreate_eq :
    handleLsmCreate io fs command ws ev =
      processLsmCreateResolved io fs command ws path ev.mode := by
  unfold handleLsmCreate resolveViaParent
  dsimp only
  rw [hdir, map_some, ← hpath]

theorem handleLsmMkdir_of_known (hstat : statDir fs path = i.user) (hdev : i.user.dev ≠ 0) :
    handleLsmMkdir io fs command ws ev = drainPending io fs path (ws.pendingCreates i.user)
        ({ ws.addDir i.user path with
            pendingCreates := update ws.pendingCreates i.user [] },
          io.deliver (.treeMutation command (.create i.user path.display .directory ev.mode)
            io.now)) := by
  unfold handleLsmMkdir resolveViaParent
  rw [hdir, map_some, ← hpath]
  dsimp only
  rw [hstat, if_neg hdev]

/-- A directory is known from its `mkdir` on; nothing else changes if no create waits for it. -/
theorem handleLsmMkdir_eq (hstat : statDir fs path = i.user) (hdev : i.user.dev ≠ 0)
    (hpending : ∀ k, ws.pendingCreates k = []) :
    handleLsmMkdir io fs command ws ev = (ws.addDir i.user path, io.deliver
      (.treeMutation command (.create i.user path.display .directory ev.mode) io.now)) := by
  have hnone : update ws.pendingCreates i.user [] = ws.pendingCreates := by
    rw [update_eq_self_iff, hpending]
  rw [handleLsmMkdir_of_known hdir hpath hstat hdev, hpending i.user, drainPending, hnone]
  rfl

end

/-! ## Renames -/

theorem mem_clobberedPreImage :
    msg ∈ clobberedPreImage io h command ws dst ↔
      ∃ k snap, KeyMap.get ws.pathToInode dst = some k ∧ ws.preSnapshots k = some snap ∧
        io.stages snap.bytes = true ∧
        msg = .capturedPreImage (snap.toPreImage h command k dst.display none true) ∧
        io.sends msg = true := by
  unfold clobberedPreImage
  cases hget : KeyMap.get ws.pathToInode dst with
  | none => simp
  | some k =>
    dsimp only
    cases hsnap : ws.preSnapshots k with
    | none =>
      constructor
      · exact fun hmsg => absurd hmsg not_mem_nil
      · rintro ⟨k', snap, hk, hsnap', -⟩
        cases hk
        rw [hsnap] at hsnap'
        cases hsnap'
    | some snap =>
      dsimp only
      constructor
      · intro hmsg
        split_ifs at hmsg with hstages
        · obtain ⟨rfl, hsends⟩ := mem_deliver.mp hmsg
          exact ⟨k, snap, rfl, hsnap, hstages, rfl, hsends⟩
        · exact absurd hmsg not_mem_nil
      · rintro ⟨k', snap', hk, hsnap', hstages, rfl, hsends⟩
        cases hk
        rw [hsnap] at hsnap'
        cases hsnap'
        rw [if_pos hstages]
        exact mem_deliver.mpr ⟨rfl, hsends⟩

theorem handleLsmRename_state (ev : LsmRenameView) :
    (handleLsmRename io h command ws ev).1 = ws := by
  unfold handleLsmRename
  dsimp only
  split <;> rfl

theorem handleLsmRename_eq {ev : LsmRenameView} {srcDir dstDir src : PathBuf}
    (hsrcDir : ws.dirPaths ⟨kernelDevToUserspace ev.dev, ev.oldParentInode⟩ = some srcDir)
    (hdstDir : ws.dirPaths ⟨kernelDevToUserspace ev.dev, ev.newParentInode⟩ = some dstDir)
    (hsrc : src = srcDir ++ [.normal ev.oldBasename])
    (hdst : dst = dstDir ++ [.normal ev.newBasename]) :
    handleLsmRename io h command ws ev =
      (ws, clobberedPreImage io h command ws dst ++ io.deliver (.treeMutation command
        (.rename src.display dst.display (user ⟨ev.dev, ev.inode⟩)) io.now)) := by
  unfold handleLsmRename resolveViaParent
  dsimp only
  rw [hsrcDir, hdstDir, map_some, map_some, ← hsrc, ← hdst]
  rfl

end ShitUndo
