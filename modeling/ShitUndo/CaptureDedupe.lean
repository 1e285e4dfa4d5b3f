import ShitUndo.CaptureRun

/-!
# One pre-image for each file

Four handlers capture the files a watch began with: on open, change of attributes, release and
unlink. They share the map of inodes captured, in which an unlink opens an inode up again.

* `handleAll`: any sequence of events, each handled on the tree and the machine of its moment.
* `Bookkept`: the snapshots stay what they were, and an inode marked as captured has been sent.
-/

namespace ShitUndo

open List Function InodeRef HelperIo HelperResponse Option Nat WatchState

/-! ## Sequences of events -/

/-- An event, with the tree and the machine when it is handled. -/
structure Handling where
  ev : LsmEvent
  fs : Fs
  io : HelperIo

/-- The file an open, change of attributes, release or unlink is about. -/
def LsmEvent.fileKey : LsmEvent → Option InodeRef
  | .opened ev => some (user ⟨ev.dev, ev.inode⟩)
  | .setattr ev => some (user ⟨ev.dev, ev.inode⟩)
  | .release ev => some (user ⟨ev.dev, ev.inode⟩)
  | .unlink ev => some (user ⟨ev.dev, ev.inode⟩)
  | _ => none

/-- The event is an unlink of the file. -/
def LsmEvent.Unlinks (key : InodeRef) : LsmEvent → Prop
  | .unlink ev => user ⟨ev.dev, ev.inode⟩ = key
  | _ => False

/-- Handle events one after the other. -/
def handleAll (h : Host) (command : CommandId) (ws : WatchState) :
    List Handling → WatchState × List HelperResponse
  | [] => (ws, [])
  | e :: rest =>
    let handled := handleLsm e.io h e.fs command ws e.ev
    let later := handleAll h command handled.1 rest
    (later.1, handled.2 ++ later.2)

/-- The event is on a file with a snapshot, and staging and sending succeed. -/
structure Handling.OnSnapshot (ws : WatchState) (e : Handling) : Prop where
  file : ∃ key, e.ev.fileKey = some key ∧ ws.preSnapshots key ≠ none
  stages : ∀ bytes, e.io.stages bytes = true
  sends : ∀ msg, e.io.sends msg = true

/-- A pre-image of the inode that does not mark a deletion. -/
def HelperResponse.isCaptureOf (key : InodeRef) : HelperResponse → Bool
  | .capturedPreImage pre => !pre.isDelete && decide (pre.ref = key)
  | _ => false

section Dedupe

variable {h : Host} {command : CommandId} {ws₀ ws : WatchState} {sent : List HelperResponse}
  {e : Handling} {hs : List Handling} {key : InodeRef} {io : HelperIo} {ev : LsmOpenView}

theorem handleAll_append (before after : List Handling) :
    handleAll h command ws (before ++ after) =
      ((handleAll h command (handleAll h command ws before).1 after).1,
        (handleAll h command ws before).2 ++
          (handleAll h command (handleAll h command ws before).1 after).2) := by
  induction before generalizing ws with
  | nil => rfl
  | cons e rest ih =>
    rw [cons_append, handleAll, handleAll, ih]
    rw [append_assoc]

/-! ## One event -/

/-- What the handler of an event on a snapshot can do: send the snapshot or not, or, for an unlink,
open the inode up again and send a deletion. -/
inductive EventHandled (h : Host) (ws : WatchState) (key : InodeRef) (e : Handling) :
    WatchState × List HelperResponse → Prop
  | capture (result : WatchState × List HelperResponse) (hplain : ¬ e.ev.Unlinks key)
      (hsent : SentSnapshot e.io h ws key result) : EventHandled h ws key e result
  | lost (hunlinks : e.ev.Unlinks key) : EventHandled h ws key e (ws.mark key true, [])
  | unlink (pre : CapturedPreImage) (hunlinks : e.ev.Unlinks key) (hdelete : pre.isDelete = true) :
      EventHandled h ws key e ((ws.mark key true).drop key, e.io.deliver (.capturedPreImage pre))

theorem handled_of_fileKey (hkey : e.ev.fileKey = some key) (hsnap : ws.preSnapshots key ≠ none) :
    EventHandled h ws key e (handleLsm e.io h e.fs command ws e.ev) := by
  cases hev : e.ev with
  | opened ev =>
    rw [hev] at hkey
    cases hkey
    exact .capture _ (hev ▸ id) (handleLsmOpen_sent ev)
  | release ev =>
    rw [hev] at hkey
    cases hkey
    exact .capture _ (hev ▸ id) (handleLsmRelease_sent ev)
  | setattr ev =>
    rw [hev] at hkey
    cases hkey
    rcases handleLsmSetattr_cases ev with ⟨hnone, -⟩ | hsent
    · exact absurd hnone hsnap
    · exact .capture _ (hev ▸ id) hsent
  | unlink ev =>
    rw [hev] at hkey
    cases hkey
    have hunlinks : e.ev.Unlinks (user ⟨ev.dev, ev.inode⟩) := by
      rw [hev]
      rfl
    dsimp only [handleLsm]
    rcases handleLsmUnlink_cases ev with ⟨-, hlost⟩ | ⟨dir, pre, -, -, hdelete, -, hunlink⟩
    · rw [hlost]
      exact .lost hunlinks
    · rw [hunlink]
      exact .unlink pre hunlinks hdelete
  | _ =>
    rw [hev] at hkey
    cases hkey

/-! ## The bookkeeping -/

/-- Snapshots and paths stay what they were, descriptors are only dropped, every inode marked as
captured has been sent, and what was sent has the bytes of its snapshot. -/
structure Bookkept (h : Host) (ws₀ ws : WatchState) (sent : List HelperResponse) : Prop where
  snapshots : ws.preSnapshots = ws₀.preSnapshots
  index : ws.pathToInode = ws₀.pathToInode
  opens : ∀ k fd, ws.preOpens k = some fd → ws₀.preOpens k = some fd
  marked : ∀ k, ws.dedupe k = some false → ∃ msg ∈ sent, msg.isCaptureOf k = true
  bytes : ∀ pre, .capturedPreImage pre ∈ sent → pre.isDelete = false →
    ∃ snap, ws₀.preSnapshots pre.ref = some snap ∧ pre.staged = some snap.bytes ∧
      pre.blobHash = h.blake3 snap.bytes

theorem Bookkept.start (hfree : ∀ k, ws₀.dedupe k = none) : Bookkept h ws₀ ws₀ [] where
  snapshots := rfl
  index := rfl
  opens := fun _ _ hk => hk
  marked := by
    intro k hk
    rw [hfree] at hk
    cases hk
  bytes := fun _ hmem => absurd hmem not_mem_nil

theorem marked_of_opened_up {k : InodeRef}
    (hk : update ws.dedupe key (some true) k = some false) : ws.dedupe k = some false := by
  by_cases hkey : k = key
  · rw [hkey, update_self] at hk
    cases hk
  · rwa [update_of_ne hkey] at hk

theorem Bookkept.marked_append (hbook : Bookkept h ws₀ ws sent) (more : List HelperResponse)
    {k : InodeRef} (hk : ws.dedupe k = some false) :
    ∃ msg ∈ sent ++ more, msg.isCaptureOf k = true := by
  obtain ⟨msg, hmsg, hcapture⟩ := hbook.marked k hk
  exact ⟨msg, mem_append_left _ hmsg, hcapture⟩

/-- **One event keeps the bookkeeping.** -/
theorem Bookkept.step (command : CommandId) (hbook : Bookkept h ws₀ ws sent)
    (he : e.OnSnapshot ws₀) :
    Bookkept h ws₀ (handleLsm e.io h e.fs command ws e.ev).1
      (sent ++ (handleLsm e.io h e.fs command ws e.ev).2) := by
  obtain ⟨key, hkey, hsnap⟩ := he.file
  have hhandled : EventHandled h ws key e (handleLsm e.io h e.fs command ws e.ev) :=
    handled_of_fileKey hkey (hbook.snapshots ▸ hsnap)
  generalize handleLsm e.io h e.fs command ws e.ev = result at hhandled
  cases hhandled with
  | capture _ hplain hsent =>
    cases hsent with
    | nothing =>
      rw [append_nil]
      exact hbook
    | sent snap path pre hfree hsnap' hpath href hprepath hdelete hstaged hhash =>
      have hmsg : HelperResponse.capturedPreImage pre ∈ sent ++
          e.io.deliver (.capturedPreImage pre) :=
        mem_append_right _ (mem_deliver.mpr ⟨rfl, he.sends _⟩)
      refine ⟨hbook.snapshots, hbook.index, hbook.opens, ?_, ?_⟩
      · intro k hk
        by_cases hkk : k = key
        · exact ⟨_, hmsg, by simp [isCaptureOf, hdelete, href, hkk]⟩
        · rw [mark_dedupe, update_of_ne hkk] at hk
          exact hbook.marked_append _ hk
      · intro pre' hpre' hdelete'
        rcases mem_append.mp hpre' with hold | hnew
        · exact hbook.bytes pre' hold hdelete'
        · obtain ⟨hsame, -⟩ := mem_deliver.mp hnew
          cases hsame
          exact ⟨snap, by rw [href, ← hbook.snapshots, hsnap'], hstaged, hhash⟩
  | lost hunlinks =>
    refine ⟨hbook.snapshots, hbook.index, hbook.opens, ?_, ?_⟩
    · intro k hk
      exact hbook.marked_append _ (marked_of_opened_up hk)
    · rw [append_nil]
      exact hbook.bytes
  | unlink pre hunlinks hdelete =>
    refine ⟨hbook.snapshots, hbook.index, ?_, ?_, ?_⟩
    · intro k fd hk
      by_cases hkk : k = key
      · rw [drop_preOpens, hkk, update_self] at hk
        cases hk
      · rw [drop_preOpens, update_of_ne hkk] at hk
        exact hbook.opens k fd hk
    · intro k hk
      exact hbook.marked_append _ (marked_of_opened_up hk)
    · intro pre' hpre' hdelete'
      rcases mem_append.mp hpre' with hold | hnew
      · exact hbook.bytes pre' hold hdelete'
      · obtain ⟨hsame, -⟩ := mem_deliver.mp hnew
        cases hsame
        rw [hdelete] at hdelete'
        cases hdelete'

theorem Bookkept.run (command : CommandId) (hbook : Bookkept h ws₀ ws sent)
    (hhs : ∀ e ∈ hs, e.OnSnapshot ws₀) :
    Bookkept h ws₀ (handleAll h command ws hs).1 (sent ++ (handleAll h command ws hs).2) := by
  induction hs generalizing ws sent with
  | nil =>
    rw [handleAll, append_nil]
    exact hbook
  | cons e rest ih =>
    rw [handleAll]
    rw [← append_assoc]
    exact ih (hbook.step command (hhs e mem_cons_self))
      fun e' he' => hhs e' (mem_cons_of_mem e he')

/-! ## At most one -/

/-- The pre-images of an inode that are not deletions. -/
def captures (key : InodeRef) (sent : List HelperResponse) : Nat :=
  sent.countP (isCaptureOf key)

/-- How many more there can be before the next unlink. -/
def room (ws : WatchState) (key : InodeRef) : Nat := if ws.dedupe key = some false then 0 else 1

theorem room_le (ws : WatchState) (key : InodeRef) : room ws key ≤ 1 := by
  unfold room
  split_ifs
  · exact zero_le 1
  · exact le_refl 1

theorem room_of_free (hfree : shouldCaptureDedupe ws.dedupe key = true) : room ws key = 1 := by
  refine if_neg fun hmarked => ?_
  rw [shouldCaptureDedupe, hmarked] at hfree
  cases hfree

theorem room_mark_of_ne {key' : InodeRef} (hne : key ≠ key') (invalidated : Bool) :
    room (ws.mark key' invalidated) key = room ws key := by
  rw [room, room, mark_dedupe, update_of_ne hne]

theorem captures_deliver_le (key : InodeRef) (msg : HelperResponse) :
    captures key (io.deliver msg) ≤ 1 := by
  rw [captures, deliver]
  split_ifs
  · exact countP_le_length
  · exact zero_le 1

theorem captures_deliver_eq_zero {msg : HelperResponse} (hmsg : msg.isCaptureOf key = false) :
    captures key (io.deliver msg) = 0 := by
  rw [captures, countP_eq_zero]
  intro m hm
  rw [(mem_deliver.mp hm).1, hmsg]
  exact Bool.false_ne_true

/-- **An event that does not unlink the inode uses up the room there is.** -/
theorem captures_step (hsnaps : ws.preSnapshots = ws₀.preSnapshots) (he : e.OnSnapshot ws₀)
    (hplain : ¬ e.ev.Unlinks key) :
    captures key (handleLsm e.io h e.fs command ws e.ev).2 +
      room (handleLsm e.io h e.fs command ws e.ev).1 key ≤ room ws key := by
  obtain ⟨key', hkey, hsnap⟩ := he.file
  have hhandled : EventHandled h ws key' e (handleLsm e.io h e.fs command ws e.ev) :=
    handled_of_fileKey hkey (hsnaps ▸ hsnap)
  have hne : e.ev.Unlinks key' → key ≠ key' := by
    rintro hunlinks rfl
    exact hplain hunlinks
  generalize handleLsm e.io h e.fs command ws e.ev = result at hhandled
  cases hhandled with
  | capture _ hplain' hsent =>
    cases hsent with
    | nothing => exact le_of_eq (zero_add _)
    | sent snap path pre hfree hsnap' hpath href hprepath hdelete hstaged hhash =>
      by_cases hsame : key = key'
      · subst hsame
        have hused : room (ws.mark key false) key = 0 := by
          rw [room, mark_dedupe, update_self, if_pos rfl]
        rw [hused, room_of_free hfree]
        exact captures_deliver_le key _
      · have hother : isCaptureOf key (.capturedPreImage pre) = false := by
          simp [isCaptureOf, href, Ne.symm hsame]
        rw [captures_deliver_eq_zero hother, room_mark_of_ne hsame, zero_add]
  | lost hunlinks =>
    rw [room_mark_of_ne (hne hunlinks)]
    exact le_of_eq (zero_add _)
  | unlink pre hunlinks hdelete =>
    have hother : isCaptureOf key (.capturedPreImage pre) = false := by
      simp [isCaptureOf, hdelete]
    rw [captures_deliver_eq_zero hother, zero_add]
    exact le_of_eq (room_mark_of_ne (hne hunlinks) true)

theorem captures_le_one (hbook : Bookkept h ws₀ ws sent) (hhs : ∀ e ∈ hs, e.OnSnapshot ws₀)
    (hplain : ∀ e ∈ hs, ¬ e.ev.Unlinks key) :
    captures key (handleAll h command ws hs).2 ≤ room ws key := by
  induction hs generalizing ws sent with
  | nil => exact zero_le _
  | cons e rest ih =>
    have he := hhs e mem_cons_self
    have hstep : captures key (handleLsm e.io h e.fs command ws e.ev).2 +
        room (handleLsm e.io h e.fs command ws e.ev).1 key ≤ room ws key :=
      captures_step hbook.snapshots he (hplain e mem_cons_self)
    have hrest := ih (hbook.step command he) (fun e' he' => hhs e' (mem_cons_of_mem e he'))
      (fun e' he' => hplain e' (mem_cons_of_mem e he'))
    rw [handleAll, captures, countP_append]
    rw [captures] at hstep hrest
    omega

/-! ## At least one -/

theorem resolveInodeToPath_ne_none {p : PathBuf} (hget : KeyMap.get ws.pathToInode p = some key) :
    resolveInodeToPath io ws key ≠ none := by
  unfold resolveInodeToPath
  split
  · exact some_ne_none _
  · intro hnone
    exact KeyMap.keyOf_ne_none hget (map_eq_none_iff.mp hnone)

theorem handleLsmRelease_captures (command : CommandId) {fs : Fs} {snap : PreSnapshot} {fd : HeldFd}
    {current : Bytes} (hkey : user ⟨ev.dev, ev.inode⟩ = key)
    (hfree : shouldCaptureDedupe ws.dedupe key = true) (hsnap : ws.preSnapshots key = some snap)
    (hheld : ws.preOpens key = some fd) (hread : io.readPreImage fs fd = some current)
    (hdiffers : h.blake3 snap.bytes ≠ h.blake3 current) (hstages : ∀ bytes, io.stages bytes = true)
    (hsends : ∀ msg, io.sends msg = true) (hpath : resolveInodeToPath io ws key ≠ none) :
    ∃ msg ∈ (handleLsmRelease io h fs command ws ev).2, msg.isCaptureOf key = true := by
  obtain ⟨path, hpath⟩ := ne_none_iff_exists'.mp hpath
  have hsent : (handleLsmRelease io h fs command ws ev).2 = io.deliver
      (.capturedPreImage (snap.toPreImage h command key path (some (h.blake3 current)) false)) := by
    unfold handleLsmRelease sendSnapshot
    dsimp only
    rw [hkey, hfree, hsnap, hheld]
    dsimp only
    rw [hread]
    dsimp only
    rw [if_neg hdiffers, hstages, hpath]
    rfl
  rw [hsent]
  refine ⟨_, mem_deliver.mpr ⟨rfl, hsends _⟩, ?_⟩
  simp [isCaptureOf, PreSnapshot.toPreImage]

/-- What is held of a file can be read, and its hash is not that of the snapshot. -/
def HeldDiffers (h : Host) (ws : WatchState) (io : HelperIo) (fs : Fs) (key : InodeRef) : Prop :=
  ∃ fd snap, ws.preOpens key = some fd ∧ ws.preSnapshots key = some snap ∧
    io.reads fd.ino = true ∧ (fs.inode fd.ino).content.length ≤ maxPreImageBytes ∧
    h.blake3 snap.bytes ≠ h.blake3 (fs.inode fd.ino).content

theorem Bookkept.release {io₀ : HelperIo} {fs₀ fs : Fs} {root : PathBuf}
    (htaken : Taken io₀ fs₀ root ws₀) (hbook : Bookkept h ws₀ ws sent)
    (he : Handling.OnSnapshot ws₀ ⟨.release ev, fs, io⟩) (hkey : user ⟨ev.dev, ev.inode⟩ = key)
    (hdiffers : HeldDiffers h ws io fs key) :
    ∃ msg ∈ sent ++ (handleLsmRelease io h fs command ws ev).2, msg.isCaptureOf key = true := by
  obtain ⟨fd, snap, hheld, hsnap, hreads, hlen, hhash⟩ := hdiffers
  by_cases hmarked : ws.dedupe key = some false
  · exact hbook.marked_append _ hmarked
  have hfree : shouldCaptureDedupe ws.dedupe key = true := by
    unfold shouldCaptureDedupe
    split
    · rfl
    · rename_i invalidated hentry
      rw [hentry] at hmarked
      exact Bool.not_eq_false invalidated ▸ fun hfalse => hmarked (congrArg some hfalse)
  -- the descriptor is the one held since the watch began, and the path is in the index
  obtain ⟨i, rfl, -, hopen, p, hget⟩ := htaken.snapshots key snap (hbook.snapshots ▸ hsnap)
  have hfd := hbook.opens _ _ hheld
  rw [hopen] at hfd
  cases hfd
  rw [← hbook.index] at hget
  obtain ⟨msg, hmsg, hcapture⟩ := handleLsmRelease_captures command hkey hfree hsnap hheld
    (readPreImage_of_reads hreads hlen) hhash he.stages he.sends
    (resolveInodeToPath_ne_none hget)
  exact ⟨msg, mem_append_right _ hmsg, hcapture⟩

/-! ## The whole sequence -/

/-- Files are captured with the bytes of when the watch began, at most once between two unlinks,
and at least once when a release finds other content. -/
structure CapturedOnce (h : Host) (command : CommandId) (fs₀ : Fs) (ws₀ : WatchState)
    (hs : List Handling) : Prop where
  bytes : ∀ pre, .capturedPreImage pre ∈ (handleAll h command ws₀ hs).2 → pre.isDelete = false →
    ∃ i, i.user = pre.ref ∧ (fs₀.inode i).kind = .regular ∧
      pre.staged = some (fs₀.inode i).content ∧ pre.blobHash = h.blake3 (fs₀.inode i).content
  once : ∀ before between after key, hs = before ++ (between ++ after) →
    (∀ e ∈ between, ¬ e.ev.Unlinks key) →
    captures key (handleAll h command (handleAll h command ws₀ before).1 between).2 ≤ 1
  released : ∀ before after ev fs io key, hs = before ++ ⟨.release ev, fs, io⟩ :: after →
    user ⟨ev.dev, ev.inode⟩ = key →
    HeldDiffers h (handleAll h command ws₀ before).1 io fs key →
    1 ≤ captures key (handleAll h command ws₀ (before ++ [⟨.release ev, fs, io⟩])).2

/-- **Pre-images are the bytes the files had when the watch began**, for every sequence of events
on files with a snapshot. -/
theorem captured_once_with_watch_time_bytes (h : Host) (command : CommandId) (io₀ : HelperIo)
    (fs₀ : Fs) (root : PathBuf) (hs : List Handling) (hroot : fs₀.IsDir root)
    (hhs : ∀ e ∈ hs, e.OnSnapshot (preOpenTree io₀ fs₀ root).ws) :
    CapturedOnce h command fs₀ (preOpenTree io₀ fs₀ root).ws hs := by
  have htaken : Taken io₀ fs₀ root (preOpenTree io₀ fs₀ root).ws := preOpenTree_taken hroot
  have hstart : Bookkept h (preOpenTree io₀ fs₀ root).ws _ [] := .start htaken.dedupe
  refine ⟨?_, ?_, ?_⟩
  · intro pre hpre hdelete
    obtain ⟨snap, hsnap, hstaged, hhash⟩ := (hstart.run command hhs).bytes pre hpre hdelete
    obtain ⟨i, hkey, hof, -⟩ := htaken.snapshots _ snap hsnap
    have hbytes : snap.bytes = (fs₀.inode i).content := by
      have hread := hof.bytes
      unfold readPreImage at hread
      dsimp only at hread
      split_ifs at hread
      exact (some.inj hread).symm
    exact ⟨i, hkey, hof.regular, hbytes ▸ hstaged, hbytes ▸ hhash⟩
  · rintro before between after key rfl hplain
    have hbook := hstart.run command fun e he => hhs e (mem_append_left _ he)
    refine (captures_le_one hbook ?_ hplain).trans (room_le _ key)
    exact fun e he => hhs e (mem_append_right _ (mem_append_left _ he))
  · rintro before after ev fs io key rfl hkey hdiffers
    have hbook := hstart.run command fun e he => hhs e (mem_append_left _ he)
    have he := hhs ⟨.release ev, fs, io⟩ (mem_append_right _ mem_cons_self)
    rw [handleAll_append, captures, Nat.one_le_iff_ne_zero, Nat.ne_zero_iff_zero_lt, countP_pos_iff]
    rw [handleAll, handleAll]
    rw [append_nil]
    exact hbook.release htaken he hkey hdiffers

end Dedupe

/-! ## Content that is too large -/

/-- One file in a directory. -/
def oneInDir : Fs := .ofList [("/w", .dir), ("/w/a", .file [1])]

/-- What a watch on it begins with. -/
def oneInDirWatch : WatchState :=
  (preOpenTree (sample oneInDir) oneInDir (.ofString "/w")).ws

/-- The file with other content. -/
def oneRewritten (bytes : Bytes) : Fs :=
  oneInDir.modifyInode ⟨1, 3⟩ fun n => { n with content := bytes }

/-- An event on the file, when it has other content. -/
def onRewritten (ev : LsmEvent) (bytes : Bytes) : Handling :=
  ⟨ev, oneRewritten bytes, sample (oneRewritten bytes)⟩

theorem onRewritten_onSnapshot {ev : LsmEvent} (bytes : Bytes)
    (hev : ev.fileKey = some (user ⟨1, 3⟩)) :
    (onRewritten ev bytes).OnSnapshot oneInDirWatch where
  file := ⟨_, hev, by decide +kernel⟩
  stages := fun _ => rfl
  sends := fun _ => rfl

/-- A file that is opened, written and released twice, and removed in between. -/
theorem rewritten_file_captured_once :
    CapturedOnce .sample (.mk 0 0) oneInDir oneInDirWatch
      [onRewritten (.opened ⟨1, 3⟩) [1], onRewritten (.release ⟨1, 3⟩) [2],
        onRewritten (.unlink ⟨1, 3, 2, "a", false⟩) [2], onRewritten (.release ⟨1, 3⟩) [3]] := by
  refine captured_once_with_watch_time_bytes _ _ _ _ _ _ (by decide +kernel) ?_
  intro e he
  simp only [mem_cons, not_mem_nil, or_false] at he
  rcases he with rfl | rfl | rfl | rfl
  · exact onRewritten_onSnapshot _ rfl
  · exact onRewritten_onSnapshot _ rfl
  · exact onRewritten_onSnapshot _ rfl
  · exact onRewritten_onSnapshot _ rfl

/-- Content above the cap. -/
def hugeContent : Bytes := replicate (maxPreImageBytes + 1) 0

theorem length_hugeContent : hugeContent.length = maxPreImageBytes + 1 := length_replicate

theorem handleLsmRelease_of_unread {io : HelperIo} {h : Host} {fs : Fs} {command : CommandId}
    {ws : WatchState} {ev : LsmOpenView}
    (hunread : ∀ fd, ws.preOpens (user ⟨ev.dev, ev.inode⟩) = some fd →
      io.readPreImage fs fd = none) : handleLsmRelease io h fs command ws ev = (ws, []) := by
  unfold handleLsmRelease
  dsimp only
  split_ifs
  · rfl
  · split
    · rename_i snap fd _ hheld
      rw [hunread fd hheld]
    · rfl

/-- A release finds more content than the helper reads, and sends nothing. -/
theorem huge_release_not_captured :
    (onRewritten (.release ⟨1, 3⟩) hugeContent).OnSnapshot oneInDirWatch ∧
      oneInDirWatch.preOpens (user ⟨1, 3⟩) = some ⟨⟨1, 3⟩, false⟩ ∧
      (oneInDirWatch.preSnapshots (user ⟨1, 3⟩)).map PreSnapshot.bytes ≠
        some ((oneRewritten hugeContent).inode ⟨1, 3⟩).content ∧
      captures (user ⟨1, 3⟩) (handleAll .sample (.mk 0 0) oneInDirWatch
        [onRewritten (.release ⟨1, 3⟩) hugeContent]).2 = 0 := by
  have hheld : oneInDirWatch.preOpens (user ⟨1, 3⟩) = some ⟨⟨1, 3⟩, false⟩ := by
    decide +kernel
  have hsnap : (oneInDirWatch.preSnapshots (user ⟨1, 3⟩)).map PreSnapshot.bytes = some [1] := by
    decide +kernel
  have hcontent : ((oneRewritten hugeContent).inode ⟨1, 3⟩).content = hugeContent := by
    rw [oneRewritten, Fs.inode_modifyInode_self]
  refine ⟨onRewritten_onSnapshot _ rfl, hheld, ?_, ?_⟩
  · rw [hsnap, hcontent]
    intro heq
    have hlen := congrArg length (some.inj heq)
    rw [length_hugeContent] at hlen
    cases hlen
  · have hunread : ∀ fd, oneInDirWatch.preOpens (user ⟨1, 3⟩) = some fd →
        (sample (oneRewritten hugeContent)).readPreImage (oneRewritten hugeContent) fd =
          none := by
      intro fd hfd
      rw [hheld] at hfd
      cases hfd
      simp only [readPreImage, hcontent, length_hugeContent, lt_succ_self,
        decide_true, Bool.or_true, if_true]
    rw [handleAll, handleAll]
    dsimp only [onRewritten, handleLsm]
    rw [handleLsmRelease_of_unread hunread]
    rfl

end ShitUndo
