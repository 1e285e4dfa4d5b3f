import ShitUndo.Lib.UndoLog
import ShitUndo.Effects

/-!
# Commands and their journals

What a command does to the tree, step by step, and what a faithful capture of it records. The
round-trip theorems are about `FaithfulJournal`: the complete, ordered journal of a run of such
steps, nothing else touching the tree before undo.

* `Does`: one step of the command with the events it leaves, each pre-image with the current
  bytes, metadata and a stored blob, each removal with kind and mode.
-/

namespace ShitUndo

open List Fs PathTree

open UndoLog (Runs Undone)

/-! ## What is recorded -/

/-- The metadata an event carries is that of the inode. -/
structure Inode.CapturedAs (n : Inode) (m : FileMetadata) : Prop where
  mode : m.mode &&& 0o7777 = n.perm
  uid : m.uid = n.uid
  gid : m.gid = n.gid
  size : m.size = n.content.length
  mtime : m.mtimeUnixNanos = n.mtime

/-- `ev` is a content pre-image of the regular file `i` at `p`, as it is in `fs`, and its blob can
be read back. -/
structure PreImageOf (h : Host) (fs : Fs) (i : InodeRef) (p : PathBuf) (post : Option BlobHash)
    (ev : CaptureEvent) : Prop where
  lookup : fs.lookup p = some i
  regular : (fs.inode i).kind = .regular
  recorded : ∃ fileMeta source,
    ev.kind = .filePreImage i p (h.blake3 (fs.inode i).content) fileMeta post source ∧
      source ≠ .shimFlagsPreMutation ∧ (fs.inode i).CapturedAs fileMeta
  stored : h.readBlob (h.blake3 (fs.inode i).content) = .ok (fs.inode i).content

/-- `ev` records that `p` stopped being a name of `i`, with kind and mode. -/
structure UnlinkOf (fs : Fs) (i : InodeRef) (p : PathBuf) (ev : CaptureEvent) : Prop where
  lookup : fs.lookup p = some i
  recorded : ∃ mode, ev.kind = .treeOp (.unlink i p (fs.inode i).kind mode) ∧
    mode &&& 0o7777 = (fs.inode i).perm

/-! ## Steps of a command -/

/-- Write `bytes` to the file `i` in place. -/
def Fs.overwrite (fs : Fs) (i : InodeRef) (bytes : Bytes) (mtime : Int) : Fs :=
  fs.modifyInode i fun n => { n with content := bytes, mtime := mtime }

/-- The kinds of steps. -/
inductive Act where
  | create
  | write
  | hashedWrite
  | removeFile
  | removeUncaptured
  | removeDir
  | rename
  | replace
deriving DecidableEq, Repr

/-- One step of a command: the state before, the events it leaves, the state after. -/
inductive Does (h : Host) : Act → Fs → List CaptureEvent → Fs → Prop
  /-- A new name with a new inode. -/
  | create {fs : Fs} {i : InodeRef} {p : PathBuf} {n : Inode} {mode : Nat} {ev : CaptureEvent}
      (habs : AbsolutePath p) (hfree : fs.kindAt p = none) (hparent : fs.IsDir p.dropLast)
      (hnew : ∀ q, fs.lookup q ≠ some i) (hev : ev.kind = .treeOp (.create i p n.kind mode)) :
      Does h .create fs [ev] ((fs.link p i).setInode i n)
  /-- A write in place; the pre-image does not say what was written. -/
  | write {fs : Fs} {i : InodeRef} {p : PathBuf} {bytes : Bytes} {mtime : Int} {ev : CaptureEvent}
      (hpre : PreImageOf h fs i p none ev) :
      Does h .write fs [ev] (fs.overwrite i bytes mtime)
  /-- A write in place; the pre-image has the hash of the new content. -/
  | hashedWrite {fs : Fs} {i : InodeRef} {p : PathBuf} {bytes : Bytes} {mtime : Int}
      {ev : CaptureEvent} (hpre : PreImageOf h fs i p (some (h.blake3 bytes)) ev) :
      Does h .hashedWrite fs [ev] (fs.overwrite i bytes mtime)
  /-- A file deletion, the content captured first. -/
  | removeFile {fs : Fs} {i : InodeRef} {p : PathBuf} {ev₁ ev₂ : CaptureEvent}
      (hpre : PreImageOf h fs i p none ev₁) (hunlink : UnlinkOf fs i p ev₂) :
      Does h .removeFile fs [ev₁, ev₂] { fs with entries := fs.entries.erase p }
  /-- A file deletion whose content was not captured. -/
  | removeUncaptured {fs : Fs} {i : InodeRef} {p : PathBuf} {ev : CaptureEvent}
      (hreg : (fs.inode i).kind = .regular) (hunlink : UnlinkOf fs i p ev) :
      Does h .removeUncaptured fs [ev] { fs with entries := fs.entries.erase p }
  /-- The deletion of an empty directory. -/
  | removeDir {fs : Fs} {i : InodeRef} {p : PathBuf} {ev : CaptureEvent}
      (hdir : (fs.inode i).kind = .directory) (hroot : p ≠ [.rootDir])
      (hempty : ∀ q, p <+: q → q ≠ p → fs.kindAt q = none) (hunlink : UnlinkOf fs i p ev) :
      Does h .removeDir fs [ev] { fs with entries := fs.entries.erase p }
  /-- A rename of a file or directory onto a free name. -/
  | rename {fs : Fs} {i : InodeRef} {src dst : PathBuf} {ev : CaptureEvent}
      (habs : AbsolutePath dst) (hi : fs.lookup src = some i) (hfree : fs.kindAt dst = none)
      (hparent : fs.IsDir dst.dropLast) (hout : ¬ src <+: dst)
      (hev : ev.kind = .treeOp (.rename src dst i)) :
      Does h .rename fs [ev] { fs with entries := fs.entries.move src dst }
  /-- A rename of a file over another file, whose content is captured first; the loss of the old
  name may be recorded too. -/
  | replace {fs : Fs} {i j : InodeRef} {src dst : PathBuf} {ev₁ ev₂ : CaptureEvent}
      {lost : List CaptureEvent} (hi : fs.lookup src = some i)
      (hreg : (fs.inode i).kind = .regular) (hij : i ≠ j)
      (hpre : PreImageOf h fs j dst none ev₁)
      (hlost : lost = [] ∨ ∃ ev, lost = [ev] ∧ UnlinkOf fs j dst ev)
      (hev : ev₂.kind = .treeOp (.rename src dst i)) :
      Does h .replace fs (ev₁ :: lost ++ [ev₂]) { fs with entries := fs.entries.move src dst }

/-- A step of one of the allowed kinds. -/
def CommandStep (h : Host) (allowed : Act → Prop) (s : Fs) (entries : List CaptureEvent) (s' : Fs) :
    Prop := ∃ act, allowed act ∧ Does h act s entries s'

/-- The journal of a command that took steps of the allowed kinds from `fs` to `fs'`: every event
complete, in order. -/
structure FaithfulJournal (h : Host) (allowed : Act → Prop) (fs : Fs) (events : List CaptureEvent)
    (fs' : Fs) : Prop where
  steps : Runs (CommandStep h allowed) fs events fs'
  complete : ∀ ev ∈ events, ev.isPartial = false
  ordered : events.Pairwise CaptureEvent.keyLt

/-! ## What the events of a step say -/

variable {h : Host} {i : InodeRef} {p : PathBuf}

section Steps

variable {fs fs' : Fs} {act : Act} {entries : List CaptureEvent} {ev : CaptureEvent}
  {kind : FileKind}

/-- Every event is a pre-image, the loss of a name, a creation or a rename. -/
inductive EventOf (h : Host) (act : Act) (fs : Fs) (ev : CaptureEvent) : Prop
  | preImage {i : InodeRef} {p : PathBuf} {post : Option BlobHash}
      (hpre : PreImageOf h fs i p post ev)
  | unlink {i : InodeRef} {p : PathBuf} (hunlink : UnlinkOf fs i p ev)
  | create {i : InodeRef} {p : PathBuf} {kind : FileKind} {mode : Nat} (hact : act = .create)
      (hkind : ev.kind = .treeOp (.create i p kind mode))
  | rename {i : InodeRef} {src dst : PathBuf} (hact : act = .rename ∨ act = .replace)
      (hkind : ev.kind = .treeOp (.rename src dst i))

theorem Does.eventOf (hdoes : Does h act fs entries fs') (hev : ev ∈ entries) :
    EventOf h act fs ev := by
  cases hdoes with
  | create habs hfree hparent hnew hkind =>
    rw [mem_singleton] at hev
    exact .create rfl (hev ▸ hkind)
  | write hpre | hashedWrite hpre => exact .preImage (mem_singleton.mp hev ▸ hpre)
  | removeFile hpre hunlink =>
    rcases mem_pair.mp hev with rfl | rfl
    · exact .preImage hpre
    · exact .unlink hunlink
  | removeUncaptured hreg hunlink | removeDir hdir hroot hempty hunlink =>
    exact .unlink (mem_singleton.mp hev ▸ hunlink)
  | rename habs hi hfree hparent hout hkind =>
    rw [mem_singleton] at hev
    exact .rename (.inl rfl) (hev ▸ hkind)
  | replace hi hreg hij hpre hlost hkind =>
    rcases mem_append.mp hev with hev | hev
    · rcases mem_cons.mp hev with rfl | hev
      · exact .preImage hpre
      · rcases hlost with rfl | ⟨lost, rfl, hunlink⟩
        · cases hev
        · exact .unlink (mem_singleton.mp hev ▸ hunlink)
    · rw [mem_singleton] at hev
      exact .rename (.inr rfl) (hev ▸ hkind)

theorem Does.unlinkOf {mode : Nat} (hdoes : Does h act fs entries fs') (hev : ev ∈ entries)
    (hkind : ev.kind = .treeOp (.unlink i p kind mode)) : UnlinkOf fs i p ev := by
  cases hdoes.eventOf hev with
  | preImage hpre =>
    obtain ⟨_, _, hkind', -⟩ := hpre.recorded
    rw [hkind] at hkind'
    cases hkind'
  | unlink hunlink =>
    obtain ⟨_, hkind', -⟩ := hunlink.recorded
    rw [hkind] at hkind'
    cases hkind'
    exact hunlink
  | create _ hkind' | rename _ hkind' => rw [hkind] at hkind'; cases hkind'

theorem Does.act_eq_create {mode : Nat} (hdoes : Does h act fs entries fs') (hev : ev ∈ entries)
    (hkind : ev.kind = .treeOp (.create i p kind mode)) : act = .create := by
  cases hdoes.eventOf hev with
  | preImage hpre =>
    obtain ⟨_, _, hkind', -⟩ := hpre.recorded
    rw [hkind] at hkind'
    cases hkind'
  | unlink hunlink =>
    obtain ⟨_, hkind', -⟩ := hunlink.recorded
    rw [hkind] at hkind'
    cases hkind'
  | create hact _ => exact hact
  | rename _ hkind' => rw [hkind] at hkind'; cases hkind'

/-! ## Steps keep the tree well formed -/

theorem Fs.kindAt_overwrite {bytes : Bytes} {mtime : Int} :
    (fs.overwrite i bytes mtime).kindAt = fs.kindAt :=
  kindAt_modifyInode fun _ => rfl

variable (hwf : fs.WellFormed)

include hwf

theorem Fs.WellFormed.of_regular (hi : fs.lookup p = some i) (hreg : (fs.inode i).kind = .regular) :
    AbsolutePath p ∧ p ≠ [.rootDir] ∧ fs.IsDir p.dropLast ∧
      ∀ q, p <+: q → q ≠ p → fs.kindAt q = none := by
  have hkind : fs.kindAt p = some .regular := by rw [kindAt_of_lookup hi, hreg]
  have hsome := kindAt_ne_none hi
  have habs := hwf.absolute p hsome
  have hroot : p ≠ [.rootDir] := by
    rintro rfl
    rw [hwf.root] at hkind
    cases hkind
  exact ⟨habs, hroot, hwf.isDir_dropLast hsome hroot, fun q hpq hne =>
    hwf.rooted.none_below_leaf habs.ne_nil hkind (by decide) hpq hne⟩

theorem Fs.WellFormed.incomparable {j : InodeRef} {q : PathBuf} (hi : fs.lookup p = some i)
    (hireg : (fs.inode i).kind = .regular) (hj : fs.lookup q = some j)
    (hjreg : (fs.inode j).kind = .regular) (hij : i ≠ j) :
    ¬ p <+: q ∧ ¬ q <+: p := by
  have hne : p ≠ q := by
    rintro rfl
    rw [hi] at hj
    exact hij (Option.some.inj hj)
  constructor
  · exact fun hpq => kindAt_ne_none hj ((hwf.of_regular hi hireg).2.2.2 q hpq hne.symm)
  · exact fun hqp => kindAt_ne_none hi ((hwf.of_regular hj hjreg).2.2.2 p hqp hne)

theorem Does.wellFormed (hdoes : Does h act fs entries fs') : fs'.WellFormed := by
  cases hdoes with
  | create habs hfree hparent hnew hev =>
    refine hwf.put (kindAt_of_node_update (node_setInode_link hnew _ _)) habs hparent ?_
    intro hdir
    rw [Fs.IsDir, hfree] at hdir
    cases hdir
  | write hpre | hashedWrite hpre => exact hwf.of_kindAt_eq kindAt_overwrite
  | removeFile hpre hunlink =>
    obtain ⟨-, hroot, -, hbelow⟩ := hwf.of_regular hpre.lookup hpre.regular
    exact hwf.erase (kindAt_erase _ _) hroot hbelow
  | removeUncaptured hreg hunlink =>
    obtain ⟨-, hroot, -, hbelow⟩ := hwf.of_regular hunlink.lookup hreg
    exact hwf.erase (kindAt_erase _ _) hroot hbelow
  | removeDir hdir hroot hempty hunlink => exact hwf.erase (kindAt_erase _ _) hroot hempty
  | rename habs hi hfree hparent hout hev =>
    have hsrc := kindAt_ne_none hi
    have hnot := hwf.not_isPrefix_of_free habs hfree hsrc
    exact hwf.move (kindAt_move hout hnot fs) hsrc habs hparent hout
  | replace hi hreg hij hpre hlost hev =>
    obtain ⟨habs, -, hparent, -⟩ := hwf.of_regular hpre.lookup hpre.regular
    obtain ⟨hout, hnot⟩ := hwf.incomparable hi hreg hpre.lookup hpre.regular hij
    exact hwf.move (kindAt_move hout hnot fs) (kindAt_ne_none hi) habs hparent hout

theorem Fs.WellFormed.ready_to_move_back {src dst : PathBuf} (habs : AbsolutePath dst)
    (hi : fs.lookup src = some i) (hout : ¬ src <+: dst) (hnot : ¬ dst <+: src)
    (hkinds : fs'.kindAt = PathTree.move src dst fs.kindAt) :
    AbsolutePath src ∧ src ≠ [.rootDir] ∧ fs'.kindAt dst = fs.kindAt src ∧
      fs'.kindAt src = none ∧ fs'.IsDir src.dropLast := by
  have hsrc := kindAt_ne_none hi
  have hsrcAbs := hwf.absolute src hsrc
  have hroot : src ≠ [.rootDir] := by
    rintro rfl
    obtain ⟨names, rfl⟩ := habs
    exact hout ⟨names.map .normal, rfl⟩
  have hsrcParent := hwf.isDir_dropLast hsrc hroot
  refine ⟨hsrcAbs, hroot, ?_, ?_, ?_⟩
  · rw [hkinds]
    simpa using move_append src dst [] fs.kindAt
  · rw [hkinds, move_src _ hnot (prefix_refl src)]
  · -- the parent is outside the moved subtree, and not below the destination
    have hup : src.dropLast <+: src := dropLast_prefix src
    have hd : ¬ dst <+: src.dropLast := fun hle => hnot (hle.trans hup)
    have hs : ¬ src <+: src.dropLast := by
      intro hle
      have hlen := hle.length_le
      have hpos : 0 < src.length := length_pos_of_ne_nil hsrcAbs.ne_nil
      rw [length_dropLast] at hlen
      omega
    rw [Fs.IsDir, hkinds, move_of_outside _ hd hs]
    exact hsrcParent

end Steps

/-! ## Inverses of single events -/

section Inverses

variable {ok : OutcomeKind → Prop} {c : Option Conflict} {s u : Fs} (hp : h.Permissive)
  (hok : ok .applied) (hc : c.any Conflict.isHard = false) (hwf : s.WellFormed)

include hp hok hwf

theorem through_moveBack {src dst : PathBuf} (habs : AbsolutePath dst) (hi : s.lookup src = some i)
    (hout : ¬ src <+: dst) (hnot : ¬ dst <+: src) (hkinds : u.kindAt = move src dst s.kindAt) :
    RunsThrough (fileRuntime h) ok [.fresh (.rename dst src) none] u
      { u with entries := u.entries.move dst src } := by
  obtain ⟨hsrcAbs, hroot, hdst, hsrc, hsrcParent⟩ :=
    hwf.ready_to_move_back habs hi hout hnot hkinds
  obtain ⟨n, hn, -⟩ := kindAt_eq_some_iff.mp (hdst.trans (kindAt_of_lookup hi))
  exact through_rename hp hok rfl hsrcAbs hroot hn (kindAt_eq_none_iff.mp hsrc) hsrcParent hnot

variable (hagree : ∀ q, q ≠ p → u.visible q = s.visible q)

include hc hagree

/-- The inverses of a pre-image bring back the file it was taken of, if everything else is there. -/
theorem through_preImage {post : Option BlobHash} {ev : CaptureEvent} {fileMeta : FileMetadata}
    (hpre : PreImageOf h s i p post ev) (hmeta : (s.inode i).CapturedAs fileMeta)
    (hfile : ¬ u.IsDir p) :
    ∃ u', RunsThrough (fileRuntime h) ok
        [.fresh (.restoreContent i p (h.blake3 (s.inode i).content)) c,
          .fresh (.restoreMetadata i p fileMeta) c] u u' ∧ u'.visible = s.visible := by
  obtain ⟨habs, hroot, hparent, -⟩ := hwf.of_regular hpre.lookup hpre.regular
  have hne : p.dropLast ≠ p := habs.dropLast_ne
  have hparent' : u.IsDir p.dropLast := (kindAt_eq_of_visible_eq (hagree _ hne)).trans hparent
  have hfile' : ∀ n, u.node p = some n → n.kind ≠ .directory := fun n hn hdir =>
    hfile ((kindAt_of_node hn).trans (congrArg some hdir))
  obtain ⟨u', n, hrun, hnode, hkind, hcontent, hperm⟩ :=
    through_restore hp hok hc i fileMeta habs hroot hparent' hfile' hpre.stored
  have hn : n.visible = (s.inode i).visible := by
    simp only [Inode.visible, hkind, hcontent, hperm, hmeta.mode, hpre.regular]
  exact ⟨u', hrun, visible_eq_of_update hnode (hn ▸ visible_of_lookup hpre.lookup) hagree⟩

theorem through_unlinkDir {mode : Nat} (hi : s.lookup p = some i)
    (hdir : (s.inode i).kind = .directory) (hroot : p ≠ [.rootDir])
    (hmode : mode &&& 0o7777 = (s.inode i).perm) (hfree : u.kindAt p = none) :
    ∃ u', RunsThrough (fileRuntime h) ok [.fresh (.recreatePath p .directory mode) c] u u' ∧
      u'.visible = s.visible := by
  have hsome := kindAt_ne_none hi
  have habs := hwf.absolute p hsome
  have hparent' : u.IsDir p.dropLast :=
    (kindAt_eq_of_visible_eq (hagree _ habs.dropLast_ne)).trans (hwf.isDir_dropLast hsome hroot)
  obtain ⟨u', n, hrun, hnode, hkind, hperm⟩ :=
    through_recreate hp hok hc (.inr rfl) mode habs hroot hparent' (kindAt_eq_none_iff.mp hfree)
  have hn : n.visible = (s.inode i).visible := by
    simp only [Inode.visible, hkind, hperm, hmode, hdir, reduceCtorEq, if_false]
  exact ⟨u', hrun, visible_eq_of_update hnode (hn ▸ visible_of_lookup hi) hagree⟩

end Inverses

/-! ## Reverse replay -/

theorem flatMap_reverse_pair {α β : Type} (a b : α) (f : α → List β) :
    [a, b].reverse.flatMap f = f b ++ f a := by
  simp

/-- Plan the undo of a command in the state `fs` and run the plan there under `Abort`. -/
def undo (h : Host) (r : Renderers) (order : HashOrder) (command : CommandRecord)
    (events : List CaptureEvent) (store : PlannerStore) (fs : Fs) : ExecutionReport × Fs :=
  run (fileRuntime h) none (plan r order command events (fs.probe h) store) false .abort fs

theorem undo_of_refused {h : Host} {r : Renderers} {order : HashOrder} {command : CommandRecord}
    {events : List CaptureEvent} {store : PlannerStore} {fs : Fs} (href : command.refusal ≠ none) :
    (undo h r order command events store fs).2 = fs := by
  obtain ⟨entry, hentry⟩ := Option.ne_none_iff_exists'.mp href
  obtain ⟨kind, detail, hsettled⟩ : ∃ kind detail, disposition none .abort (fs.probe h)
      (.fresh (.refuse entry.cls entry.reason entry.remediation) none) = .settled kind detail := by
    cases entry.remediation with
    | none | some rem => exact ⟨_, _, rfl⟩
  simp only [undo, run, plan_nodes_of_refused hentry, runFrom, executeOne_of_settled hsettled]
  split <;> rfl

section Journal

variable {allowed : Act → Prop} {fs fs' : Fs} {events : List CaptureEvent} {r : Renderers}
  {order : HashOrder} {command : CommandRecord} {store : PlannerStore} {probe : StateProbe}

variable (hj : FaithfulJournal h allowed fs events fs')

include hj

theorem FaithfulJournal.liveEvents_eq :
    liveEvents events = events.reverse :=
  liveEvents_eq_reverse hj.complete hj.ordered

theorem FaithfulJournal.mem_liveEvents
    {ev : CaptureEvent} : ev ∈ liveEvents events ↔ ev ∈ events := by
  rw [hj.liveEvents_eq, mem_reverse]

theorem FaithfulJournal.planNodes_eq :
    planNodes r order events probe store = events.reverse.flatMap fun ev =>
      (emitUnlessSkipped r probe store (classify order events probe) ev).nodes := by
  rw [planNodes, hj.liveEvents_eq]

theorem FaithfulJournal.keeping (inv : Fs → Prop) (hinv : inv fs)
    (hkeep : ∀ act s entries s', allowed act → inv s → Does h act s entries s' → inv s') :
    Runs (fun s entries s' => inv s ∧ inv s' ∧ (∀ ev ∈ entries, ev ∈ events) ∧
      CommandStep h allowed s entries s') fs events fs' :=
  (hj.steps.within fun _ hev => hev).strengthen inv hinv
    fun s entries s' hs ⟨_, act, hact, hdoes⟩ => hkeep act s entries s' hact hs hdoes

/-- **Reverse replay of a journal.** If the inverses of the events of each step undo that step,
then running the plan of the whole journal undoes the command, also from another tree that is as
the command has left it. The steps may know more than that they are steps of the command. -/
theorem FaithfulJournal.undone
    {step : Fs → List CaptureEvent → Fs → Prop} (hsteps : Runs step fs events fs')
    (ok : OutcomeKind → Prop) (R : Fs → Fs → Prop) (href : command.refusal = none) {u : Fs}
    (hstart : R u fs') (hstep : ∀ s entries s', step s entries s' →
      Undone (RunsThrough (fileRuntime h) ok) R (entries.reverse.flatMap fun ev =>
        (emitUnlessSkipped r (u.probe h) store (classify order events (u.probe h)) ev).nodes)
        s s') :
    (∀ rec ∈ (undo h r order command events store u).1.records, ok rec.outcomeKind) ∧
      R (undo h r order command events store u).2 fs := by
  have hundone := hsteps.undone RunsThrough.nil (fun _ _ _ _ _ ha hb => ha.append hb) hstep
  obtain ⟨final, hrun, hfinal⟩ := hundone u hstart
  obtain ⟨hend, hrecs⟩ := hrun.runFrom_eq 0
  simp only [undo, run, plan_nodes_of_not_refused href, runFrom_assignCohorts, hj.planNodes_eq]
  exact ⟨hrecs, hend ▸ hfinal⟩

end Journal

end ShitUndo
