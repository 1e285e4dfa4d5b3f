import ShitUndo.Commands

/-!
# Round trips

Commands whose undo is exact, as long as the command is not on the refuse list.

In both the classification of paths is inert or harmless, and every event's inverse undoes the
step that left it (`FaithfulJournal.undone`).
-/

namespace ShitUndo

open List Function Fs PathBuf OutcomeKind

open UndoLog (Runs Undone)

variable {h : Host} {fs fs' s s' : Fs} {events : List CaptureEvent} {r : Renderers}
  {order : HashOrder} {command : CommandRecord} {store : PlannerStore} {probe : StateProbe}

/-! ## Renames -/

/-- The same names, and the same inodes behind them. -/
def Fs.SameTree (u fs : Fs) : Prop := u.lookup = fs.lookup ∧ u.inode = fs.inode

theorem Fs.SameTree.kindAt_eq {u : Fs} (hsame : u.SameTree fs) : u.kindAt = fs.kindAt := by
  funext p
  simp only [kindAt, node, hsame.1, hsame.2]

/-- The node undoes the rename the event records, and has no conflict. -/
def UndoesRename (ev : CaptureEvent) (node : PlanNode) : Prop :=
  ∃ src dst i, ev.kind = .treeOp (.rename src dst i) ∧
    (node.op, node.conflict) = (.rename dst src, none)

theorem atomicReplacePaths_of_no_preImages (hnone : ∀ p, p ∉ preImages events) (p : PathBuf) :
    p ∉ atomicReplacePaths events probe :=
  fun hp => hnone p (mem_atomicReplacePaths.mp hp).1

theorem undone_rename {ok : OutcomeKind → Prop} (hok : ok .applied) (hp : h.Permissive)
    (hwf : s.WellFormed) {src dst : PathBuf} {i : InodeRef} (habs : AbsolutePath dst)
    (hi : s.lookup src = some i) (hfree : s.kindAt dst = none) (hout : ¬ src <+: dst) :
    Undone (RunsThrough (fileRuntime h) ok) Fs.SameTree
      [.fresh (.rename dst src) none] s { s with entries := s.entries.move src dst } := by
  intro u hu
  have hnot := hwf.not_isPrefix_of_free habs hfree (kindAt_ne_none hi)
  have hkinds : u.kindAt = PathTree.move src dst s.kindAt := by
    rw [hu.kindAt_eq, kindAt_move hout hnot]
  refine ⟨_, through_moveBack hp hok hwf habs hi hout hnot hkinds, ?_, hu.2⟩
  have hempty : ∀ q, dst <+: q → s.lookup q = none := fun q hq =>
    lookup_eq_none_of_kindAt (hwf.none_below habs hfree hq)
  rw [lookup_move hnot hout, hu.1, lookup_move hout hnot, PathTree.move_move hempty]

theorem forall₂_flatMap_of_singleton {α β : Type} {R : α → β → Prop} {f : α → List β}
    {l : List α} (hf : ∀ a ∈ l, ∃ b, f a = [b] ∧ R a b) : List.Forall₂ R l (l.flatMap f) := by
  induction l with
  | nil => exact .nil
  | cons a rest ih =>
    obtain ⟨b, hb, hab⟩ := hf a mem_cons_self
    rw [flatMap_cons, hb]
    exact .cons hab (ih fun a' ha' => hf a' (mem_cons_of_mem _ ha'))

theorem forall₂_assignCohorts {nodes : List PlanNode}
    (hnodes : List.Forall₂ UndoesRename events nodes) :
    List.Forall₂ UndoesRename events (assignCohorts nodes) := by
  have hmap := assignCohorts_map_of_ignores (f := fun n => (n.op, n.conflict))
    (fun _ _ => rfl) nodes
  have hpairs : List.Forall₂ (fun (ev : CaptureEvent) (oc : InverseOp × Option Conflict) =>
      ∃ src dst i, ev.kind = .treeOp (.rename src dst i) ∧ oc = (.rename dst src, none)) events
      (nodes.map fun n => (n.op, n.conflict)) := forall₂_map_right_iff.mpr hnodes
  rw [← hmap] at hpairs
  have hback := forall₂_map_right_iff.mp hpairs
  exact hback

theorem rename_events (hj : FaithfulJournal h (· = .rename) fs events fs') :
    ∀ ev ∈ events, ∃ src dst i, ev.kind = .treeOp (.rename src dst i) := by
  refine hj.steps.forall_of_step (fun _ => True) trivial (fun _ _ _ _ _ => trivial) ?_
  rintro s entries s' - ⟨act, rfl, hdoes⟩ ev hev
  cases hdoes with
  | rename habs hi hfree hparent hout hkind =>
    rw [mem_singleton] at hev
    exact ⟨_, _, _, hev ▸ hkind⟩

theorem no_preImages_of_renames
    (hren : ∀ ev ∈ events, ∃ src dst i, ev.kind = .treeOp (.rename src dst i)) (p : PathBuf) :
    p ∉ preImages (liveEvents events) := by
  intro hp
  obtain ⟨ev, hev, _, _, _, _, _, hkind, -⟩ := mem_preImages.mp hp
  obtain ⟨_, _, _, hkind'⟩ := hren ev (mem_liveEvents.mp hev).1
  rw [hkind] at hkind'
  cases hkind'

/-- **Rename-only round trip.** The plan is the reversed renames in reverse order, none with a
conflict; every one is applied, and the tree is exactly what it was. -/
theorem rename_round_trip (hp : h.Permissive) (hwf : fs.WellFormed)
    (hj : FaithfulJournal h (· = .rename) fs events fs') (href : command.refusal = none) :
    List.Forall₂ UndoesRename events.reverse
        (plan r order command events (fs'.probe h) store).nodes ∧
      (∀ rec ∈ (undo h r order command events store fs').1.records, rec.outcomeKind = .applied) ∧
      (undo h r order command events store fs').2.SameTree fs := by
  have hren := rename_events hj
  have hinert : ∀ p, p ∉ (classify order events (fs'.probe h)).atomicReplacePaths := fun p =>
    atomicReplacePaths_of_no_preImages (no_preImages_of_renames hren) p
  have hemit : ∀ ev ∈ events, ∃ node, (emitUnlessSkipped r (fs'.probe h) store
      (classify order events (fs'.probe h)) ev).nodes = [node] ∧ UndoesRename ev node := by
    intro ev hev
    obtain ⟨src, dst, i, hkind⟩ := hren ev hev
    exact ⟨_, emit_rename hkind (hinert dst), src, dst, i, hkind, rfl⟩
  constructor
  · have hnodes : List.Forall₂ UndoesRename events.reverse
        (planNodes r order events (fs'.probe h) store) := by
      rw [hj.planNodes_eq]
      exact forall₂_flatMap_of_singleton fun ev hev => hemit ev (mem_reverse.mp hev)
    rw [plan_nodes_of_not_refused href]
    exact forall₂_assignCohorts hnodes
  · have hsteps := hj.keeping Fs.WellFormed hwf fun _ _ _ _ _ hs hdoes => hdoes.wellFormed hs
    refine hj.undone hsteps OutcomeKind.IsApplied Fs.SameTree href ⟨rfl, rfl⟩ ?_
    rintro s entries s' ⟨hs, -, -, act, rfl, hdoes⟩
    cases hdoes with
    | rename habs hi hfree hparent hout hkind =>
      rw [reverse_singleton, flatMap_singleton, emit_rename hkind (hinert _)]
      exact undone_rename isApplied hp hs habs hi hfree hout

section MovedDirectory

/-- A directory with one file. -/
def projectTree : Fs := ofList [("/d", .dir), ("/d/f", .file [1])]

/-- `mv /d /e; mv /e/f /g`: the second name only exists because of the first rename. -/
def projectMoves : List CaptureEvent :=
  journalOf [.treeOp (.rename (ofString "/d") (ofString "/e") ⟨1, 2⟩),
    .treeOp (.rename (ofString "/e/f") (ofString "/g") ⟨1, 3⟩)]

/-- The tree after the first rename. -/
def projectRenamed : Fs :=
  { projectTree with
    entries := projectTree.entries.move (ofString "/d") (ofString "/e") }

/-- The tree after both renames. -/
def projectMoved : Fs :=
  { projectRenamed with
    entries := projectRenamed.entries.move (ofString "/e/f") (ofString "/g") }

theorem projectTree_wellFormed : projectTree.WellFormed := wellFormed_of_check (by decide)

theorem projectMoves_faithful :
    FaithfulJournal .sample (· = .rename) projectTree projectMoves projectMoved where
  steps := by
    have hfirst : CommandStep .sample (· = .rename) projectTree [projectMoves[0]] projectRenamed :=
      ⟨_, rfl, .rename (AbsolutePath.of_check (by decide)) (by decide) (by decide) (by decide)
        (by decide) rfl⟩
    have hsecond : CommandStep .sample (· = .rename) projectRenamed [projectMoves[1]]
        projectMoved :=
      ⟨_, rfl, .rename (AbsolutePath.of_check (by decide)) (by decide) (by decide) (by decide)
        (by decide) rfl⟩
    exact Runs.cons hfirst (Runs.cons hsecond (Runs.nil _))
  complete := by decide
  ordered := by decide

theorem rename_round_trip_project :
    (undo .sample .silent .insertion plainCommand projectMoves fullStore projectMoved).2.SameTree
      projectTree :=
  (rename_round_trip Host.sample_permissive projectTree_wellFormed projectMoves_faithful rfl).2.2

/-- The same renames made by `source setup.sh`. -/
def sourcedCommand : CommandRecord := { plainCommand with cmdString := some "source setup.sh" }

/-- The plan of a command on the refuse list is a refusal, and the renames stay. -/
theorem refused_renames_stay :
    projectTree.WellFormed ∧
      FaithfulJournal .sample (· = .rename) projectTree projectMoves projectMoved ∧
      ¬ (undo .sample .silent .insertion sourcedCommand projectMoves fullStore
        projectMoved).2.SameTree projectTree := by
  refine ⟨projectTree_wellFormed, projectMoves_faithful, fun hsame => ?_⟩
  have hlookup : (undo .sample .silent .insertion sourcedCommand projectMoves fullStore
      projectMoved).2.lookup (ofString "/d") = none := by decide
  rw [hsame.1] at hlookup
  revert hlookup
  decide

end MovedDirectory

/-! ## Writes and deletions -/

section WriteDelete

/-- In-place writes and deletions of files and directories. -/
def Act.WritesOrDeletes (act : Act) : Prop := act = .write ∨ act = .removeFile ∨ act = .removeDir

/-- `s` came from `fs` by losing names; the names that are left mean what they did. -/
structure ShrunkFrom (fs s : Fs) : Prop where
  wellFormed : s.WellFormed
  lookup : ∀ p i, s.lookup p = some i → fs.lookup p = some i
  kind : ∀ i, (s.inode i).kind = (fs.inode i).kind

/-- What an event of such a command says about the tree the command started from. -/
inductive WriteDeleteEvent (fs : Fs) (ev : CaptureEvent) : Prop
  | preImage {i : InodeRef} {p : PathBuf} {blob : BlobHash} {fileMeta : FileMetadata}
      {source : FilePreImageSource} (hkind : ev.kind = .filePreImage i p blob fileMeta none source)
      (hreg : fs.kindAt p = some .regular)
  | unlink {i : InodeRef} {p : PathBuf} {mode : Nat} (hi : fs.lookup p = some i)
      (hkind : ev.kind = .treeOp (.unlink i p (fs.inode i).kind mode))

theorem ShrunkFrom.kindAt (hshrunk : ShrunkFrom fs s) {p : PathBuf} {i : InodeRef}
    (hi : s.lookup p = some i) : fs.kindAt p = some (s.inode i).kind := by
  rw [kindAt_of_lookup (hshrunk.lookup p i hi), hshrunk.kind]

theorem ShrunkFrom.erase (hshrunk : ShrunkFrom fs s) {p : PathBuf}
    (hwf : Fs.WellFormed { s with entries := s.entries.erase p }) :
    ShrunkFrom fs { s with entries := s.entries.erase p } where
  wellFormed := hwf
  lookup := by
    intro q i hq
    rw [lookup_erase] at hq
    by_cases hqp : q = p
    · rw [hqp, update_self] at hq
      cases hq
    · rw [update_of_ne hqp] at hq
      exact hshrunk.lookup q i hq
  kind := hshrunk.kind

variable {entries : List CaptureEvent}

theorem ShrunkFrom.step {act : Act} (hshrunk : ShrunkFrom fs s) (hact : act.WritesOrDeletes)
    (hdoes : Does h act s entries s') : ShrunkFrom fs s' := by
  have hwf := hdoes.wellFormed hshrunk.wellFormed
  cases hdoes with
  | write hpre =>
    refine ⟨hwf, hshrunk.lookup, fun j => ?_⟩
    rename_i i p bytes mtime ev
    by_cases hji : j = i
    · subst hji
      rw [overwrite, inode_modifyInode_self]
      exact hshrunk.kind j
    · rw [overwrite, inode_modifyInode_of_ne _ hji]
      exact hshrunk.kind j
  | removeFile hpre hunlink | removeDir hdir hroot hempty hunlink => exact hshrunk.erase hwf
  | _ => rcases hact with hact | hact | hact <;> cases hact

theorem ShrunkFrom.recorded {act : Act} (hshrunk : ShrunkFrom fs s) (hact : act.WritesOrDeletes)
    (hdoes : Does h act s entries s') :
    ∀ ev ∈ entries, WriteDeleteEvent fs ev := by
  have hpreImage : ∀ {i p ev}, PreImageOf h s i p none ev → WriteDeleteEvent fs ev := by
    intro i p ev hpre
    obtain ⟨fileMeta, source, hkind, -, -⟩ := hpre.recorded
    exact .preImage hkind ((hshrunk.kindAt hpre.lookup).trans (congrArg some hpre.regular))
  have hunlinkOf : ∀ {i p ev}, UnlinkOf s i p ev → WriteDeleteEvent fs ev := by
    intro i p ev hunlink
    obtain ⟨mode, hkind, -⟩ := hunlink.recorded
    exact .unlink (hshrunk.lookup p i hunlink.lookup) (hshrunk.kind i ▸ hkind)
  intro ev hev
  cases hdoes with
  | write hpre => exact mem_singleton.mp hev ▸ hpreImage hpre
  | removeFile hpre hunlink =>
    rcases mem_pair.mp hev with rfl | rfl
    · exact hpreImage hpre
    · exact hunlinkOf hunlink
  | removeDir hdir hroot hempty hunlink => exact mem_singleton.mp hev ▸ hunlinkOf hunlink
  | _ => rcases hact with hact | hact | hact <;> cases hact

/-! The classification of such a journal. Nothing is created or renamed, so nothing is transient;
names of one inode are one name, so there are no aliases; what has a pre-image and is gone is a
plain deletion. -/

section Classification

variable (hevents : ∀ ev ∈ events, WriteDeleteEvent fs ev)

include hevents

theorem WriteDeleteEvent.not_created (p : PathBuf) :
    ¬ (p ∈ creates (liveEvents events) ∨ p ∈ renameDestinations (liveEvents events)) := by
  rintro (hp | hp)
  · obtain ⟨ev, hev, _, _, _, hkind⟩ := mem_creates.mp hp
    cases hevents ev (mem_liveEvents.mp hev).1 with
    | preImage hkind' | unlink _ hkind' => rw [hkind] at hkind'; cases hkind'
  · obtain ⟨ev, hev, _, _, hkind⟩ := mem_renameDestinations.mp hp
    cases hevents ev (mem_liveEvents.mp hev).1 with
    | preImage hkind' | unlink _ hkind' => rw [hkind] at hkind'; cases hkind'

theorem WriteDeleteEvent.not_transient (p : PathBuf) :
    p ∉ (classify order events probe).transientPaths := by
  intro hp
  rcases mem_transientPaths.mp hp with ⟨hcreated, -⟩ | ⟨hcreated, -⟩
  · exact WriteDeleteEvent.not_created hevents p hcreated
  · exact WriteDeleteEvent.not_created hevents p (.inl hcreated)

theorem WriteDeleteEvent.singleUnlinks (hnames : fs.SingleNamed) :
    SingleUnlinks (liveEvents events) := by
  have hlookup : ∀ i p, (i, p) ∈ unlinkedInodes (liveEvents events) → fs.lookup p = some i := by
    intro i p hip
    obtain ⟨ev, hev, _, _, hkind, -⟩ := mem_unlinkedInodes.mp hip
    cases hevents ev (mem_liveEvents.mp hev).1 with
    | preImage hkind' => rw [hkind] at hkind'; cases hkind'
    | unlink hi hkind' =>
      rw [hkind] at hkind'
      cases hkind'
      exact hi
  exact fun i p q hp hq => hnames p q i (hlookup i p hp) (hlookup i q hq)

theorem WriteDeleteEvent.kindAt_of_preImage {p : PathBuf}
    (hp : p ∈ preImages (liveEvents events)) : fs.kindAt p = some .regular := by
  obtain ⟨ev, hev, _, _, _, _, _, hkind, -⟩ := mem_preImages.mp hp
  cases hevents ev (mem_liveEvents.mp hev).1 with
  | preImage hkind' hreg =>
    rw [hkind] at hkind'
    cases hkind'
    exact hreg
  | unlink _ hkind' => rw [hkind] at hkind'; cases hkind'

end Classification

theorem visible_of_erased {u : Fs} {p : PathBuf}
    (hu : u.visible = visible { s with entries := s.entries.erase p }) :
    (∀ q, q ≠ p → u.visible q = s.visible q) ∧ u.kindAt p = none := by
  constructor
  · intro q hq
    rw [hu]
    exact visible_of_node_eq (by rw [node_erase, update_of_ne hq])
  · rw [kindAt_eq_of_visible_eq (congrFun hu p), kindAt_erase, update_self]

theorem undone_writeDelete {act : Act} (hp : h.Permissive) (hnames : fs.SingleNamed)
    (hj : FaithfulJournal h Act.WritesOrDeletes fs events fs')
    (hevents : ∀ ev ∈ events, WriteDeleteEvent fs ev) (hshrunk : ShrunkFrom fs s)
    (hact : act.WritesOrDeletes) (hdoes : Does h act s entries s')
    (hmem : ∀ ev ∈ entries, ev ∈ events) :
    Undone (RunsThrough (fileRuntime h) OutcomeKind.IsApplied) (fun u s => u.visible = s.visible)
      (entries.reverse.flatMap fun ev => (emitUnlessSkipped r (fs'.probe h) store
        (classify order events (fs'.probe h)) ev).nodes) s s' := by
  have hna : NoAliases (classify order events (fs'.probe h)) :=
    (WriteDeleteEvent.singleUnlinks hevents hnames).noAliases
  have htrans : ∀ p, p ∉ (classify order events (fs'.probe h)).transientPaths :=
    WriteDeleteEvent.not_transient hevents
  intro u hu
  cases hdoes with
  | write hpre =>
    rename_i i p bytes mtime ev
    obtain ⟨fileMeta, source, hkind, hsrc, hmeta⟩ := hpre.recorded
    have honly : ∀ q, s.lookup q = some i → q = p := fun q hq =>
      hnames q p i (hshrunk.lookup q i hq) (hshrunk.lookup p i hpre.lookup)
    have hagree : ∀ q, q ≠ p → u.visible q = s.visible q := by
      intro q hq
      rw [hu]
      refine visible_of_node_eq ?_
      rw [overwrite, node_modifyInode hpre.lookup honly, update_of_ne hq]
    have hfile : ¬ u.IsDir p := by
      refine not_isDir_of_regular ?_
      rw [kindAt_eq_of_visible_eq (congrFun hu p), kindAt_overwrite,
        kindAt_of_lookup hpre.lookup, hpre.regular]
    rw [reverse_singleton, flatMap_singleton, emit_preImage hna hkind hsrc (htrans p)]
    exact through_preImage hp isApplied (preImageConflict_of_no_post ..)
      hshrunk.wellFormed hagree hpre hmeta hfile
  | removeFile hpre hunlink =>
    rename_i i p ev₁ ev₂
    obtain ⟨fileMeta, source, hkind, hsrc, hmeta⟩ := hpre.recorded
    obtain ⟨mode, hunlinkKind, -⟩ := hunlink.recorded
    obtain ⟨hagree, hgone⟩ := visible_of_erased hu
    -- the deletion counts as an atomic replacement: the pre-image alone brings the file back
    have hatomic : p ∈ (classify order events (fs'.probe h)).atomicReplacePaths := by
      refine mem_atomicReplacePaths.mpr ⟨mem_preImages.mpr ?_, .inr (.inr ⟨mem_unlinks.mpr ?_,
        WriteDeleteEvent.not_created hevents p, ?_⟩)⟩
      · exact ⟨ev₁, hj.mem_liveEvents.mpr (hmem ev₁ (by simp)), _, _, _, _, _, hkind, hsrc⟩
      · exact ⟨ev₂, hj.mem_liveEvents.mpr (hmem ev₂ (by simp)), _, _, _, hunlinkKind⟩
      · exact (WriteDeleteEvent.singleUnlinks hevents hnames).isHardlinkDead p
    rw [flatMap_reverse_pair, emit_unlink_of_atomic hunlinkKind hatomic, nil_append,
      emit_preImage hna hkind hsrc (htrans p)]
    exact through_preImage hp isApplied (preImageConflict_of_no_post ..)
      hshrunk.wellFormed hagree hpre hmeta (not_isDir_of_free hgone)
  | removeDir hdir hroot hempty hunlink =>
    rename_i i p ev
    obtain ⟨mode, hkind, hmode⟩ := hunlink.recorded
    obtain ⟨hagree, hgone⟩ := visible_of_erased hu
    have hatomic : p ∉ (classify order events (fs'.probe h)).atomicReplacePaths := by
      intro hatomic
      have hreg := WriteDeleteEvent.kindAt_of_preImage hevents (mem_atomicReplacePaths.mp hatomic).1
      rw [hshrunk.kindAt hunlink.lookup, hdir] at hreg
      cases hreg
    obtain ⟨c, hc, hemit⟩ := emit_unlink hna hkind (htrans p) hatomic
    rw [reverse_singleton, flatMap_singleton, hemit, hdir]
    exact through_unlinkDir hp isApplied hc hshrunk.wellFormed hagree hunlink.lookup
      hdir hroot hmode hgone
  | _ => rcases hact with hact | hact | hact <;> cases hact

/-- **Write/delete round trip.** Every record is applied, and the paths, kinds, permission bits
and file contents are those from before the command. -/
theorem write_delete_round_trip (hp : h.Permissive) (hwf : fs.WellFormed)
    (hnames : fs.SingleNamed) (hj : FaithfulJournal h Act.WritesOrDeletes fs events fs')
    (href : command.refusal = none) :
    (∀ rec ∈ (undo h r order command events store fs').1.records, rec.outcomeKind = .applied) ∧
      (undo h r order command events store fs').2.visible = fs.visible := by
  have hstart : ShrunkFrom fs fs := ⟨hwf, fun _ _ hi => hi, fun _ => rfl⟩
  have hevents : ∀ ev ∈ events, WriteDeleteEvent fs ev := by
    refine hj.steps.forall_of_step (ShrunkFrom fs) hstart ?_ ?_
    · exact fun s entries s' hs ⟨act, hact, hdoes⟩ => hs.step hact hdoes
    · exact fun s entries s' hs ⟨act, hact, hdoes⟩ => hs.recorded hact hdoes
  have hsteps := hj.keeping (ShrunkFrom fs) hstart fun _ _ _ _ hact hs hdoes => hs.step hact hdoes
  refine hj.undone hsteps OutcomeKind.IsApplied (fun u s => u.visible = s.visible) href rfl ?_
  rintro s entries s' ⟨hs, -, hmem, act, hact, hdoes⟩
  exact undone_writeDelete hp hnames hj hevents hs hact hdoes hmem

end WriteDelete

section RemovedDirectory

/-- `echo … > /d/f; rm -r /d`. -/
def projectRemoval : List CaptureEvent :=
  journalOf [ .filePreImage ⟨1, 3⟩ (ofString "/d/f") (sampleHash [1]) ((Inode.file [1]).stat .linux)
      none .other,
    .filePreImage ⟨1, 3⟩ (ofString "/d/f") (sampleHash [2, 2])
      ((Inode.file [2, 2]).stat .linux) none .other,
    .treeOp (.unlink ⟨1, 3⟩ (ofString "/d/f") .regular 0o100644),
    .treeOp (.unlink ⟨1, 2⟩ (ofString "/d") .directory 0o040755)]

/-- The tree after the write. -/
def projectWritten : Fs := projectTree.overwrite ⟨1, 3⟩ [2, 2] 9

/-- The tree after the file was removed. -/
def projectEmptied : Fs :=
  { projectWritten with entries := projectWritten.entries.erase (ofString "/d/f") }

/-- The tree after the directory was removed. -/
def projectRemoved : Fs :=
  { projectEmptied with entries := projectEmptied.entries.erase (ofString "/d") }

theorem projectRemoval_faithful :
    FaithfulJournal .sample Act.WritesOrDeletes projectTree projectRemoval projectRemoved where
  steps := by
    have hwrite : CommandStep .sample Act.WritesOrDeletes projectTree [projectRemoval[0]]
        projectWritten :=
      ⟨.write, .inl rfl, .write ⟨by decide, by decide,
        ⟨_, _, rfl, by decide, by decide, rfl, rfl, rfl, rfl⟩, rfl⟩⟩
    have hremove : CommandStep .sample Act.WritesOrDeletes projectWritten
        [projectRemoval[1], projectRemoval[2]] projectEmptied :=
      ⟨.removeFile, .inr (.inl rfl), .removeFile ⟨by decide, by decide,
        ⟨_, _, rfl, by decide, by decide, rfl, rfl, rfl, rfl⟩, rfl⟩
        ⟨by decide, _, rfl, by decide⟩⟩
    have hrmdir : CommandStep .sample Act.WritesOrDeletes projectEmptied [projectRemoval[3]]
        projectRemoved :=
      ⟨.removeDir, .inr (.inr rfl), .removeDir (by decide) (by decide)
        (kindAt_below_of_check (by decide)) ⟨by decide, _, rfl, by decide⟩⟩
    exact Runs.cons hwrite (Runs.cons hremove (Runs.cons hrmdir (Runs.nil _)))
  complete := by decide
  ordered := by decide

theorem write_delete_round_trip_project :
    (undo .sample .silent .insertion plainCommand projectRemoval fullStore
      projectRemoved).2.visible = projectTree.visible :=
  (write_delete_round_trip Host.sample_permissive projectTree_wellFormed
    (singleNamed_of_nodup (by decide)) projectRemoval_faithful rfl).2

/-- The same removal made by `source setup.sh`: the plan is a refusal and the directory is lost. -/
theorem refused_removal_stays :
    projectTree.WellFormed ∧ projectTree.SingleNamed ∧
      FaithfulJournal .sample Act.WritesOrDeletes projectTree projectRemoval projectRemoved ∧
      (undo .sample .silent .insertion sourcedCommand projectRemoval fullStore
        projectRemoved).2.visible ≠ projectTree.visible := by
  refine ⟨projectTree_wellFormed, singleNamed_of_nodup (by decide), projectRemoval_faithful,
    fun hsame => ?_⟩
  have hgone : (undo .sample .silent .insertion sourcedCommand projectRemoval fullStore
      projectRemoved).2.visible (ofString "/d") = none := by decide
  rw [hsame] at hgone
  revert hgone
  decide

end RemovedDirectory

end ShitUndo
