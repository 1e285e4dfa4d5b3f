import ShitUndo.Commands
import ShitUndo.PreImages

/-!
# False drift

A command writes files in place; each write is captured with the hash of what it wrote, and
nobody touches the files afterwards. Every pre-image of a file is compared with the one content
the file has now, so an earlier write of the same file looks like a later edit and its restore is
refused.
-/

namespace ShitUndo

open List Fs Option Function PathBuf Conflict

open UndoLog (Runs)

variable {h : Host} {fs fs' s u : Fs} {events : List CaptureEvent} {r : Renderers}
  {order : HashOrder} {command : CommandRecord} {store : PlannerStore} {probe : StateProbe}
  {entries : List CaptureEvent} {ev : CaptureEvent}

/-! ## Statement -/

/-- The planner's store knows every blob that can be read. -/
def StoreHolds (h : Host) (store : PlannerStore) : Prop :=
  ∀ blob bytes, h.readBlob blob = .ok bytes → (store.blobSizeHint blob).isSome = true

/-- No node of the plan is a `Hard` conflict, and undo restores the content of every file. -/
def NoFalseDrift (h : Host) (r : Renderers) (order : HashOrder) (command : CommandRecord)
    (events : List CaptureEvent) (store : PlannerStore) (fs fs' : Fs) : Prop :=
  (∀ node ∈ (plan r order command events (fs'.probe h) store).nodes, node.hasHard = false) ∧
    ∀ p, (undo h r order command events store fs').2.fileAt p = fs.fileAt p

/-- The blob of the oldest pre-image of a name. -/
def oldestPreImage (events : List CaptureEvent) (p : PathBuf) : Option BlobHash :=
  events.findSome? fun ev => match ev.kind with
    | .filePreImage _ q blob _ _ _ => if q = p then some blob else none
    | _ => none

/-- The content of the oldest pre-image of a name, or the present content of an unwritten one. -/
def oldestContent (h : Host) (events : List CaptureEvent) (fs' : Fs) (p : PathBuf) : Option Bytes :=
  match oldestPreImage events p with
  | some blob => (h.readBlob blob).toOption
  | none => fs'.fileAt p

/-- Every recorded post-content hash is that of the file as it is now. -/
def PostHashesCurrent (h : Host) (events : List CaptureEvent) (fs' : Fs) : Prop :=
  ∀ ev ∈ events, ∀ i p blob fileMeta post source,
    ev.kind = .filePreImage i p blob fileMeta (some post) source →
      ∀ bytes, fs'.fileAt p = some bytes → h.blake3 bytes = post

/-! ## The journal of in-place writes -/

/-- `ev` is a restorable pre-image of the file `i` at `p`. -/
structure WriteEvent (h : Host) (fs : Fs) (ev : CaptureEvent) (i : InodeRef) (p : PathBuf)
    (blob : BlobHash) (bytes : Bytes) (post : BlobHash) : Prop where
  recorded : ∃ fileMeta source, ev.kind = .filePreImage i p blob fileMeta (some post) source ∧
    source ≠ .shimFlagsPreMutation
  lookup : fs.lookup p = some i
  regular : (fs.inode i).kind = .regular
  stored : h.readBlob blob = .ok bytes

/-- `s` differs from `fs` in file contents only. -/
structure RewrittenFrom (fs s : Fs) : Prop where
  lookup : s.lookup = fs.lookup
  kind : ∀ i, (s.inode i).kind = (fs.inode i).kind

theorem RewrittenFrom.kindAt_eq (hre : RewrittenFrom fs s) : s.kindAt = fs.kindAt := by
  funext p
  simp only [kindAt, node, hre.lookup, Option.map_map]
  congr 1
  funext i
  exact hre.kind i

theorem RewrittenFrom.step {act : Act} (hre : RewrittenFrom fs s) (hact : act = .hashedWrite)
    (hdoes : Does h act s entries fs') : RewrittenFrom fs fs' := by
  subst hact
  cases hdoes with
  | hashedWrite hpre =>
    rename_i i p bytes mtime ev
    refine ⟨hre.lookup, fun j => ?_⟩
    by_cases hji : j = i
    · subst hji
      rw [overwrite, inode_modifyInode_self]
      exact hre.kind j
    · rw [overwrite, inode_modifyInode_of_ne _ hji]
      exact hre.kind j

theorem RewrittenFrom.recorded {act : Act} (hre : RewrittenFrom fs s) (hact : act = .hashedWrite)
    (hdoes : Does h act s entries fs') :
    ∀ ev ∈ entries, ∃ i p blob bytes post, WriteEvent h fs ev i p blob bytes post := by
  subst hact
  cases hdoes with
  | hashedWrite hpre =>
    intro ev hev
    obtain rfl := mem_singleton.mp hev
    obtain ⟨fileMeta, source, hkind, hsrc, -⟩ := hpre.recorded
    exact ⟨_, _, _, _, _, ⟨_, _, hkind, hsrc⟩, hre.lookup ▸ hpre.lookup,
      (hre.kind _).symm.trans hpre.regular, hpre.stored⟩

section Journal

variable (hj : FaithfulJournal h (· = .hashedWrite) fs events fs')

include hj

theorem rewrittenFrom_end : RewrittenFrom fs fs' :=
  hj.steps.invariant (RewrittenFrom fs) ⟨rfl, fun _ => rfl⟩
    fun _ _ _ hs ⟨_, hact, hdoes⟩ => hs.step hact hdoes

theorem write_events :
    ∀ ev ∈ events, ∃ i p blob bytes post, WriteEvent h fs ev i p blob bytes post :=
  hj.steps.forall_of_step (RewrittenFrom fs) ⟨rfl, fun _ => rfl⟩
    (fun _ _ _ hs ⟨_, hact, hdoes⟩ => hs.step hact hdoes)
    (fun _ _ _ hs ⟨_, hact, hdoes⟩ => hs.recorded hact hdoes)

theorem noTreeOps_of_writes : NoTreeOps events := by
  intro ev hev op hop
  obtain ⟨_, _, _, _, _, hwrite⟩ := write_events hj ev hev
  obtain ⟨_, _, hkind, -⟩ := hwrite.recorded
  rw [hkind] at hop
  cases hop

end Journal

/-! ## When a write conflicts -/

section Conflict

variable {i : InodeRef} {p : PathBuf} {blob post : BlobHash} {bytes : Bytes}
  {cls : EventClassification}

/-- All checks before the hash comparison pass, so a write conflicts `Hard` exactly when its hash
is not the present one. -/
theorem WriteEvent.hard_iff (hwrite : WriteEvent h fs ev i p blob bytes post)
    (hre : RewrittenFrom fs fs') (hstore : StoreHolds h store)
    (hatomic : p ∉ cls.atomicReplacePaths) :
    (preImageConflict i p blob (some post) (fs'.probe h) store cls).any isHard = true ↔
      h.blake3 (fs'.inode i).content ≠ post := by
  have hi : fs'.lookup p = some i := hre.lookup ▸ hwrite.lookup
  have hreg : (fs'.inode i).kind = .regular := (hre.kind i).trans hwrite.regular
  have hpath : PathCheckPasses i p (fs'.probe h) cls := by
    rw [PathCheckPasses, if_neg hatomic]
    simp [StateProbe.hasInode, probe, hi]
  have hhash : (fs'.probe h).contentHash p = some (h.blake3 (fs'.inode i).content) := by
    simp [probe, node_of_lookup hi, hreg]
  rw [preImageConflict_hard_iff, DriftSeen]
  constructor
  · rintro ⟨-, -, expected, current, hpost, hcurrent, hne⟩
    rw [hhash] at hcurrent
    cases hpost
    cases hcurrent
    exact hne
  · intro hne
    exact ⟨hpath, hstore blob bytes hwrite.stored, post, _, rfl, hhash, hne⟩

end Conflict

/-! ## Replaying the pre-images -/

/-- What an event's inverses are, for the replay. -/
structure Replayable (h : Host) (fs' : Fs) (emit : CaptureEvent → List PlanNode)
    (ev : CaptureEvent) (p : PathBuf) (blob : BlobHash) : Prop where
  recorded : ∃ i fileMeta post source, ev.kind = .filePreImage i p blob fileMeta post source
  emitted : ∃ i c fileMeta, c.any isHard = false ∧
    emit ev = [.fresh (.restoreContent i p blob) c, .fresh (.restoreMetadata i p fileMeta) c]
  regular : fs'.kindAt p = some .regular
  stored : ∃ bytes, h.readBlob blob = .ok bytes

theorem oldestPreImage_cons {ev : CaptureEvent} {q : PathBuf} {blob : BlobHash} {i : InodeRef}
    {fileMeta : FileMetadata} {post : Option BlobHash} {source : FilePreImageSource}
    (hkind : ev.kind = .filePreImage i q blob fileMeta post source) (p : PathBuf) :
    oldestPreImage (ev :: events) p = if q = p then some blob else oldestPreImage events p := by
  by_cases hq : q = p <;> simp [oldestPreImage, hkind, hq]

/-- Restoring from the newest pre-image to the oldest leaves each name with its oldest content. -/
theorem through_writes (hp : h.Permissive) (hwf : fs'.WellFormed)
    {emit : CaptureEvent → List PlanNode}
    (hevents : ∀ ev ∈ events, ∃ p blob, Replayable h fs' emit ev p blob) :
    ∃ u, RunsThrough (fileRuntime h) OutcomeKind.IsApplied (events.reverse.flatMap emit) fs' u ∧
      u.kindAt = fs'.kindAt ∧ ∀ p, u.fileAt p = oldestContent h events fs' p := by
  induction events with
  | nil => exact ⟨fs', .nil fs', rfl, fun _ => rfl⟩
  | cons ev rest ih =>
    obtain ⟨u₁, hrun, hkinds, hfiles⟩ := ih fun e he => hevents e (mem_cons_of_mem _ he)
    obtain ⟨q, blob, hev⟩ := hevents ev mem_cons_self
    obtain ⟨i, c, fileMeta, hc, hemit⟩ := hev.emitted
    obtain ⟨bytes, hread⟩ := hev.stored
    obtain ⟨_, _, _, _, hkind⟩ := hev.recorded
    have hwf₁ : u₁.WellFormed := hwf.of_kindAt_eq hkinds
    have hreg : u₁.kindAt q = some .regular := by rw [hkinds, hev.regular]
    have hsome : u₁.kindAt q ≠ none := by rw [hreg]; exact some_ne_none _
    have hroot : q ≠ [.rootDir] := by
      rintro rfl
      rw [show u₁.kindAt _ = _ from hwf₁.root] at hreg
      cases hreg
    have hfile : ∀ n, u₁.node q = some n → n.kind ≠ .directory := by
      intro n hn hdir
      rw [kindAt_of_node hn, hdir] at hreg
      cases hreg
    obtain ⟨u, n, hrun', hnode, hnkind, hncontent, -⟩ :=
      through_restore hp OutcomeKind.isApplied hc i fileMeta (hwf₁.absolute q hsome) hroot
        (hwf₁.isDir_dropLast hsome hroot) hfile hread
    refine ⟨u, ?_, ?_, fun p => ?_⟩
    · rw [reverse_cons, flatMap_append, flatMap_singleton, hemit]
      exact hrun.append hrun'
    · rw [kindAt_of_node_update hnode, hnkind, ← hreg, update_eq_self, hkinds]
    · rw [oldestContent, oldestPreImage_cons hkind]
      by_cases hqp : q = p
      · subst hqp
        simp [fileAt, hnode, hnkind, hncontent, hread, Except.toOption]
      · have hsame : u.node p = u₁.node p := by rw [hnode, update_of_ne (Ne.symm hqp)]
        rw [if_neg hqp, fileAt_of_node_eq hsame, hfiles p, oldestContent]

/-! ## The characterisation -/

section Main

variable (hp : h.Permissive) (hwf : fs.WellFormed)
  (hj : FaithfulJournal h (· = .hashedWrite) fs events fs') (hstore : StoreHolds h store)

include hj

theorem emit_write (r : Renderers) (order : HashOrder) (probe : StateProbe) (store : PlannerStore)
    (hev : ev ∈ events) :
    ∃ i p blob bytes post fileMeta, WriteEvent h fs ev i p blob bytes post ∧
      (emitUnlessSkipped r probe store (classify order events probe) ev).nodes =
        [.fresh (.restoreContent i p blob) (preImageConflict i p blob (some post) probe store
            (classify order events probe)),
          .fresh (.restoreMetadata i p fileMeta) (preImageConflict i p blob (some post) probe store
            (classify order events probe))] := by
  obtain ⟨i, p, blob, bytes, post, hwrite⟩ := write_events hj ev hev
  obtain ⟨fileMeta, source, hkind, hsrc⟩ := hwrite.recorded
  have hno := noTreeOps_of_writes hj
  exact ⟨i, p, blob, bytes, post, fileMeta, hwrite,
    emit_preImage hno.noAliases hkind hsrc (hno.not_transient p)⟩

include hstore

theorem hard_eq_false_iff {i : InodeRef} {p : PathBuf} {blob post : BlobHash} {bytes : Bytes}
    (order : HashOrder) (hwrite : WriteEvent h fs ev i p blob bytes post) :
    (preImageConflict i p blob (some post) (fs'.probe h) store
        (classify order events (fs'.probe h))).any isHard = false ↔
      h.blake3 (fs'.inode i).content = post := by
  rw [← Bool.not_eq_true, hwrite.hard_iff (rewrittenFrom_end hj) hstore
    ((noTreeOps_of_writes hj).not_atomic p), not_not]

/-- Without a refusal, the plan has no `Hard` conflict exactly when every hash is the present
one. -/
theorem no_hard_iff (href : command.refusal = none) :
    (∀ node ∈ (plan r order command events (fs'.probe h) store).nodes, node.hasHard = false) ↔
      PostHashesCurrent h events fs' := by
  have hre := rewrittenFrom_end hj
  have hfile : ∀ {ev i p blob bytes post}, WriteEvent h fs ev i p blob bytes post →
      fs'.fileAt p = some (fs'.inode i).content := fun hwrite =>
    fileAt_of_lookup (hre.lookup ▸ hwrite.lookup) ((hre.kind _).trans hwrite.regular)
  rw [forall_hasHard_plan href, hj.planNodes_eq]
  constructor
  · intro hnodes ev hev i p blob fileMeta post source hkind bytes hbytes
    obtain ⟨i', p', blob', bytes', post', fileMeta', hwrite, hemit⟩ :=
      emit_write hj r order (fs'.probe h) store hev
    obtain ⟨_, _, hkind', -⟩ := hwrite.recorded
    rw [hkind] at hkind'
    cases hkind'
    have hnode := hnodes _ (mem_flatMap.mpr ⟨ev, mem_reverse.mpr hev, by
      rw [hemit]; exact mem_cons_self⟩)
    have hhash := (hard_eq_false_iff hj hstore order hwrite).mp hnode
    rw [hfile hwrite] at hbytes
    cases hbytes
    exact hhash
  · intro hposts node hnode
    obtain ⟨ev, hev, hnode⟩ := mem_flatMap.mp hnode
    obtain ⟨i, p, blob, bytes, post, fileMeta, hwrite, hemit⟩ :=
      emit_write hj r order (fs'.probe h) store (mem_reverse.mp hev)
    obtain ⟨_, _, hkind, -⟩ := hwrite.recorded
    have hhash := hposts ev (mem_reverse.mp hev) _ _ _ _ _ _ hkind _ (hfile hwrite)
    have hclear := (hard_eq_false_iff hj hstore order hwrite).mpr hhash
    rw [hemit] at hnode
    rcases mem_pair.mp hnode with rfl | rfl <;> exact hclear

theorem replayable_of_current (r : Renderers) (order : HashOrder)
    (hposts : PostHashesCurrent h events fs') (hev : ev ∈ events) :
    ∃ p blob, Replayable h fs' (fun ev => (emitUnlessSkipped r (fs'.probe h) store
      (classify order events (fs'.probe h)) ev).nodes) ev p blob := by
  have hre := rewrittenFrom_end hj
  obtain ⟨i, p, blob, bytes, post, fileMeta, hwrite, hemit⟩ :=
    emit_write hj r order (fs'.probe h) store hev
  obtain ⟨_, _, hkind, -⟩ := hwrite.recorded
  have hi : fs'.lookup p = some i := hre.lookup ▸ hwrite.lookup
  have hreg : (fs'.inode i).kind = .regular := (hre.kind i).trans hwrite.regular
  have hhash := hposts ev hev _ _ _ _ _ _ hkind _ (fileAt_of_lookup hi hreg)
  refine ⟨p, blob, ⟨_, _, _, _, hkind⟩, ⟨i, _, fileMeta, ?_, hemit⟩, ?_, ⟨bytes, hwrite.stored⟩⟩
  · exact (hard_eq_false_iff hj hstore order hwrite).mpr hhash
  · rw [kindAt_of_lookup hi, hreg]

include hp hwf

theorem undo_fileAt (href : command.refusal = none) (hposts : PostHashesCurrent h events fs')
    (p : PathBuf) :
    (undo h r order command events store fs').2.fileAt p = oldestContent h events fs' p := by
  have hwf' : fs'.WellFormed := hwf.of_kindAt_eq (rewrittenFrom_end hj).kindAt_eq
  obtain ⟨u, hrun, -, hfiles⟩ := through_writes hp hwf' fun ev hev =>
    replayable_of_current hj hstore r order hposts hev
  obtain ⟨hend, -⟩ := hrun.runFrom_eq 0
  simp only [undo, run, plan_nodes_of_not_refused href, runFrom_assignCohorts, hj.planNodes_eq]
  rw [hend, hfiles p]

/-- **No false drift, exactly when** the command is not refused, every recorded hash is that of
the present content and the oldest pre-image of each name is its original content; or it is
refused and had changed nothing. -/
theorem noFalseDrift_iff :
    NoFalseDrift h r order command events store fs fs' ↔
      (command.refusal = none ∧ PostHashesCurrent h events fs' ∧
          ∀ p, oldestContent h events fs' p = fs.fileAt p) ∨
        (command.refusal ≠ none ∧ ∀ p, fs'.fileAt p = fs.fileAt p) := by
  by_cases href : command.refusal = none
  · rw [NoFalseDrift, no_hard_iff hj hstore href]
    simp only [href, ne_eq, not_true, false_and, or_false, true_and]
    refine and_congr_right fun hposts => forall_congr' fun p => ?_
    rw [undo_fileAt hp hwf hj hstore href hposts]
  · have hnone : ∀ node ∈ (plan r order command events (fs'.probe h) store).nodes,
        node.hasHard = false := by
      obtain ⟨entry, hentry⟩ := ne_none_iff_exists'.mp href
      intro node hnode
      rw [plan_nodes_of_refused hentry, mem_singleton] at hnode
      rw [hnode]
      rfl
    rw [NoFalseDrift, undo_of_refused href]
    simp only [href, false_and, false_or, ne_eq, not_false_eq_true, true_and]
    exact and_iff_right hnone

end Main

/-! ## The oldest pre-image -/

/-- With one name per file, the oldest pre-image of a name is its content before the command. -/
theorem oldestContent_eq (hnames : fs.SingleNamed)
    (hrun : Runs (CommandStep h (· = .hashedWrite)) fs events fs') (p : PathBuf) :
    oldestContent h events fs' p = fs.fileAt p := by
  induction hrun with
  | nil s => rfl
  | cons hstep hrest ih =>
    obtain ⟨_, rfl, hdoes⟩ := hstep
    cases hdoes with
    | hashedWrite hpre =>
      rename_i s _ _ i q bytes mtime ev
      obtain ⟨_, _, hkind, -⟩ := hpre.recorded
      rw [singleton_append, oldestContent, oldestPreImage_cons hkind]
      by_cases hqp : q = p
      · subst hqp
        simp [hpre.stored, Except.toOption, fileAt_of_lookup hpre.lookup hpre.regular]
      -- `p` is another file, which this write leaves alone
      have honly : ∀ q', s.lookup q' = some i → q' = q := fun q' hq' =>
        hnames q' q i hq' hpre.lookup
      have hsame : (s.overwrite i bytes mtime).node p = s.node p := by
        rw [overwrite, node_modifyInode hpre.lookup honly, update_of_ne (Ne.symm hqp)]
      rw [if_neg hqp, ← fileAt_of_node_eq hsame]
      exact ih hnames

/-! ## One write, and two -/

section Rewritten

/-- A directory with one file. -/
def noteTree : Fs := ofList [("/f", .file [1])]

/-- A write of the file: the pre-image of `old`, and the hash of `new`. -/
def noteWrite (old new : Bytes) : CaptureEventKind :=
  .filePreImage ⟨1, 2⟩ (ofString "/f") (sampleHash old) ((Inode.file old).stat .linux)
    (some (sampleHash new)) .other

/-- The tree after the first write. -/
def noteWritten : Fs := noteTree.overwrite ⟨1, 2⟩ [2] 9

/-- The tree after the second write. -/
def noteRewritten : Fs := noteWritten.overwrite ⟨1, 2⟩ [3] 9

theorem noteTree_wellFormed : noteTree.WellFormed := wellFormed_of_check (by decide)

theorem storeHolds_fullStore : StoreHolds h fullStore := fun _ _ _ => rfl

theorem noteWrite_faithful :
    FaithfulJournal .sample (· = .hashedWrite) noteTree (journalOf [noteWrite [1] [2]])
      noteWritten where
  steps := by
    have hwrite : CommandStep .sample (· = .hashedWrite) noteTree
        (journalOf [noteWrite [1] [2]]) noteWritten :=
      ⟨_, rfl, .hashedWrite ⟨by decide, by decide,
        ⟨_, _, rfl, by decide, by decide, rfl, rfl, rfl, rfl⟩, rfl⟩⟩
    exact Runs.cons hwrite (Runs.nil _)
  complete := by decide
  ordered := by decide

theorem noteRewrite_faithful :
    FaithfulJournal .sample (· = .hashedWrite) noteTree
      (journalOf [noteWrite [1] [2], noteWrite [2] [3]]) noteRewritten where
  steps := by
    have hfirst : CommandStep .sample (· = .hashedWrite) noteTree
        [(journalOf [noteWrite [1] [2], noteWrite [2] [3]])[0]] noteWritten :=
      ⟨_, rfl, .hashedWrite ⟨by decide, by decide,
        ⟨_, _, rfl, by decide, by decide, rfl, rfl, rfl, rfl⟩, rfl⟩⟩
    have hsecond : CommandStep .sample (· = .hashedWrite) noteWritten
        [(journalOf [noteWrite [1] [2], noteWrite [2] [3]])[1]] noteRewritten :=
      ⟨_, rfl, .hashedWrite ⟨by decide, by decide,
        ⟨_, _, rfl, by decide, by decide, rfl, rfl, rfl, rfl⟩, rfl⟩⟩
    exact Runs.cons hfirst (Runs.cons hsecond (Runs.nil _))
  complete := by decide
  ordered := by decide

/-- A file written once comes back. -/
theorem noFalseDrift_one_write :
    NoFalseDrift .sample .silent .insertion plainCommand (journalOf [noteWrite [1] [2]]) fullStore
      noteTree noteWritten := by
  have hnames : noteTree.SingleNamed := singleNamed_of_nodup (by decide)
  refine (noFalseDrift_iff Host.sample_permissive noteTree_wellFormed noteWrite_faithful
    storeHolds_fullStore).mpr (.inl ⟨rfl, ?_, oldestContent_eq hnames noteWrite_faithful.steps⟩)
  intro ev hev i p blob fileMeta post source hkind bytes hbytes
  obtain rfl := mem_singleton.mp hev
  cases hkind
  cases hbytes
  rfl

/-- A file written twice: the first write is taken for a later edit, and the content before it is
not restored. -/
theorem second_write_taken_for_drift :
    noteTree.WellFormed ∧ noteTree.SingleNamed ∧ FaithfulJournal .sample (· = .hashedWrite) noteTree
        (journalOf [noteWrite [1] [2], noteWrite [2] [3]]) noteRewritten ∧
      StoreHolds .sample fullStore ∧
      (∃ node ∈ (plan .silent .insertion plainCommand
          (journalOf [noteWrite [1] [2], noteWrite [2] [3]]) (noteRewritten.probe .sample)
          fullStore).nodes, node.hasHard = true) ∧
      (undo .sample .silent .insertion plainCommand
        (journalOf [noteWrite [1] [2], noteWrite [2] [3]]) fullStore noteRewritten).2.fileAt
          (ofString "/f") = some [2] ∧
      noteTree.fileAt (ofString "/f") = some [1] :=
  ⟨noteTree_wellFormed, singleNamed_of_nodup (by decide), noteRewrite_faithful,
    storeHolds_fullStore, by decide, by decide, by decide⟩

end Rewritten

end ShitUndo
