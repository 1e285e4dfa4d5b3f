import ShitUndo.Orchestrator

/-!
# What becomes of a pre-image

Three questions about the `FilePreImage` events of a command, for every journal, probe and store.

* **Drift.** `RestoreContent` must not run under `Abort` or `Skip` on a file that was edited after
  the command. The planner keeps only the first conflict it finds, and the orchestrator honours
  `Hard` only.
* **Loss.** A pre-image that is neither transient noise nor of a live alias must be answered by
  a node of the plan. The dead-alias and atomic-replace sets each drop one half of the inverse.
* **Blobs.** A restore whose blob is gone must say so. A path that holds another inode is a
  conflict of its own and hides it.
-/

namespace ShitUndo

open PlanNode PathBuf List Conflict Renderers

variable {blob : BlobHash} {post : Option BlobHash} {inode : InodeRef}

section PreImages

variable (r : Renderers) (order : HashOrder) (command : CommandRecord)
  (events : List CaptureEvent) (probe : StateProbe) (store : PlannerStore)

/-! ## Drift -/

/-- Some content pre-image of `p` recorded a post-content other than the one probed now. -/
def Drifted (p : PathBuf) : Prop :=
  ∃ ev ∈ events, ∃ inode blob fileMeta expected source current,
    ev.kind = .filePreImage inode p blob fileMeta (some expected) source ∧
      source ≠ .shimFlagsPreMutation ∧ probe.contentHash p = some current ∧ current ≠ expected

/-- Whatever the executor does and whatever the live state is, a run of the plan under `Abort`
or `Skip` never dispatches a content restore on `p`. -/
def NeverRestores (p : PathBuf) : Prop :=
  ∀ (σ : Type) (rt : Runtime σ) (filter : PathsFilter) (dryRun : Bool) (policy : ConflictPolicy)
    (s : σ) (op : InverseOp), policy ≠ .force → op.IsRestoreContentOn p →
      ¬ Dispatches rt filter (plan r order command events probe store) dryRun policy s op

/-- The path check of a pre-image passes: an atomically replaced path exists or has a parent to
be restored into, any other path still is the recorded inode. -/
def PathCheckPasses (inode : InodeRef) (p : PathBuf) (probe : StateProbe)
    (cls : EventClassification) : Prop :=
  if p ∈ cls.atomicReplacePaths then probe.pathExists p = true ∨ probe.parentAlive p = true
  else probe.hasInode p inode = true

/-- The drift of one pre-image is seen: path and blob checks pass, so the hashes are compared,
and they differ. -/
def DriftSeen (inode : InodeRef) (p : PathBuf) (blob : BlobHash) (post : Option BlobHash)
    (probe : StateProbe) (store : PlannerStore) (cls : EventClassification) : Prop :=
  PathCheckPasses inode p probe cls ∧ (store.blobSizeHint blob).isSome = true ∧
    ∃ expected current, post = some expected ∧ probe.contentHash p = some current ∧
      current ≠ expected

variable {r order command events probe store} {p : PathBuf} {cls : EventClassification}
  {policy : ConflictPolicy} {live : StateProbe} {node : PlanNode}

theorem preImagePathConflict_eq_none_iff :
    preImagePathConflict inode p probe cls = none ↔ PathCheckPasses inode p probe cls := by
  unfold preImagePathConflict PathCheckPasses StateProbe.pathExists
  split
  · cases (probe.stat p).isSome <;> cases probe.parentAlive p <;> simp
  · exact filePathConflict_eq_none_iff

theorem preImageConflict_hard_iff :
    (preImageConflict inode p blob post probe store cls).any isHard = true ↔
      DriftSeen inode p blob post probe store cls := by
  unfold preImageConflict DriftSeen
  rw [← preImagePathConflict_eq_none_iff]
  cases hpath : preImagePathConflict inode p probe cls with
  | some c =>
    -- a path conflict is never `Hard` and hides the hash comparison
    have hc := preImagePathConflict_not_hard inode p probe cls
    rw [hpath] at hc
    simp [hc]
  | none =>
    cases hblob : store.blobSizeHint blob with
    | none => simp [isHard]
    | some n =>
      cases post with
      | none => simp
      | some expected =>
        cases hcur : probe.contentHash p with
        | none => simp
        | some current => by_cases h : current = expected <;> simp [h, isHard]

theorem disposition_of_hasHard {filter : PathsFilter} (h : node.hasHard = true)
    (hp : policy ≠ .force) :
    disposition filter policy live node ≠ .dispatch := by
  obtain ⟨op, cohort, conflict⟩ := node
  cases conflict with
  | none => simp [hasHard] at h
  | some c =>
    cases c <;> simp [hasHard, isHard] at h
    rename_i detail
    unfold disposition effectiveConflict
    split
    · simp
    · cases policy <;> simp at hp ⊢ <;> split <;> simp

/-- A runtime that accepts every op and never reports a conflict of its own for a restore. -/
def Runtime.accepting : Runtime Unit where
  probe := fun _ => { stat := fun _ => none, contentHash := fun _ => none }
  execute := fun _ _ _ _ => (.applied, ())

theorem disposition_restoreContent_of_not_hard (hop : node.op = .restoreContent inode p blob)
    (h : node.hasHard = false) :
    disposition none policy live node = .dispatch := by
  have heff : effectiveConflict live node = none := by
    unfold effectiveConflict
    split
    · rename_i detail hc
      simp [hasHard, hc, isHard] at h
    · rw [hop]; rfl
  simp [disposition, filteredOut, hop, heff]

theorem not_neverRestores_of_unseen {ev : CaptureEvent} {fileMeta : FileMetadata}
    {source : FilePreImageSource} (href : command.refusal = none) (hev : ev ∈ liveEvents events)
    (hkind : ev.kind = .filePreImage inode p blob fileMeta post source)
    (hsrc : source ≠ .shimFlagsPreMutation)
    (hskip : skipsEvent (classify order events probe) ev = false)
    (hdead : (classify order events probe).deadSource p = none)
    (hunseen : ¬ DriftSeen inode p blob post probe store (classify order events probe)) :
    ¬ NeverRestores r order command events probe store p := by
  intro hnever
  have hnode : _ ∈ planNodes r order events probe store :=
    restoreContent_mem_planNodes hev hskip hkind hsrc hdead
  have hnotHard : (fresh (.restoreContent inode p blob) (preImageConflict inode p blob
      post probe store (classify order events probe))).hasHard = false := by
    simpa [hasHard] using mt preImageConflict_hard_iff.mp hunseen
  have hskipPolicy : ConflictPolicy.skip ≠ .abort := by decide
  obtain ⟨c, hc, hop⟩ := exists_call_of_mem Runtime.accepting false () hskipPolicy hnode
    (fun _ => disposition_restoreContent_of_not_hard rfl hnotHard)
  refine hnever Unit Runtime.accepting none false .skip () _ (by decide) ⟨inode, blob, rfl⟩
    ⟨c, ?_, hop⟩
  rwa [plan_nodes_of_not_refused href, calls_assignCohorts]

theorem neverRestores_of_refused (href : command.refusal ≠ none) :
    NeverRestores r order command events probe store p := by
  obtain ⟨entry, hentry⟩ := Option.ne_none_iff_exists'.mp href
  rintro σ rt filter dryRun policy s op - ⟨inode, blob, rfl⟩ ⟨c, hc, hop⟩
  obtain ⟨node, hnode, -, hnop, -⟩ := mem_calls hc
  rw [plan_nodes_of_refused hentry, mem_singleton] at hnode
  rw [hnop, hnode] at hop
  cases hop

/-- **Drift guard.** No run under `Abort` or `Skip` dispatches a content restore on `p` exactly
when the command is refused, or every pre-image of `p` that is acted on (complete, not of a
transient path, not of a live or dead alias) gets as far as the hash comparison and fails it. -/
theorem neverRestores_iff (p : PathBuf) :
    NeverRestores r order command events probe store p ↔ command.refusal ≠ none ∨
      ∀ ev ∈ events, ev.isPartial = false → ∀ inode blob fileMeta post source,
        ev.kind = .filePreImage inode p blob fileMeta post source →
        source ≠ .shimFlagsPreMutation →
        p ∉ (classify order events probe).transientPaths →
        p ∉ (classify order events probe).hardlinkLivePaths →
        (classify order events probe).deadSource p = none →
        DriftSeen inode p blob post probe store (classify order events probe) := by
  constructor
  · intro hnever
    by_cases href : command.refusal = none
    · right
      intro ev hev hcomplete inode blob fileMeta post source hkind hsrc htrans hlive hdead
      by_contra hunseen
      have hskip : skipsEvent (classify order events probe) ev = false :=
        (skipsEvent_preImage hkind hsrc).mpr ⟨htrans, hlive⟩
      exact not_neverRestores_of_unseen href (mem_liveEvents.mpr ⟨hev, hcomplete⟩) hkind hsrc
        hskip hdead hunseen hnever
    · exact .inl href
  · rintro (href | hseen)
    · exact neverRestores_of_refused href
    · by_cases href : command.refusal = none
      swap
      · exact neverRestores_of_refused href
      rintro σ rt filter dryRun policy s op hforce ⟨inode, blob, rfl⟩ ⟨c, hc, hop⟩
      rw [plan_nodes_of_not_refused href, calls_assignCohorts] at hc
      obtain ⟨node, hnode, hdisp, hnop, -⟩ := mem_calls hc
      obtain ⟨ev, hev, hskip, hemit⟩ := mem_planNodes.mp hnode
      obtain ⟨fileMeta, post, source, hkind, hsrc, hdead, hconf⟩ :=
        restoreContent_mem_emit hemit (hnop.symm.trans hop)
      obtain ⟨hmem, hcomplete⟩ := mem_liveEvents.mp hev
      obtain ⟨htrans, hlive⟩ := (skipsEvent_preImage hkind hsrc).mp hskip
      have hhard : node.hasHard = true := by
        rw [hasHard, hconf]
        exact preImageConflict_hard_iff.mpr
          (hseen ev hmem hcomplete _ _ _ _ _ hkind hsrc htrans hlive hdead)
      exact disposition_of_hasHard hhard hforce hdisp

end PreImages

section ReplacedFile

/-- `sed -i` on `/f`: one pre-image of inode 10 with the hash of the written content. -/
def editedFile : List CaptureEvent :=
  [{ id := ⟨1⟩, command := ⟨0, 1⟩, ts := ⟨1, 0⟩, isPartial := false,
     kind := .filePreImage ⟨1, 10⟩ (ofString "/f") ⟨1⟩ (plainMeta 3) (some ⟨2⟩) .other }]

/-- Later an editor saved `/f` by rename: another inode, another content. -/
def savedByRename : StateProbe where
  stat := fun p => if p = ofString "/f" then some ⟨⟨1, 11⟩, plainMeta 3⟩ else none
  contentHash := fun p => if p = ofString "/f" then some ⟨3⟩ else none

/-- The inode mismatch hides the drift, and the later edit is overwritten. -/
theorem drift_hidden_by_inode_mismatch :
    Drifted editedFile savedByRename (ofString "/f") ∧
      ¬ NeverRestores silent .insertion plainCommand editedFile savedByRename fullStore
        (ofString "/f") := by
  refine ⟨⟨_, mem_singleton_self _, _, _, _, _, _, _, rfl, by decide, rfl, by decide⟩, ?_⟩
  have hev : editedFile.head (by decide) ∈ liveEvents editedFile :=
    mem_liveEvents.mpr ⟨by decide, rfl⟩
  refine not_neverRestores_of_unseen rfl hev rfl (by decide) (by decide) (by decide) ?_
  rintro ⟨hpath, -, -⟩
  revert hpath
  unfold PathCheckPasses
  decide

end ReplacedFile

/-! ## Loss -/

section Loss

variable (r : Renderers) (order : HashOrder) (command : CommandRecord)
  (events : List CaptureEvent) (probe : StateProbe) (store : PlannerStore)

/-- The plan restores `p` from `blob`. -/
def RestoresBlob (p : PathBuf) (blob : BlobHash) : Prop :=
  ∃ node ∈ (plan r order command events probe store).nodes, ∃ inode,
    node.op = .restoreContent inode p blob

/-- `p` is gone and the plan links it back to a name that still is the inode some `Unlink` of
`p` recorded. -/
def RelinksGonePath (p : PathBuf) : Prop :=
  probe.stat p = none ∧ ∃ node ∈ (plan r order command events probe store).nodes, ∃ source,
      node.op = .createHardlink source p ∧
        ∃ ev ∈ events, ∃ inode kind mode, ev.kind = .treeOp (.unlink inode p kind mode) ∧
          probe.hasInode source inode = true

/-- A pre-image of `p` with content `blob` is answered by the plan. -/
def PreImageAnswered (p : PathBuf) (blob : BlobHash) : Prop :=
  RestoresBlob r order command events probe store p blob ∨
    RelinksGonePath r order command events probe store p

variable {r order command events probe store} {p source : PathBuf}

section

variable (href : command.refusal = none)

include href

theorem mem_plan_nodes_op {op : InverseOp} :
    (∃ node ∈ (plan r order command events probe store).nodes, node.op = op) ↔
      ∃ node ∈ planNodes r order events probe store, node.op = op := by
  have hmap := assignCohorts_map_of_ignores (fun _ _ => rfl : ∀ (node : PlanNode) (c : Nat),
    PlanNode.op { node with cohort := c } = node.op) (planNodes r order events probe store)
  rw [plan_nodes_of_not_refused href]
  simp only [← mem_map, hmap]

theorem not_restoresBlob_of_dead
    (hdead : (classify order events probe).deadSource p = some source) :
    ¬ RestoresBlob r order command events probe store p blob := by
  rintro ⟨node, hnode, inode, hop⟩
  obtain ⟨node', hnode', hop'⟩ := (mem_plan_nodes_op href).mp ⟨node, hnode, hop⟩
  obtain ⟨ev, -, -, hemit⟩ := mem_planNodes.mp hnode'
  obtain ⟨_, _, _, -, -, hnone, -⟩ := restoreContent_mem_emit hemit hop'
  rw [hdead] at hnone
  cases hnone

theorem not_relinks_of_atomic (hatomic : p ∈ (classify order events probe).atomicReplacePaths) :
    ¬ RelinksGonePath r order command events probe store p := by
  rintro ⟨-, node, hnode, source, hop, -⟩
  obtain ⟨node', hnode', hop'⟩ := (mem_plan_nodes_op href).mp ⟨node, hnode, hop⟩
  obtain ⟨ev, -, -, hemit⟩ := mem_planNodes.mp hnode'
  obtain ⟨_, _, _, -, hnot, -⟩ := createHardlink_mem_emit hemit hop'
  exact hnot hatomic

theorem relinks_of_dead (htrans : p ∉ (classify order events probe).transientPaths)
    (hlive : p ∉ (classify order events probe).hardlinkLivePaths)
    (hdead : (classify order events probe).deadSource p = some source) (hgone : probe.stat p = none)
    (hatomic : p ∉ (classify order events probe).atomicReplacePaths) :
    RelinksGonePath r order command events probe store p := by
  obtain ⟨inode, hunl, -, hsrc⟩ := deadSource_spec hdead
  obtain ⟨ev, hev, kind, mode, hkind, -⟩ := mem_unlinkedInodes.mp hunl
  have hnode : fresh (.createHardlink source p) none ∈ planNodes r order events probe store := by
    refine mem_planNodes.mpr ⟨ev, hev, ?_, ?_⟩
    · exact (skipsEvent_of_path (by simp [eventPath, hkind])
        (by simp [isFlagsOnlyEvent, hkind])).mpr ⟨htrans, hlive⟩
    · simp [emitForEvent, hkind, emitForTreeOp, hatomic, hdead, hgone]
  obtain ⟨node, hmem, hop⟩ := (mem_plan_nodes_op href).mpr ⟨_, hnode, rfl⟩
  exact ⟨hgone, node, hmem, source, hop, ev, (mem_liveEvents.mp hev).1, inode, kind, mode, hkind,
    hsrc⟩

end

/-- **No silent loss, exactly.** A complete content pre-image of a path that is neither transient
nor a live alias is answered by the plan exactly when the command is not refused and the path is
not a dead alias, or is one that is gone and was not also classified atomic-replace. -/
theorem preImageAnswered_iff {p : PathBuf} {ev : CaptureEvent} {inode : InodeRef}
    {blob : BlobHash} {fileMeta : FileMetadata} {post : Option BlobHash}
    {source : FilePreImageSource} (hev : ev ∈ events) (hcomplete : ev.isPartial = false)
    (hkind : ev.kind = .filePreImage inode p blob fileMeta post source)
    (hsrc : source ≠ .shimFlagsPreMutation)
    (htrans : p ∉ (classify order events probe).transientPaths)
    (hlive : p ∉ (classify order events probe).hardlinkLivePaths) :
    PreImageAnswered r order command events probe store p blob ↔
      command.refusal = none ∧ ((classify order events probe).deadSource p = none ∨
        (probe.stat p = none ∧ p ∉ (classify order events probe).atomicReplacePaths)) := by
  cases href : command.refusal with
  | some entry =>
    -- a refused command's plan is one `Refuse` node
    simp only [PreImageAnswered, RestoresBlob, RelinksGonePath, plan_nodes_of_refused href,
      mem_singleton]
    simp
  | none =>
    cases hdead : (classify order events probe).deadSource p with
    | none =>
      have hnode : _ ∈ planNodes r order events probe store :=
        restoreContent_mem_planNodes (mem_liveEvents.mpr ⟨hev, hcomplete⟩)
          ((skipsEvent_preImage hkind hsrc).mpr ⟨htrans, hlive⟩) hkind hsrc hdead
      obtain ⟨node, hmem, hop⟩ := (mem_plan_nodes_op href).mpr ⟨_, hnode, rfl⟩
      exact ⟨fun _ => ⟨rfl, .inl rfl⟩, fun _ => .inl ⟨node, hmem, inode, hop⟩⟩
    | some src =>
      simp only [true_and, reduceCtorEq, false_or]
      constructor
      · rintro (hrestore | hrelink)
        · exact absurd hrestore (not_restoresBlob_of_dead href hdead)
        · exact ⟨hrelink.1, fun hatomic => not_relinks_of_atomic href hatomic hrelink⟩
      · rintro ⟨hgone, hatomic⟩
        exact .inr (relinks_of_dead href htrans hlive hdead hgone hatomic)

/-- The equivalence at the edited file of the drift section: its restore is in the plan. -/
theorem preImageAnswered_editedFile :
    PreImageAnswered silent .insertion plainCommand editedFile savedByRename fullStore
      (ofString "/f") ⟨1⟩ :=
  have hev : editedFile.head (by decide) ∈ editedFile := by decide
  (preImageAnswered_iff hev rfl rfl (by decide) (by decide) (by decide)).mpr ⟨rfl, .inl (by decide)⟩

end Loss

section RelinkedAlias

/-- `/a` and `/b` were names of inode 5. Both unlinks are journaled, `/a` with its content. -/
def aliasedUnlinks : List CaptureEvent :=
  [{ id := ⟨1⟩, command := ⟨0, 1⟩, ts := ⟨1, 0⟩, isPartial := false,
     kind := .filePreImage ⟨1, 5⟩ (ofString "/a") ⟨1⟩ (plainMeta 3) none .other },
   { id := ⟨2⟩, command := ⟨0, 1⟩, ts := ⟨2, 0⟩, isPartial := false,
     kind := .treeOp (.unlink ⟨1, 5⟩ (ofString "/a") .regular 0o100644) },
   { id := ⟨3⟩, command := ⟨0, 1⟩, ts := ⟨3, 0⟩, isPartial := false,
     kind := .treeOp (.unlink ⟨1, 5⟩ (ofString "/b") .regular 0o100644) }]

/-- At undo `/b` still is inode 5, and another file has taken the name `/a`. -/
def nameTakenOver : StateProbe where
  stat := fun p =>
    if p = ofString "/a" then some ⟨⟨1, 9⟩, plainMeta 3⟩
    else if p = ofString "/b" then some ⟨⟨1, 5⟩, plainMeta 3⟩ else none
  contentHash := fun _ => none

/-- `/a` exists with a different inode, and its pre-image is dropped without a restore. -/
theorem dead_alias_preimage_dropped :
    ofString "/a" ∉ (classify .insertion aliasedUnlinks nameTakenOver).transientPaths ∧
      ofString "/a" ∉ (classify .insertion aliasedUnlinks nameTakenOver).hardlinkLivePaths ∧
      ¬ PreImageAnswered silent .insertion plainCommand aliasedUnlinks nameTakenOver
        fullStore (ofString "/a") ⟨1⟩ := by
  refine ⟨by decide, by decide, ?_⟩
  have hdead : (classify .insertion aliasedUnlinks nameTakenOver).deadSource
      (ofString "/a") = some (ofString "/b") := by decide
  rintro (hrestore | hrelink)
  · exact not_restoresBlob_of_dead rfl hdead hrestore
  · exact absurd hrelink.1 (by decide)

end RelinkedAlias

/-! ## Missing blobs -/

section MissingBlobs

variable (r : Renderers) (order : HashOrder) (command : CommandRecord)
  (events : List CaptureEvent) (probe : StateProbe) (store : PlannerStore)

/-- Each content restore of the plan refers to a blob of the store or carries a `Missing`
conflict. -/
def MissingAnnounced : Prop :=
  ∀ node ∈ (plan r order command events probe store).nodes, ∀ inode p blob,
    node.op = .restoreContent inode p blob →
      store.blobSizeHint blob ≠ none ∨ ∃ detail, node.conflict = some (.missing detail)

/-- The path is another inode now, and the planner looks at the inode of this path. -/
def InodeReplaced (inode : InodeRef) (p : PathBuf) (probe : StateProbe)
    (cls : EventClassification) : Prop :=
  p ∉ cls.atomicReplacePaths ∧ ∃ s, probe.stat p = some s ∧ s.inode ≠ inode

variable {r order command events probe store}

theorem preImageConflict_missing_iff {p : PathBuf} {cls : EventClassification}
    (hblob : store.blobSizeHint blob = none) :
    (∃ detail, preImageConflict inode p blob post probe store cls = some (.missing detail)) ↔
      ¬ InodeReplaced inode p probe cls := by
  unfold preImageConflict preImagePathConflict filePathConflict InodeReplaced
  by_cases hatomic : p ∈ cls.atomicReplacePaths
  · -- any inode will do, so the blob is looked for unless the path cannot be restored at all
    cases hstat : probe.stat p <;> cases hparent : probe.parentAlive p <;> simp [hatomic, hblob]
  · cases hstat : probe.stat p with
    | none => simp [hatomic]
    | some s => by_cases hs : s.inode = inode <;> simp [hatomic, hblob, hs]

theorem not_missingAnnounced_of_replaced {ev : CaptureEvent} {p : PathBuf} {fileMeta : FileMetadata}
    {source : FilePreImageSource} (href : command.refusal = none) (hev : ev ∈ liveEvents events)
    (hskip : skipsEvent (classify order events probe) ev = false)
    (hkind : ev.kind = .filePreImage inode p blob fileMeta post source)
    (hsrc : source ≠ .shimFlagsPreMutation)
    (hdead : (classify order events probe).deadSource p = none)
    (hblob : store.blobSizeHint blob = none)
    (hreplaced : InodeReplaced inode p probe (classify order events probe)) :
    ¬ MissingAnnounced r order command events probe store := by
  intro hall
  have hnode : _ ∈ planNodes r order events probe store :=
    restoreContent_mem_planNodes hev hskip hkind hsrc hdead
  have hkept := (forall_plan_nodes _ (fun _ _ => rfl) href).mp hall _ hnode inode p blob rfl
  rcases hkept with hthere | hmissing
  · exact hthere hblob
  · exact (preImageConflict_missing_iff hblob).mp hmissing hreplaced

/-- **Announced exactly when** the command is refused, or no pre-image that is acted on has lost
both its blob and its inode. -/
theorem missingAnnounced_iff :
    MissingAnnounced r order command events probe store ↔ command.refusal ≠ none ∨
      ∀ ev ∈ events, ev.isPartial = false → ∀ inode p blob fileMeta post source,
        ev.kind = .filePreImage inode p blob fileMeta post source →
        source ≠ .shimFlagsPreMutation →
        p ∉ (classify order events probe).transientPaths →
        p ∉ (classify order events probe).hardlinkLivePaths →
        (classify order events probe).deadSource p = none → store.blobSizeHint blob = none →
        ¬ InodeReplaced inode p probe (classify order events probe) := by
  cases href : command.refusal with
  | some entry =>
    simp only [MissingAnnounced, plan_nodes_of_refused href, mem_singleton]
    simp [fresh]
  | none =>
    simp only [ne_eq, not_true_eq_false, false_or]
    constructor
    · intro hall ev hev hcomplete inode p blob fileMeta post source hkind hsrc htrans hlive hdead
        hblob hreplaced
      exact not_missingAnnounced_of_replaced href (mem_liveEvents.mpr ⟨hev, hcomplete⟩)
        ((skipsEvent_preImage hkind hsrc).mpr ⟨htrans, hlive⟩) hkind hsrc hdead hblob hreplaced hall
    · intro hkept
      refine (forall_plan_nodes _ (fun _ _ => rfl) href).mpr ?_
      intro node hnode inode p blob hop
      rcases mem_planNodes.mp hnode with ⟨ev, hev, hskip, hemit⟩
      rcases restoreContent_mem_emit hemit hop with
        ⟨fileMeta, post, source, hkind, hsrc, hdead, hconf⟩
      rcases mem_liveEvents.mp hev with ⟨hmem, hcomplete⟩
      rcases (skipsEvent_preImage hkind hsrc).mp hskip with ⟨htrans, hlive⟩
      by_cases hblob : store.blobSizeHint blob = none
      · rw [hconf]
        exact .inr ((preImageConflict_missing_iff hblob).mpr
          (hkept ev hmem hcomplete inode p blob _ _ _ hkind hsrc htrans hlive hdead hblob))
      · exact .inl hblob

/-- The edited file, saved by rename since, after the store has lost the blob: the restore is
planned with the conflict of the inode only. -/
theorem missing_blob_hidden_by_inode :
    ¬ MissingAnnounced silent .insertion plainCommand editedFile savedByRename
      ⟨fun _ => none⟩ := by
  have hev : editedFile.head (by decide) ∈ liveEvents editedFile :=
    mem_liveEvents.mpr ⟨by decide, rfl⟩
  exact not_missingAnnounced_of_replaced rfl hev (by decide) rfl (by decide) (by decide) rfl
    ⟨by decide, _, rfl, by decide⟩

end MissingBlobs

end ShitUndo
