import ShitUndo.Lib.UndoLog
import ShitUndo.ShimListener
import ShitUndo.Effects

/-!
# Commands that change metadata only

A command whose only notifications are metadata calls, from the shim in its process to the plan
and the run of `shit undo`. Undo should leave the bytes of every file alone.

* `MetadataStep`: one intercepted call: the shim captures and notifies, the daemon journals, the
  kernel makes the call or refuses it.

The shim sends no bytes with an attribute call, and the planner restores what it was sent.
-/

namespace ShitUndo

open List Option PathBuf Host

open UndoLog (Runs)

/-! ## Metadata calls -/

/-- A path argument that leads to the regular file `target`: that is its canonical path, and unless
the argument names a symlink it is the name the kernel finds. -/
structure ShimEnv.Names (env : ShimEnv) (fs : Fs) (path : String) (target : PathBuf) : Prop where
  canonical : ofString (env.canonicalOr fs path) = target
  regular : fs.kindAt target = some .regular
  own : ∀ bytes, fs.fileAt (env.entry fs path) = some bytes → env.entry fs path = target

/-- What the daemon stores can be read back, under its hash. -/
def ListenerEnv.ContentAddressed (env : ListenerEnv) (h : Host) : Prop :=
  ∀ bytes blob stat, env.blobPut bytes = .ok (blob, stat) →
    blob = h.blake3 bytes ∧ h.readBlob blob = .ok bytes

/-- The kernel refuses a metadata call or changes the metadata of one inode. -/
def MetadataChanged (fs fs' : Fs) : Prop :=
  fs' = fs ∨ ∃ i f, (∀ n, (f n).kind = n.kind ∧ (f n).content = n.content) ∧
    fs' = fs.modifyInode i f

/-- An intercepted call, the file it is about, and what was journaled for it. -/
structure Notified where
  call : MetadataCall
  target : PathBuf
  events : List CaptureEvent

/-- One metadata call of a command: the shim looks and notifies, the daemon journals, then the
call is made. -/
inductive MetadataStep (h : Host) (command : CommandId) : Fs → List Notified → Fs → Prop
  | call {fs fs' : Fs} {env : ShimEnv} {listener : ListenerEnv} {call : MetadataCall}
      {target : PathBuf} {resolved : Option CommandId} {ts : TimePoint}
      (hnames : env.Names fs call.path target)
      (hresolved : ∀ id, resolved = some id → id = command)
      (hstored : listener.ContentAddressed h) (hkernel : MetadataChanged fs fs') :
      MetadataStep h command fs
        [⟨call, target, (call.notify env h fs).toList.flatMap fun note =>
          ingestNotification listener note resolved ts⟩] fs'

/-- The journal of a command. -/
def journalOfCalls (log : List Notified) : List CaptureEvent := log.flatMap Notified.events

/-! ## The property -/

/-- Undo leaves the bytes of every file the calls were about alone: on every machine with the same
blobs, under every filter and policy, whatever fails on the way. -/
def ContentUntouched (h : Host) (r : Renderers) (order : HashOrder) (store : PlannerStore)
    (command : CommandRecord) (log : List Notified) (fs' : Fs) : Prop :=
  ∀ h' : Host, h'.readBlob = h.readBlob → h'.HelperKeepsFiles → ∀ filter policy, ∀ e ∈ log,
    (run (fileRuntime h') filter
      (plan r order command (journalOfCalls log) (fs'.probe h') store) false policy fs').2.fileAt
        e.target = fs'.fileAt e.target

/-- Every attribute call that was journaled was about an empty file. -/
def AttributesOfEmptyFiles (log : List Notified) (fs : Fs) : Prop :=
  ∀ e ∈ log, e.call.syscall.isXattr = true → e.events ≠ [] → fs.fileAt e.target = some []

/-! ## What is journaled -/

section Journal

variable {h : Host} {command : CommandId} {fs fs' : Fs} {entries log : List Notified} {e : Notified}
  {ev : CaptureEvent}

theorem MetadataChanged.sameFiles (hchange : MetadataChanged fs fs') : fs'.SameFiles fs := by
  rcases hchange with rfl | ⟨i, f, hf, rfl⟩
  · rfl
  · exact Fs.sameFiles_modifyInode (fun n => (hf n).1) (fun n => (hf n).2)

theorem MetadataStep.sameFiles (hstep : MetadataStep h command fs entries fs') :
    fs'.SameFiles fs := by
  cases hstep with
  | call _ _ _ hkernel => exact hkernel.sameFiles

/-- An event a metadata call leaves: a marker, flags, the bytes of the file, or no bytes at all. -/
inductive EventOfCall (h : Host) (fs : Fs) (e : Notified) (ev : CaptureEvent) : Prop
  | refused {cls : String} {path : PathBuf} {detail : String}
      (hcall : e.call.syscall.isXattr = false) (hkind : ev.kind = .captureRefused cls path detail)
  | flags {inode : InodeRef} {path : PathBuf} {blob : BlobHash} {fileMeta : FileMetadata}
      (hcall : e.call.syscall.isXattr = false)
      (hkind : ev.kind = .filePreImage inode path blob fileMeta none .shimFlagsPreMutation)
  | content {inode : InodeRef} {blob : BlobHash} {fileMeta : FileMetadata} {bytes : Bytes}
      (hcall : e.call.syscall.isXattr = false)
      (hkind : ev.kind = .filePreImage inode e.target blob fileMeta none .other)
      (hread : h.readBlob blob = .ok bytes) (hfile : fs.fileAt e.target = some bytes)
  | noBytes {inode : InodeRef} {blob : BlobHash} {fileMeta : FileMetadata}
      (hcall : e.call.syscall.isXattr = true)
      (hkind : ev.kind = .filePreImage inode e.target blob fileMeta none .other)
      (hread : h.readBlob blob = .ok [])

theorem EventOfCall.of_sameFiles (hev : EventOfCall h fs' e ev) (hsame : fs'.SameFiles fs) :
    EventOfCall h fs e ev := by
  cases hev with
  | refused hcall hkind => exact .refused hcall hkind
  | flags hcall hkind => exact .flags hcall hkind
  | content hcall hkind hread hfile =>
    rw [hsame.files] at hfile
    exact .content hcall hkind hread hfile
  | noBytes hcall hkind hread => exact .noBytes hcall hkind hread

theorem MetadataStep.eventOfCall (hstep : MetadataStep h command fs entries fs')
    (he : e ∈ entries) :
    fs.kindAt e.target = some .regular ∧
      ∀ ev ∈ e.events, ev.isPartial = false ∧ EventOfCall h fs e ev := by
  cases hstep with
  | call hnames _ hstored _ =>
    rw [mem_singleton] at he
    subst he
    refine ⟨hnames.regular, fun ev hev => ?_⟩
    obtain ⟨note, hnote, hev⟩ := mem_flatMap.mp hev
    obtain ⟨hname, hof⟩ := MetadataCall.notificationOf (mem_toList.mp hnote)
    rcases mem_ingest_metadata hname hev with ⟨hfail, hrefusal⟩ | ⟨pre, hpre, hjournaled⟩
    · -- only a flags call reports a path it could not resolve
      obtain ⟨cls, path, detail, hkind⟩ := hrefusal.recorded
      refine ⟨hrefusal.complete, .refused ?_ hkind⟩
      cases hof with
      | xattr _ hnone _ _ _ => exact absurd hnone hfail
      | flags hcall => exact MetadataSyscall.not_isXattr_of_isFlags hcall
      | content hcall _ _ _ => exact hcall
    · obtain ⟨blob, stat, fileMeta, hput, hkind⟩ := hjournaled.recorded
      obtain ⟨-, hread⟩ := hstored _ _ _ hput
      refine ⟨hjournaled.complete, ?_⟩
      cases hof with
      | xattr hcall _ hpre' hpath hbytes =>
        rw [hpre] at hpre'
        cases hpre'
        rw [MetadataSyscall.not_isFlags_of_isXattr hcall, hpath, hnames.canonical] at hkind
        rw [hbytes] at hread
        exact .noBytes hcall hkind hread
      | flags hcall =>
        rw [hcall] at hkind
        exact .flags (MetadataSyscall.not_isXattr_of_isFlags hcall) hkind
      | content hx hf _ hcaptured =>
        obtain ⟨hpath, hfile⟩ := hcaptured pre hpre
        rw [hf, hpath, hnames.canonical] at hkind
        rw [hnames.own _ hfile] at hfile
        exact .content hx hkind hread hfile

variable (hrun : Runs (MetadataStep h command) fs log fs')

include hrun

theorem sameFiles_of_runs : fs'.SameFiles fs :=
  hrun.invariant (fun s => s.SameFiles fs) (.refl fs) fun _ _ _ hs hstep => hstep.sameFiles.trans hs

/-- **What a whole command leaves in the journal.** -/
theorem eventOfCall_of_runs :
    ∀ e ∈ log, fs.kindAt e.target = some .regular ∧
      ∀ ev ∈ e.events, ev.isPartial = false ∧ EventOfCall h fs e ev := by
  refine hrun.forall_of_step (fun s => s.SameFiles fs) (.refl fs)
    (fun _ _ _ hs hstep => hstep.sameFiles.trans hs) ?_
  intro s entries s' hs hstep e he
  obtain ⟨hreg, hevents⟩ := hstep.eventOfCall he
  refine ⟨by rw [← hs.kinds]; exact hreg, fun ev hev => ?_⟩
  obtain ⟨hcomplete, hof⟩ := hevents ev hev
  exact ⟨hcomplete, hof.of_sameFiles hs⟩

theorem noTreeOps_of_runs : NoTreeOps (journalOfCalls log) := by
  intro ev hev op hop
  obtain ⟨e, he, hev⟩ := mem_flatMap.mp hev
  obtain ⟨-, hof⟩ := (eventOfCall_of_runs hrun e he).2 ev hev
  cases hof with
  | refused _ hkind | flags _ hkind | content _ hkind _ _ | noBytes _ hkind _ =>
    cases hop.symm.trans hkind

end Journal

/-! ## What is planned -/

section Planned

variable {h h' : Host} {command : CommandId} {fs fs' u : Fs} {log : List Notified}
  {r : Renderers} {order : HashOrder} {store : PlannerStore} {live : StateProbe} {node : PlanNode}

/-- The ops of the plan: nothing on a path, metadata, the bytes a file has, or no bytes. -/
inductive InverseOf (h : Host) (fs : Fs) (log : List Notified) : InverseOp → Prop
  | noPath {op : InverseOp} (hop : op.primaryPath = none) : InverseOf h fs log op
  | flags (inode : InodeRef) (path : PathBuf) (flags : Nat) :
      InverseOf h fs log (.restoreFlags inode path flags)
  | metadata (inode : InodeRef) (path : PathBuf) (target : FileMetadata) :
      InverseOf h fs log (.restoreMetadata inode path target)
  | content {e : Notified} {inode : InodeRef} {blob : BlobHash} {bytes : Bytes}
      (hread : h.readBlob blob = .ok bytes) (hfile : fs.fileAt e.target = some bytes) :
      InverseOf h fs log (.restoreContent inode e.target blob)
  | noBytes {e : Notified} {inode : InodeRef} {blob : BlobHash} (he : e ∈ log)
      (hcall : e.call.syscall.isXattr = true) (hjournaled : e.events ≠ [])
      (hread : h.readBlob blob = .ok []) (hreg : fs.kindAt e.target = some .regular) :
      InverseOf h fs log (.restoreContent inode e.target blob)

/-- **What the planner makes of the journal.** -/
theorem inverseOf (hrun : Runs (MetadataStep h command) fs log fs')
    (hnode : node ∈ planNodes r order (journalOfCalls log) live store) :
    InverseOf h fs log node.op := by
  have hna : NoAliases (classify order (journalOfCalls log) live) :=
    (noTreeOps_of_runs hrun).noAliases
  obtain ⟨ev, hlive, -, hemit⟩ := mem_planNodes.mp hnode
  obtain ⟨e, he, hev⟩ := mem_flatMap.mp (mem_liveEvents.mp hlive).1
  obtain ⟨hreg, hevents⟩ := eventOfCall_of_runs hrun e he
  obtain ⟨-, hof⟩ := hevents ev hev
  cases hof with
  | refused _ hkind =>
    exact .noPath (emit_primaryPath_of_not_file (by rw [hkind]; rfl) hemit)
  | flags _ hkind =>
    obtain ⟨i, q, value, hop⟩ := restoreFlags_of_mem_emit hkind hemit
    rw [hop]
    exact .flags i q value
  | content _ hkind hread hfile =>
    rw [restoreContent_emitted hkind (by decide) (hna.dead _)] at hemit
    rcases mem_pair.mp hemit with rfl | rfl
    · exact .content hread hfile
    · exact .metadata _ _ _
  | noBytes hcall hkind hread =>
    rw [restoreContent_emitted hkind (by decide) (hna.dead _)] at hemit
    rcases mem_pair.mp hemit with rfl | rfl
    · exact .noBytes he hcall (ne_nil_of_mem hev) hread hreg
    · exact .metadata _ _ _

theorem exists_restore_of_nothing (hrun : Runs (MetadataStep h command) fs log fs') {e : Notified}
    (he : e ∈ log) (hcall : e.call.syscall.isXattr = true) (hjournaled : e.events ≠ []) :
    ∃ node ∈ planNodes r order (journalOfCalls log) live store, ∃ inode blob,
      node.op = .restoreContent inode e.target blob ∧ node.hasHard = false ∧
        h.readBlob blob = .ok [] := by
  obtain ⟨ev, hev⟩ := exists_mem_of_ne_nil _ hjournaled
  obtain ⟨hcomplete, hof⟩ := (eventOfCall_of_runs hrun e he).2 ev hev
  have hno := noTreeOps_of_runs hrun
  have hna : NoAliases (classify order (journalOfCalls log) live) := hno.noAliases
  cases hof with
  | refused hnot _ | flags hnot _ | content hnot _ _ _ => cases hcall.symm.trans hnot
  | noBytes _ hkind hread =>
    have hlive : ev ∈ liveEvents (journalOfCalls log) :=
      mem_liveEvents.mpr ⟨mem_flatMap.mpr ⟨e, he, hev⟩, hcomplete⟩
    have hskip : skipsEvent (classify order (journalOfCalls log) live) ev = false :=
      skipsEvent_of_noAliases (p := e.target) hna (by simp [eventPath, hkind])
        (hno.not_transient e.target)
    have hemit : (emitForEvent r ev live store (classify order (journalOfCalls log) live)).nodes =
        [_, _] := restoreContent_emitted hkind (by decide) (hna.dead _)
    have hmem := mem_planNodes.mpr ⟨ev, hlive, hskip, by rw [hemit]; exact mem_cons_self⟩
    exact ⟨_, hmem, _, _, rfl, preImageConflict_of_no_post _ _ _ _ _ _, hread⟩

end Planned

/-! ## Running the plan -/

section Running

variable {h h' : Host} {command : CommandRecord} {fs fs' u : Fs} {log : List Notified}
  {r : Renderers} {order : HashOrder} {store : PlannerStore} {op : InverseOp} {p : PathBuf}
  {policy : ConflictPolicy}

theorem InverseOf.sameFiles_or_restores (hop : InverseOf h fs log op)
    (hhelper : h'.HelperKeepsFiles) (policy : ConflictPolicy) (u : Fs) :
    ((fileRuntime h').execute op false policy u).2.SameFiles u ∨
      ∃ p blob, fs.kindAt p = some .regular ∧
        ((fileRuntime h').execute op false policy u).2 = (restoreContentInner h' p blob u).2 ∧
        ((∃ bytes, h.readBlob blob = .ok bytes ∧ fs.fileAt p = some bytes) ∨
          h.readBlob blob = .ok [] ∧
            ∃ e ∈ log, e.call.syscall.isXattr = true ∧ e.events ≠ [] ∧ e.target = p) := by
  have hrestores : ∀ inode p blob,
      ((fileRuntime h').execute (.restoreContent inode p blob) false policy u).2 =
        (restoreContentInner h' p blob u).2 := fun inode p blob => by
    rw [fileRuntime_execute rfl, applyFileOp, stepOutcome_snd]
  cases hop with
  | noPath hop =>
    rw [fileRuntime_execute_of_no_path hop]
    exact .inl (.refl u)
  | flags inode path value =>
    rw [fileRuntime_execute rfl, applyFileOp, stepOutcome_snd]
    exact .inl (restoreFlagsValue_attributed h' path value u).sameFiles
  | metadata inode path target =>
    rw [fileRuntime_execute rfl, applyFileOp]
    exact .inl (applyRestoreMetadata_sameFiles hhelper path target u)
  | content hread hfile =>
    exact .inr ⟨_, _, Fs.kindAt_of_fileAt hfile, hrestores _ _ _, .inl ⟨_, hread, hfile⟩⟩
  | noBytes he hcall hjournaled hread hreg =>
    exact .inr ⟨_, _, hreg, hrestores _ _ _, .inr ⟨hread, _, he, hcall, hjournaled, rfl⟩⟩

section

variable (hwf : fs.WellFormed)

include hwf

theorem InverseOf.execute_sameFiles (hop : InverseOf h fs log op)
    (hempty : AttributesOfEmptyFiles log fs) (hblobs : h'.readBlob = h.readBlob)
    (hhelper : h'.HelperKeepsFiles) (hu : u.SameFiles fs) :
    ((fileRuntime h').execute op false policy u).2.SameFiles fs := by
  rcases hop.sameFiles_or_restores hhelper policy u with hsame | ⟨p, blob, -, hexec, hstored⟩
  · exact hsame.trans hu
  obtain ⟨bytes, hread, hfile⟩ : ∃ bytes, h.readBlob blob = .ok bytes ∧
      fs.fileAt p = some bytes := by
    rcases hstored with hstored | ⟨hread, e, he, hcall, hjournaled, rfl⟩
    · exact hstored
    · exact ⟨[], hread, hempty e he hcall hjournaled⟩
  rw [← hblobs] at hread
  rw [← hu.files] at hfile
  rw [hexec]
  exact (restoreContentInner_sameFiles (hwf.of_kindAt_eq hu.kinds) hfile hread).trans hu

theorem InverseOf.execute_kindAt (hop : InverseOf h fs log op)
    (hhelper : h'.HelperKeepsFiles) (hu : u.kindAt = fs.kindAt) :
    ((fileRuntime h').execute op false policy u).2.kindAt = fs.kindAt := by
  rcases hop.sameFiles_or_restores hhelper policy u with hsame | ⟨p, blob, hreg, hexec, -⟩
  · rw [hsame.kinds, hu]
  · rw [← hu] at hreg
    rw [hexec, restoreContentInner_kindAt (hwf.of_kindAt_eq hu) hreg, hu]

/-! ### A disk that fills up

The bytes of a later restore may make up for those of an earlier one, so an attribute call shows
for certain only where the later restore fails. -/

/-- The machine, but its disk is full as soon as the file at `p` is empty, and its helper refuses
everything. -/
def Host.fullOnceEmpty (h : Host) (p : PathBuf) : Host :=
  { h with
    deny := fun c _ fs => if c = .create ∧ fs.fileAt p = some [] then some .enospc else none
    routerChown := fun _ _ _ _ => .permissionDenied }

omit hwf in
theorem Host.fullOnceEmpty_helper (h : Host) (p : PathBuf) :
    (h.fullOnceEmpty p).HelperKeepsFiles := fun _ _ _ _ _ happlied => nomatch happlied

theorem InverseOf.execute_stays_empty (hop : InverseOf h fs log op)
    (hu : u.kindAt = fs.kindAt) (hempty : u.fileAt p = some []) :
    ((fileRuntime (h.fullOnceEmpty p)).execute op false policy u).2.fileAt p = some [] := by
  rcases hop.sameFiles_or_restores (h.fullOnceEmpty_helper p) policy u with
    hsame | ⟨q, blob, hreg, hexec, -⟩
  · rw [hsame.files, hempty]
  · rw [← hu] at hreg
    obtain ⟨habs, hroot, hparent⟩ := (hwf.of_kindAt_eq hu).named_in_dir hreg
    rcases restoreContentInner_cases habs hroot hparent blob with hsame | ⟨⟨_, hallowed⟩, -⟩
    · rw [hexec, hsame, hempty]
    · simp [fullOnceEmpty, hempty] at hallowed

theorem execute_restore_of_nothing {inode : InodeRef} {blob : BlobHash}
    (hreg : fs.kindAt p = some .regular) (hread : h.readBlob blob = .ok [])
    (hu : u.kindAt = fs.kindAt) :
    ((fileRuntime (h.fullOnceEmpty p)).execute (.restoreContent inode p blob) false policy
      u).2.fileAt p = some [] := by
  rw [fileRuntime_execute rfl, applyFileOp, stepOutcome_snd]
  rw [← hu] at hreg
  obtain ⟨habs, hroot, hparent⟩ := (hwf.of_kindAt_eq hu).named_in_dir hreg
  by_cases hempty : u.fileAt p = some []
  · rcases restoreContentInner_cases habs hroot hparent blob with hsame | ⟨⟨_, hallowed⟩, -⟩
    · rw [hsame, hempty]
    · simp [fullOnceEmpty, hempty] at hallowed
  have hallowed : ∀ c q, (h.fullOnceEmpty p).deny c q u = none := fun c q => by
    simp [fullOnceEmpty, hempty]
  have hfile : ∀ n, u.node p = some n → n.kind ≠ .directory := by
    intro n hn hdir
    rw [Fs.kindAt_of_node hn, hdir] at hreg
    cases hreg
  rw [restoreContentInner_eq habs hroot hparent (hallowed .create) (hallowed .rename) hfile hread]
  exact Fs.fileAt_create_self _ _ _ _ _ _

/-! ### The theorem -/

omit hwf in
theorem run_of_refused (h : Host) (filter : PathsFilter) (href : command.refusal ≠ none)
    (events : List CaptureEvent) (live : StateProbe) :
    (run (fileRuntime h) filter (plan r order command events live store) false policy u).2 = u := by
  obtain ⟨entry, hentry⟩ := ne_none_iff_exists'.mp href
  rw [run, plan_nodes_of_refused hentry]
  refine runFrom_invariant (P := fun s => s = u) ?_ rfl
  intro node hnode s hs
  rw [mem_singleton.mp hnode, fileRuntime_execute_of_no_path rfl, hs]

theorem run_sameFiles (hrun : Runs (MetadataStep h command.command) fs log fs')
    (href : command.refusal = none) (hempty : AttributesOfEmptyFiles log fs)
    (hblobs : h'.readBlob = h.readBlob) (hhelper : h'.HelperKeepsFiles) (filter : PathsFilter)
    (policy : ConflictPolicy) :
    (run (fileRuntime h') filter (plan r order command (journalOfCalls log) (fs'.probe h') store)
      false policy fs').2.SameFiles fs := by
  rw [run, plan_nodes_of_not_refused href, runFrom_assignCohorts]
  refine runFrom_invariant (P := fun s : Fs => s.SameFiles fs) ?_ (sameFiles_of_runs hrun)
  intro node hnode s hs
  exact (inverseOf hrun hnode).execute_sameFiles hwf hempty hblobs hhelper hs

theorem run_empties (hrun : Runs (MetadataStep h command.command) fs log fs')
    (href : command.refusal = none) {e : Notified} (he : e ∈ log)
    (hcall : e.call.syscall.isXattr = true) (hjournaled : e.events ≠ []) :
    (run (fileRuntime (h.fullOnceEmpty e.target)) none
      (plan r order command (journalOfCalls log) (fs'.probe (h.fullOnceEmpty e.target)) store)
      false .skip fs').2.fileAt e.target = some [] := by
  rw [run, plan_nodes_of_not_refused href, runFrom_assignCohorts]
  obtain ⟨node, hnode, inode, blob, hop, hhard, hread⟩ :
      ∃ node ∈ planNodes r order (journalOfCalls log) (fs'.probe (h.fullOnceEmpty e.target)) store,
        _ := exists_restore_of_nothing hrun he hcall hjournaled
  have hreg := (eventOfCall_of_runs hrun e he).1
  have hhelper := h.fullOnceEmpty_helper e.target
  -- before the restore only the kinds are known, afterwards also that the file is empty
  refine (runFrom_establishes (P := fun s : Fs => s.kindAt = fs.kindAt)
    (Q := fun s : Fs => s.kindAt = fs.kindAt ∧ s.fileAt e.target = some []) (by decide) hnode
    (fun s => disposition_restoreContent hop hhard) ?_ ?_ ?_ (sameFiles_of_runs hrun).kinds).2
  · intro s hs
    refine ⟨(inverseOf hrun hnode).execute_kindAt hwf hhelper hs, ?_⟩
    rw [hop]
    exact execute_restore_of_nothing hwf hreg hread hs
  · intro n hn s hs
    exact (inverseOf hrun hn).execute_kindAt hwf hhelper hs
  · intro n hn s hs
    exact ⟨(inverseOf hrun hn).execute_kindAt hwf hhelper hs.1,
      (inverseOf hrun hn).execute_stays_empty hwf hs.1 hs.2⟩

end

/-- **Metadata-only commands keep content through undo** exactly if the command is on the refuse
list, so that undo does nothing, or every journaled attribute call was about an empty file. -/
theorem contentUntouched_iff (hrun : Runs (MetadataStep h command.command) fs log fs')
    (hwf : fs.WellFormed) :
    ContentUntouched h r order store command log fs' ↔
      command.refusal ≠ none ∨ AttributesOfEmptyFiles log fs := by
  have hsame := sameFiles_of_runs hrun
  constructor
  · intro huntouched
    by_cases href : command.refusal = none
    · refine .inr fun e he hcall hjournaled => ?_
      have hkept := huntouched (h.fullOnceEmpty e.target) rfl (h.fullOnceEmpty_helper e.target)
        none .skip e he
      rw [run_empties hwf hrun href he hcall hjournaled, hsame.files] at hkept
      exact hkept.symm
    · exact .inl href
  · intro hcond h' hblobs hhelper filter policy e he
    by_cases href : command.refusal = none
    · have hempty := hcond.resolve_left (not_not.mpr href)
      rw [(run_sameFiles hwf hrun href hempty hblobs hhelper filter policy).files, hsame.files]
    · rw [run_of_refused h' filter href]

end Running

/-! ## A concrete command -/

section Tagged

/-- A process in `/` with absolute path arguments. -/
def ShimEnv.sample : ShimEnv where
  disabled := false
  reachable := true
  pid := 7
  nowUnixNanos := 0
  entry := fun _ path => ofString path
  canonicalize := fun _ path => .ok path

/-- A machine whose shim intercepts attribute calls. -/
def Host.sampleMac : Host := { sample with os := .macos }

theorem ListenerEnv.sample_contentAddressed :
    ListenerEnv.sample.ContentAddressed sampleMac := by
  intro bytes blob stat hput
  simp only [ListenerEnv.sample] at hput
  split_ifs at hput with hfits
  cases hput
  exact ⟨rfl, congrArg Except.ok hfits⟩

/-- A call as it is captured there. -/
def sampleCall (call : MetadataCall) (fs : Fs) : Notified :=
  ⟨call, ofString call.path, (call.notify .sample .sampleMac fs).toList.flatMap fun note =>
    ingestNotification .sample note (some plainCommand.command) ⟨1, 0⟩⟩

theorem sampleCall_step (call : MetadataCall) (fs : Fs) {fs' : Fs}
    (hreg : fs.kindAt (ofString call.path) = some .regular) (hkernel : MetadataChanged fs fs') :
    MetadataStep .sampleMac plainCommand.command fs [sampleCall call fs] fs' :=
  .call ⟨rfl, hreg, fun _ _ => rfl⟩ (fun _ hid => (some.inj hid).symm)
    ListenerEnv.sample_contentAddressed hkernel

/-- A file with content and an empty one. -/
def twoFiles : Fs := .ofList [("/f", .file [104, 105]), ("/e", .file [])]

theorem twoFiles_wellFormed : twoFiles.WellFormed := Fs.wellFormed_of_check (by decide)

/-- `xattr -w tag 1` on a path. -/
def tagCall (path : String) : MetadataCall := ⟨.setxattr, path, "tag", true⟩

/-- `chmod` on a path. -/
def modeCall (path : String) : MetadataCall := ⟨.chmod, path, "", true⟩

/-- The tree once the file with inode number `n` has the attribute. -/
def tagged (n : Nat) (fs : Fs) : Fs :=
  fs.modifyInode ⟨1, n⟩ fun node => { node with xattrs := fun _ => some [1] }

theorem metadataChanged_tagged (n : Nat) (fs : Fs) : MetadataChanged fs (tagged n fs) :=
  .inr ⟨⟨1, n⟩, fun node => { node with xattrs := fun _ => some [1] }, fun _ => ⟨rfl, rfl⟩, rfl⟩

/-- A mode change of a file with content and an attribute on an empty file: undo leaves both
alone. -/
theorem contentUntouched_mode_and_empty_tag :
    ContentUntouched .sampleMac .silent .insertion fullStore plainCommand
      [sampleCall (modeCall "/f") twoFiles, sampleCall (tagCall "/e") twoFiles]
      (tagged 3 twoFiles) := by
  have hfirst := sampleCall_step (modeCall "/f") twoFiles (by decide) (.inl rfl)
  have hsecond := sampleCall_step (tagCall "/e") twoFiles (by decide)
    (metadataChanged_tagged 3 twoFiles)
  refine (contentUntouched_iff (.cons hfirst (.cons hsecond (.nil _))) twoFiles_wellFormed).mpr
    (.inr fun e he hcall _ => ?_)
  rcases mem_pair.mp he with rfl | rfl
  · cases hcall
  · rfl

/-- An attribute on a file with content: the plain undo empties the file. -/
theorem setxattr_undone_empties_file :
    twoFiles.WellFormed ∧ Runs (MetadataStep .sampleMac plainCommand.command) twoFiles
        [sampleCall (tagCall "/f") twoFiles] (tagged 2 twoFiles) ∧
      (tagged 2 twoFiles).fileAt (ofString "/f") = some [104, 105] ∧
      (run (fileRuntime .sampleMac) none
        (plan .silent .insertion plainCommand (journalOfCalls [sampleCall (tagCall "/f") twoFiles])
          ((tagged 2 twoFiles).probe .sampleMac) fullStore) false .abort
        (tagged 2 twoFiles)).2.fileAt (ofString "/f") = some [] ∧
      ¬ ContentUntouched .sampleMac .silent .insertion fullStore plainCommand
        [sampleCall (tagCall "/f") twoFiles] (tagged 2 twoFiles) := by
  have hstep := sampleCall_step (tagCall "/f") twoFiles (by decide)
    (metadataChanged_tagged 2 twoFiles)
  refine ⟨twoFiles_wellFormed, .cons hstep (.nil _), by decide, by decide, fun hkept => ?_⟩
  have hsame := hkept .sampleMac rfl (fun _ _ _ _ _ happlied => nomatch happlied) none .abort
    (sampleCall (tagCall "/f") twoFiles) (mem_singleton_self _)
  revert hsame
  decide

end Tagged

end ShitUndo
