import ShitUndo.Effects

/-!
# Wrong-file protection

An append or a metadata change was recorded for inode `i` at a path that leads to another inode
by the time of undo (a rotated log, a file saved by rename). The planner marks the inverse with a
`Phantom` conflict; the orchestrator drops that mark and only checks that the path exists, so the
inverse runs on the file that is there now. `turn_leaves_file_iff` says what still protects that
file: the `--paths` filter, and what is in it when the node comes up.
-/

namespace ShitUndo

open PathBuf List

/-- The op that undoes an append or a metadata change recorded for inode `i` at `p`. -/
inductive InverseAt (ev : CaptureEvent) : InodeRef → PathBuf → InverseOp → Prop
  | append {i : InodeRef} {p : PathBuf} {preSize : Nat}
      (hkind : ev.kind = .fileAppendPreStash i p preSize) : InverseAt ev i p (.fileExtend p preSize)
  | metadata {i : InodeRef} {p : PathBuf} {before after : FileMetadata}
      (hkind : ev.kind = .metadataChange i p before after)
      (hflags : before.onlyFlagsChanged after = false) :
      InverseAt ev i p (.restoreMetadata i p before)

/-- The path leads to the inode `j`, which is not the recorded `i`. -/
structure LeadsElsewhere (fs : Fs) (i : InodeRef) (p : PathBuf) (j : InodeRef) : Prop where
  resolves : fs.resolve p = some j
  other : j ≠ i

/-- What the file has to be like for the op to make no difference to it: too short to be cut or
not a regular file, and for a metadata change as it was recorded. -/
def UnmovedBy (h : Host) (op : InverseOp) (fs : Fs) (j : InodeRef) : Prop :=
  match op with
  | .fileExtend _ preSize =>
    (fs.inode j).kind ≠ .regular ∨ (fs.inode j).content.length < preSize ∨
      ((fs.inode j).content.length = preSize ∧ (fs.inode j).mtime = h.now)
  | .restoreMetadata _ p target =>
    (fs.inode j).uid = target.uid ∧ (fs.inode j).gid = target.gid ∧
      (fs.inode j).perm = target.mode &&& 0o7777 ∧
      (∀ k, shouldSkipRestore h.os k = false → (fs.inode j).xattrs k = target.xattrs.lookup k) ∧
      (fs.inode j).flags = flagsRestored h fs p target.flags (fs.inode j) ∧
      (target.mtimeUnixNanos = 0 ∨ (fs.inode j).mtime = utimesValue target.mtimeUnixNanos)
  | _ => True

/-! ## The turns of a run -/

/-- A node of the plan comes up: the world it finds and the one it leaves, whether or not the
executor is called for it. -/
structure Turn (σ : Type) where
  node : PlanNode
  before : σ
  after : σ

section Turns

variable {σ : Type} (rt : Runtime σ) (filter : PathsFilter) (policy : ConflictPolicy)

/-- The turns of a run, up to the one that halts it. -/
def turns : List PlanNode → σ → List (Turn σ)
  | [], _ => []
  | node :: rest, s =>
    let r := executeOne rt filter 0 node false policy s
    ⟨node, s, r.2⟩ :: if halts policy r.1.outcomeKind then [] else turns rest r.2

variable {rt filter policy} {nodes : List PlanNode} {s : σ}

/-- The turns are those of `run`: there is one for each record, and the last one leaves the world
the run ends in. -/
theorem turns_eq_run (i : Nat) :
    (turns rt filter policy nodes s).length =
        (runFrom rt filter false policy i nodes s).1.length ∧
      ((turns rt filter policy nodes s).getLast?.map Turn.after).getD s =
        (runFrom rt filter false policy i nodes s).2 := by
  induction nodes generalizing s i with
  | nil => exact ⟨rfl, rfl⟩
  | cons node rest ih =>
    obtain ⟨hkind, hstate⟩ := executeOne_index rt filter false policy node s i 0
    simp only [turns, runFrom, hkind, hstate]
    split_ifs
    · exact ⟨rfl, rfl⟩
    · obtain ⟨hlength, hlast⟩ := ih (s := (executeOne rt filter 0 node false policy s).2) (i + 1)
      refine ⟨by simp [hlength], ?_⟩
      rw [← hlast, getLast?_cons]
      cases (turns rt filter policy rest _).getLast? <;> rfl

theorem mem_turns {t : Turn σ} (ht : t ∈ turns rt filter policy nodes s) :
    t.after = (executeOne rt filter 0 t.node false policy t.before).2 := by
  induction nodes generalizing s with
  | nil => cases ht
  | cons node rest ih =>
    rw [turns, mem_cons] at ht
    rcases ht with rfl | ht
    · rfl
    · split_ifs at ht
      · cases ht
      · exact ih ht

end Turns

section Protection

variable (h : Host) (r : Renderers) (order : HashOrder) (command : CommandRecord)
  (events : List CaptureEvent) (store : PlannerStore) (fs : Fs)

/-- The turns of undoing the command under the given filter and policy. -/
def undoTurns (filter : PathsFilter) (policy : ConflictPolicy) : List (Turn Fs) :=
  turns (fileRuntime h) filter policy (plan r order command events (fs.probe h) store).nodes fs

/-- Cohort aside, the node is one the planner makes of an append or a metadata change that was
recorded for inode `i` at `p`. -/
def UndoesRecorded (i : InodeRef) (p : PathBuf) (node : PlanNode) : Prop :=
  ∃ ev ∈ liveEvents events, InverseAt ev i p node.op ∧
    ∃ made ∈ (emitForEvent r ev (fs.probe h) store (classify order events (fs.probe h))).nodes,
      made.op = node.op ∧ made.conflict = node.conflict

variable {h r order command events store fs} {j : InodeRef} {p : PathBuf} {op : InverseOp}

theorem inode_modifyInode_eq_iff {s : Fs} {k : InodeRef} (f : Inode → Inode) :
    (s.modifyInode k f).inode j = s.inode j ↔ (k = j → f (s.inode j) = s.inode j) := by
  by_cases hkj : k = j
  · subst hkj
    simp [Fs.inode_modifyInode_self]
  · simp [Fs.inode_modifyInode_of_ne f (Ne.symm hkj), hkj]

theorem metadataRestored_eq_self_iff {s : Fs} {i : InodeRef} {target : FileMetadata} :
    metadataRestored h s p target (s.inode j) = s.inode j ↔
      UnmovedBy h (.restoreMetadata i p target) s j := by
  have hxattrs : (fun k => if shouldSkipRestore h.os k then (s.inode j).xattrs k
        else target.xattrs.lookup k) = (s.inode j).xattrs ↔
      ∀ k, shouldSkipRestore h.os k = false → (s.inode j).xattrs k = target.xattrs.lookup k := by
    rw [funext_iff]
    refine forall_congr' fun k => ?_
    cases shouldSkipRestore h.os k <;> simp [eq_comm]
  have hmtime : (if target.mtimeUnixNanos = 0 then (s.inode j).mtime
        else utimesValue target.mtimeUnixNanos) = (s.inode j).mtime ↔
      target.mtimeUnixNanos = 0 ∨ (s.inode j).mtime = utimesValue target.mtimeUnixNanos := by
    by_cases hzero : target.mtimeUnixNanos = 0 <;> simp [hzero, eq_comm]
  simp only [metadataRestored, Inode.ext_iff, UnmovedBy, hxattrs, hmtime, true_and, and_true,
    eq_comm (b := (s.inode j).perm), eq_comm (b := (s.inode j).uid),
    eq_comm (b := (s.inode j).gid), eq_comm (b := (s.inode j).flags)]
  tauto

/-- One executor call leaves `j` alone exactly when its path leads elsewhere or the file is such
that the op makes no difference. -/
theorem call_leaves_iff (hp : h.Permissive) {ev : CaptureEvent} {i : InodeRef}
    (hop : InverseAt ev i p op) (policy : ConflictPolicy) (s : Fs) :
    ((fileRuntime h).execute op false policy s).2.inode j = s.inode j ↔
      (s.resolve p = some j → UnmovedBy h op s j) := by
  cases hop with
  | append hkind =>
    rename_i preSize
    have hexec : (fileRuntime h).execute (.fileExtend p preSize) false policy s =
        applyFileExtend h p preSize s := fileRuntime_execute rfl policy s
    rw [hexec]
    cases hk : s.resolve p with
    | none => simp [applyFileExtend, hk]
    | some k =>
      rw [applyFileExtend_state hp hk, Option.some.injEq]
      split_ifs with hcut
      · rw [inode_modifyInode_eq_iff]
        refine imp_congr_right fun hkj => ?_
        subst hkj
        obtain ⟨hreg, hlen⟩ := hcut
        have hcontent : (s.inode k).content.take preSize = (s.inode k).content ↔
            (s.inode k).content.length = preSize := by
          rw [take_eq_self_iff]
          omega
        simp only [UnmovedBy, Inode.ext_iff, hcontent, hreg, ne_eq, not_true, false_or,
          Nat.not_lt.mpr hlen, true_and, and_true]
        rw [eq_comm (a := h.now)]
        tauto
      · -- the op refuses, and whatever `j` is it had nothing to change there
        simp only [true_iff]
        rintro rfl
        by_cases hreg : (s.inode k).kind = .regular
        · exact .inr (.inl (Nat.lt_of_not_le fun hle => hcut ⟨hreg, hle⟩))
        · exact .inl hreg
  | metadata hkind hflags =>
    rename_i before after
    have hexec : (fileRuntime h).execute (.restoreMetadata i p before) false policy s =
        applyRestoreMetadata h p before s := fileRuntime_execute rfl policy s
    rw [hexec]
    cases hk : s.resolve p with
    | none => simp [applyRestoreMetadata_of_missing hp hk]
    | some k =>
      rw [applyRestoreMetadata_eq hp hk, Option.some.injEq, inode_modifyInode_eq_iff]
      refine imp_congr_right fun hkj => ?_
      subst hkj
      exact metadataRestored_eq_self_iff

/-- The planner's only conflicts for these events are `Missing` and `Phantom`, which the
orchestrator drops. -/
theorem UndoesRecorded.conflict_not_hard {i : InodeRef} {node : PlanNode}
    (hnode : UndoesRecorded h r order events store fs i p node) :
    node.conflict.any Conflict.isHard = false := by
  obtain ⟨ev, -, hop, made, hmade, -, hconflict⟩ := hnode
  rw [← hconflict]
  generalize node.op = op at hop
  cases hop with
  | append hkind =>
    simp only [emitForEvent, hkind, mem_singleton] at hmade
    subst hmade
    exact filePathConflict_not_hard
  | metadata hkind hflags =>
    simp only [emitForEvent, hkind, hflags, Bool.false_eq_true, if_false, mem_singleton] at hmade
    subst hmade
    exact filePathConflict_not_hard

theorem disposition_of_leads {filter : PathsFilter} {policy : ConflictPolicy} {node : PlanNode}
    {ev : CaptureEvent} {i : InodeRef} {s : Fs} (hop : InverseAt ev i p node.op)
    (hhard : node.conflict.any Conflict.isHard = false) (hj : s.resolve p = some j)
    (hfilter : filteredOut filter node.op = false) :
    disposition filter policy (s.probe h) node = .dispatch := by
  obtain ⟨n, hn⟩ := Fs.node_of_resolve hj
  have hexists : (s.probe h).pathExists p = true := by
    rw [probe_pathExists, hn]
    rfl
  have hpre : preconditionConflict (s.probe h) node.op = none := by
    generalize node.op = op at hop
    cases hop with
    | append hkind => simp [preconditionConflict, hexists]
    | metadata hkind hflags => simp [preconditionConflict, hexists]
  have hnone : effectiveConflict (s.probe h) node = none := by
    unfold effectiveConflict
    split
    · rename_i hconflict
      rw [hconflict] at hhard
      cases hhard
    · exact hpre
  unfold disposition
  rw [hfilter, hnone]
  generalize node.op = op at hop
  cases hop <;> rfl

/-- **The file now at the path is left alone exactly when the filter keeps the op from it or the
op makes no difference to it.** Nothing else does: whatever run the turn belongs to, the planner's
mark that the path leads to another file has no part in it. -/
theorem turn_leaves_file_iff (hp : h.Permissive) {filter : PathsFilter} {policy : ConflictPolicy}
    {t : Turn Fs} (ht : t ∈ undoTurns h r order command events store fs filter policy)
    {i j : InodeRef} {p : PathBuf} (hnode : UndoesRecorded h r order events store fs i p t.node)
    (hwrong : LeadsElsewhere t.before i p j) :
    t.after.inode j = t.before.inode j ↔
      filteredOut filter t.node.op = true ∨ UnmovedBy h t.node.op t.before j := by
  have hafter := mem_turns ht
  have hhard := hnode.conflict_not_hard
  obtain ⟨ev, -, hop, -⟩ := hnode
  cases hfilter : filteredOut filter t.node.op with
  | true =>
    have hsettled : ∃ kind detail,
        disposition filter policy (t.before.probe h) t.node = .settled kind detail := by
      unfold disposition
      rw [hfilter]
      exact ⟨_, _, rfl⟩
    obtain ⟨kind, detail, hd⟩ := hsettled
    rw [hafter, executeOne_of_settled hd]
    simp
  | false =>
    have hd : disposition filter policy (t.before.probe h) t.node = .dispatch :=
      disposition_of_leads hop hhard hwrong.resolves hfilter
    rw [hafter, executeOne_of_dispatch hd, call_leaves_iff hp hop policy t.before]
    simp [hwrong.resolves]

end Protection

/-! ## A rotated log -/

section RotatedLog

/-- One append to `/log`, which had one byte and was inode 1:7. -/
def appendedLog : List CaptureEvent :=
  journalOf [.fileAppendPreStash ⟨1, 7⟩ (ofString "/log") 1]

/-- By the time of undo `/log` is the new file the rotation made, with three bytes of its own. -/
def rotatedLog : Fs := Fs.ofList [("/log", .file [1, 2, 3])]

/-- The node planned for it: the mismatch is noticed. -/
def cutLog : PlanNode :=
  .fresh (.fileExtend (ofString "/log") 1)
    (some (.phantom "/log now points at inode 1:2 (was 1:7)"))

theorem cutLog_planned (fs : Fs) (hmade : (emitForEvent .silent (appendedLog.head (by decide))
      (fs.probe .sample) fullStore (classify .insertion appendedLog (fs.probe .sample))).nodes =
        [cutLog]) :
    UndoesRecorded .sample .silent .insertion appendedLog fullStore fs ⟨1, 7⟩ (ofString "/log")
      cutLog := by
  have hev : appendedLog.head (by decide) ∈ liveEvents appendedLog := by decide
  exact ⟨_, hev, .append rfl, cutLog, by rw [hmade]; exact mem_singleton_self _, rfl, rfl⟩

/-- Its turn when undo starts in `fs`. -/
def logTurn (fs : Fs) : Turn Fs :=
  ⟨cutLog, fs, (executeOne (fileRuntime .sample) none 0 cutLog false .abort fs).2⟩

theorem logTurn_mem (fs : Fs) (hnodes : (plan .silent .insertion plainCommand appendedLog
      (fs.probe .sample) fullStore).nodes = [cutLog]) :
    logTurn fs ∈ undoTurns .sample .silent .insertion plainCommand appendedLog fullStore fs none
      .abort := by
  rw [undoTurns, hnodes]
  exact mem_cons_self

/-- Undo cuts the new log back to the size the old one had. -/
theorem rotated_log_truncated :
    ∃ t ∈ undoTurns .sample .silent .insertion plainCommand appendedLog fullStore rotatedLog none
        .abort,
      UndoesRecorded .sample .silent .insertion appendedLog fullStore rotatedLog ⟨1, 7⟩
          (ofString "/log") t.node ∧
        LeadsElsewhere t.before ⟨1, 7⟩ (ofString "/log") ⟨1, 2⟩ ∧
        t.after.inode ⟨1, 2⟩ ≠ t.before.inode ⟨1, 2⟩ := by
  refine ⟨logTurn rotatedLog, logTurn_mem rotatedLog (by decide),
    cutLog_planned rotatedLog (by decide), ⟨by decide, by decide⟩, ?_⟩
  intro hsame
  exact absurd (congrArg Inode.content hsame) (by decide)

/-- A new log that is still shorter than the old one was. -/
def emptyLog : Fs := Fs.ofList [("/log", .file [])]

/-- A new log that is still shorter than the old one was is left alone. -/
theorem empty_log_left :
    ∃ t ∈ undoTurns .sample .silent .insertion plainCommand appendedLog fullStore emptyLog none
        .abort,
      LeadsElsewhere t.before ⟨1, 7⟩ (ofString "/log") ⟨1, 2⟩ ∧
        t.after.inode ⟨1, 2⟩ = t.before.inode ⟨1, 2⟩ := by
  have hturn := logTurn_mem emptyLog (by decide)
  have hwrong : LeadsElsewhere emptyLog ⟨1, 7⟩ (ofString "/log") ⟨1, 2⟩ := ⟨by decide, by decide⟩
  refine ⟨logTurn emptyLog, hturn, hwrong, ?_⟩
  refine (turn_leaves_file_iff Host.sample_permissive hturn
    (cutLog_planned emptyLog (by decide)) hwrong).mpr (.inr ?_)
  -- it is shorter than the recorded size
  exact .inr (.inl (by decide))

end RotatedLog

end ShitUndo
