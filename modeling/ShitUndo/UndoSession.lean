import ShitUndo.Daemon
import ShitUndo.RoundTrips

/-!
# Undoing several commands

`shit undo N` (`handle_undo`): every command is planned in the tree that the undo of the newer ones
has left.
-/

namespace ShitUndo

open List

/-- The daemon with the file executor. -/
def fileDaemon (h : Host) (r : Renderers) (order : HashOrder)
    (compile : List String → Except String PathsFilter) : DaemonEnv Fs where
  probe := fun fs => fs.probe h
  execute := fun _ => executeFileOp h
  renderers := r
  order := order
  compilePathsFilter := compile

/-- Commands that renamed only, the newest first, with the trees before and after all of them. -/
inductive Renamed (h : Host) (index : Index) : List CommandRecord → Fs → Fs → Prop
  | nil (fs : Fs) : Renamed h index [] fs fs
  | cons {cmd : CommandRecord} {older : List CommandRecord} {fs fs₁ fs' : Fs}
      (hbefore : Renamed h index older fs fs₁) (hwf : fs₁.WellFormed) (href : cmd.refusal = none)
      (hj : FaithfulJournal h (· = .rename) fs₁ (index.eventsForCommand cmd.command) fs') :
      Renamed h index (cmd :: older) fs fs'

variable {h : Host} {index : Index} {commands : List CommandRecord} {fs fs' u : Fs}
  {r : Renderers} {order : HashOrder} {compile : List String → Except String PathsFilter}

/-- The round trip from any tree that looks like the one the command left. -/
theorem undo_renames {events : List CaptureEvent} {command : CommandRecord} {store : PlannerStore}
    (hp : h.Permissive) (hwf : fs.WellFormed)
    (hj : FaithfulJournal h (· = .rename) fs events fs') (href : command.refusal = none)
    (hu : u.SameTree fs') :
    (∀ rec ∈ (undo h r order command events store u).1.records, rec.outcomeKind = .applied) ∧
      (undo h r order command events store u).2.SameTree fs := by
  have hinert : ∀ p, p ∉ (classify order events (u.probe h)).atomicReplacePaths := fun p =>
    atomicReplacePaths_of_no_preImages (no_preImages_of_renames (rename_events hj)) p
  have hsteps := hj.keeping Fs.WellFormed hwf fun _ _ _ _ _ hs hdoes => hdoes.wellFormed hs
  refine hj.undone hsteps OutcomeKind.IsApplied Fs.SameTree href hu ?_
  rintro s entries s' ⟨hs, -, -, act, rfl, hdoes⟩
  cases hdoes with
  | rename habs hi hfree hparent hout hkind =>
    rw [reverse_singleton, flatMap_singleton, emit_rename hkind (hinert _)]
    exact undone_rename OutcomeKind.isApplied hp hs habs hi hfree hout

theorem undoLoop_renames (r : Renderers) (order : HashOrder)
    (compile : List String → Except String PathsFilter) (hp : h.Permissive)
    (hrun : Renamed h index commands fs fs') (hu : u.SameTree fs') :
    (∀ cr ∈ (undoLoop (fileDaemon h r order compile) index none false .abort commands u).1,
        ∀ rec ∈ cr.report.records, rec.outcomeKind = .applied) ∧
      (undoLoop (fileDaemon h r order compile) index none false .abort commands u).2.SameTree
        fs := by
  induction hrun generalizing u with
  | nil => exact ⟨nofun, hu⟩
  | cons hbefore hwf href hj ih =>
    -- the newest command first; the older ones start from where its undo ends
    obtain ⟨happlied, hsame⟩ := undo_renames hp hwf hj href hu
    obtain ⟨hrest, hend⟩ := ih hsame
    refine ⟨?_, hend⟩
    intro cr hcr
    rcases mem_cons.mp hcr with rfl | hcr
    · exact happlied
    · exact hrest cr hcr

/-- **Undoing several commands that renamed** applies every inverse and gives back the tree before
the oldest of them. -/
theorem handleUndo_renames (r : Renderers) (order : HashOrder) (req : UndoRequest)
    (hp : h.Permissive) (hrun : Renamed h index commands fs fs')
    (hsel : index.listRecentCommands (max req.steps 1) = .ok commands)
    (hpaths : compile req.paths = .ok none) (hdry : req.dryRun = false)
    (hpolicy : req.onConflict = .abort) :
    (∀ cr ∈ (handleUndo (fileDaemon h r order compile) index req fs').2.1,
        ∀ rec ∈ cr.report.records, rec.outcomeKind = .applied) ∧
      (handleUndo (fileDaemon h r order compile) index req fs').2.2.SameTree fs := by
  have hloop := undoLoop_renames r order compile hp hrun ⟨rfl, rfl⟩
  rw [handleUndo, show (fileDaemon h r order compile).compilePathsFilter _ = _ from hpaths]
  simp only [hsel, hdry, hpolicy]
  cases commands with
  | nil => exact hloop
  | cons cmd older => exact hloop

section TwoMoves

/-- Two commands that moved something, one after the other. -/
def moveCommand (seq : Nat) : CommandRecord :=
  { command := ⟨0, seq⟩, cmdString := none, endedAt := some ⟨seq, seq⟩ }

/-- The journal of `mv src dst`. -/
def moveJournal (src dst : String) (i : InodeRef) : List CaptureEvent :=
  journalOf [.treeOp (.rename (.ofString src) (.ofString dst) i)]

/-- `mv /d /e`, then `mv /e/f /g` as a command of its own. -/
def movedIndex : Index where
  commands := [moveCommand 1, moveCommand 2]
  eventsForCommand := fun id =>
    if id.seq = 1 then moveJournal "/d" "/e" ⟨1, 2⟩ else moveJournal "/e/f" "/g" ⟨1, 3⟩
  blobs := fullStore
  fault := none

theorem moveJournal_faithful {src dst : String} {i : InodeRef}
    (hdoes : Does .sample .rename fs (moveJournal src dst i) fs') :
    FaithfulJournal .sample (· = .rename) fs (moveJournal src dst i) fs' where
  steps := by
    have hstep : CommandStep .sample (· = .rename) fs (moveJournal src dst i) fs' :=
      ⟨_, rfl, hdoes⟩
    simpa using UndoLog.Runs.cons hstep (.nil fs')
  complete := by simp [moveJournal, journalOf]
  ordered := by simp [moveJournal, journalOf]

theorem movedIndex_renamed :
    Renamed .sample movedIndex [moveCommand 2, moveCommand 1] projectTree projectMoved := by
  have hfirst : Does .sample .rename projectTree (moveJournal "/d" "/e" ⟨1, 2⟩) projectRenamed :=
    .rename (.of_check (by decide)) (by decide) (by decide) (by decide) (by decide) rfl
  have hsecond : Does .sample .rename projectRenamed (moveJournal "/e/f" "/g" ⟨1, 3⟩)
      projectMoved :=
    .rename (.of_check (by decide)) (by decide) (by decide) (by decide) (by decide) rfl
  exact .cons (.cons (.nil _) projectTree_wellFormed rfl (moveJournal_faithful hfirst))
    (Fs.wellFormed_of_check (by decide)) rfl (moveJournal_faithful hsecond)

/-- `shit undo 2` after both. -/
theorem handleUndo_renames_project :
    (handleUndo (fileDaemon .sample .silent .insertion fun _ => .ok none) movedIndex
      ⟨2, false, .abort, []⟩ projectMoved).2.2.SameTree projectTree := by
  have hsel : movedIndex.listRecentCommands (max 2 1) = .ok [moveCommand 2, moveCommand 1] := by
    decide +kernel
  exact (handleUndo_renames .silent .insertion ⟨2, false, .abort, []⟩ Host.sample_permissive
    movedIndex_renamed hsel rfl rfl rfl).2

end TwoMoves

end ShitUndo
