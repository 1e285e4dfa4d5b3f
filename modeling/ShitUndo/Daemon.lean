import ShitUndo.Orchestrator
import ShitUndo.IndexTables

/-!
# Undo requests

`handle_undo` of the daemon (`shitd/src/ctl.rs`): pick the most recently completed commands,
plan and run each one in turn against the live file system, and add the outcomes up in one
report. Each plan is computed in the state the previous command's run left behind.

The executors of the daemon are wired per command (session, shell), so the executor is a
parameter that also sees the command; the probe is the same live one throughout.
-/

namespace ShitUndo

open List OutcomeKind Renderers

/-! ## The index -/

/-- The part of the store's index that undo reads. `fault` is an error of the database. -/
structure Index where
  commands : List CommandRecord
  eventsForCommand : CommandId → List CaptureEvent
  blobs : PlannerStore
  fault : Option String

/-- `ORDER BY ended_wall_nanos DESC, seq DESC`, on the signed columns; an unfinished command has no
place in it. -/
def recentFirst (a b : CommandRecord) : Bool :=
  match a.endedAt, b.endedAt with
  | some ta, some tb =>
    decide (toI64 tb.wallclockUnixNanos < toI64 ta.wallclockUnixNanos ∨
      (toI64 tb.wallclockUnixNanos = toI64 ta.wallclockUnixNanos ∧
        toI64 b.command.seq ≤ toI64 a.command.seq))
  | _, _ => false

/-- `list_recent_commands`: completed commands only, latest first. Rows that tie come in the order
of the list, which is the order the table is scanned in. -/
def Index.listRecentCommands (index : Index) (limit : Nat) : Except String (List CommandRecord) :=
  match index.fault with
  | some e => .error e
  | none =>
    .ok (((index.commands.filter (fun c => c.endedAt.isSome)).insertionSort
      (fun a b => recentFirst a b = true)).take limit)

/-! ## The request -/

structure UndoRequest where
  steps : Nat
  dryRun : Bool
  onConflict : ConflictPolicy
  paths : List String
deriving DecidableEq, Repr

structure UndoReportWire where
  commandsAttempted : Nat
  opsApplied : Nat
  opsSkipped : Nat
  opsFailed : Nat
  opsConflicted : Nat
  opsRefused : Nat
  dryRun : Bool
  summary : String
  detailLines : List String
  refusalLines : List String
deriving DecidableEq, Repr

/-- `CtlResponse`, as far as undo produces it. -/
inductive CtlResponse where
  | error (message : String)
  | undoReport (report : UndoReportWire)
deriving DecidableEq, Repr

/-- What the daemon runs on: the live probe, the executors wired for a command, the planner's
renderers and hash order, and the compiler of `--paths` patterns. -/
structure DaemonEnv (σ : Type) where
  probe : σ → StateProbe
  execute : CommandRecord → InverseOp → Bool → ConflictPolicy → σ → ExecutionOutcome × σ
  renderers : Renderers
  order : HashOrder
  compilePathsFilter : List String → Except String PathsFilter

variable {σ : Type} {index : Index} {r : Renderers} {order : HashOrder} {filter : PathsFilter}
  {compile : List String → Except String PathsFilter} {commands : List CommandRecord}
  {dryRun : Bool} {s : σ}

/-- The runtime of one command of the request. -/
def DaemonEnv.runtime (env : DaemonEnv σ) (cmd : CommandRecord) : Runtime σ where
  probe := env.probe
  execute := env.execute cmd

/-- One pass of the command loop. `before` and `calls` are kept for reasoning only. -/
structure CommandRun (σ : Type) where
  command : CommandRecord
  before : σ
  report : ExecutionReport
  calls : List (Call σ)

/-- Plan and run one command in the current state. -/
def undoOne (env : DaemonEnv σ) (index : Index) (filter : PathsFilter) (dryRun : Bool)
    (policy : ConflictPolicy) (cmd : CommandRecord) (s : σ) : CommandRun σ × σ :=
  let undoPlan := plan env.renderers env.order cmd (index.eventsForCommand cmd.command)
    (env.probe s) index.blobs
  let r := run (env.runtime cmd) filter undoPlan dryRun policy s
  ({ command := cmd
     before := s
     report := r.1
     calls := calls (env.runtime cmd) filter dryRun policy undoPlan.nodes s }, r.2)

/-- The loop over the selected commands. How a run ended does not matter to it. -/
def undoLoop (env : DaemonEnv σ) (index : Index) (filter : PathsFilter) (dryRun : Bool)
    (policy : ConflictPolicy) : List CommandRecord → σ → List (CommandRun σ) × σ
  | [], s => ([], s)
  | cmd :: rest, s =>
    let r := undoOne env index filter dryRun policy cmd s
    let t := undoLoop env index filter dryRun policy rest r.2
    (r.1 :: t.1, t.2)

/-! ## The report -/

/-- `impl Debug for OutcomeKind`. -/
def OutcomeKind.debug : OutcomeKind → String
  | applied => "Applied"
  | wouldApply => "WouldApply"
  | skipped => "Skipped"
  | conflictSoft => "ConflictSoft"
  | conflictHard => "ConflictHard"
  | conflictMissing => "ConflictMissing"
  | conflictPhantom => "ConflictPhantom"
  | failed => "Failed"

/-- Counters and lines of the report while the records are added up. -/
structure UndoTally where
  applied : Nat
  skipped : Nat
  failed : Nat
  conflicted : Nat
  refused : Nat
  detailLines : List String
  refusalLines : List String
deriving DecidableEq, Repr

/-- Add one record of `cmd` to the tally. -/
def UndoTally.add (cmd : CommandRecord) (t : UndoTally) (rec : ExecutionRecord) : UndoTally :=
  match rec.outcomeKind with
  | .applied | .wouldApply => { t with applied := t.applied + 1 }
  | .skipped =>
    match rec.op, rec.detail with
    | .refuse _ _ _, detail =>
      { t with
        refused := t.refused + 1
        refusalLines := t.refusalLines ++ (detail.map fun d =>
          "`" ++ cmd.cmdString.getD "<unknown command>" ++ "` -> " ++ d).toList }
    | .shellStateRestore _ _ _ _ _ _ _, some d =>
      { t with
        skipped := t.skipped + 1
        detailLines := t.detailLines ++ ["shell-state: " ++ d] }
    | _, _ => { t with skipped := t.skipped + 1 }
  | .failed =>
    { t with
      failed := t.failed + 1
      detailLines := t.detailLines ++
        ["failed: " ++ rec.tier.debug ++ " — " ++ rec.detail.getD "(no detail)"] }
  | kind =>
    { t with
      conflicted := t.conflicted + 1
      detailLines := t.detailLines ++
        ["conflict (" ++ kind.debug ++ "): " ++ rec.detail.getD "(no detail)"] }

/-- The tally of a whole request. -/
def tallyRuns (runs : List (CommandRun σ)) : UndoTally :=
  runs.foldl (fun t cr => cr.report.records.foldl (UndoTally.add cr.command) t)
    ⟨0, 0, 0, 0, 0, [], []⟩

/-- The report of a request that ran `runs`. -/
def undoReport (dryRun : Bool) (runs : List (CommandRun σ)) : UndoReportWire :=
  let t := tallyRuns runs
  { commandsAttempted := runs.length
    opsApplied := t.applied
    opsSkipped := t.skipped
    opsFailed := t.failed
    opsConflicted := t.conflicted
    opsRefused := t.refused
    dryRun := dryRun
    summary := "undo report: commands=" ++ toString runs.length ++ " applied="
      ++ toString t.applied ++ " skipped=" ++ toString t.skipped ++ " refused="
      ++ toString t.refused ++ " failed=" ++ toString t.failed ++ " conflicts="
      ++ toString t.conflicted ++ " dry_run=" ++ toString dryRun
    detailLines := t.detailLines
    refusalLines := t.refusalLines }

/-- `handle_undo`, with the runs of its commands. -/
def handleUndo (env : DaemonEnv σ) (index : Index) (req : UndoRequest) (s : σ) :
    CtlResponse × List (CommandRun σ) × σ :=
  match env.compilePathsFilter req.paths with
  | .error e => (.error ("undo: bad --paths filter: " ++ e), [], s)
  | .ok filter =>
    match index.listRecentCommands (max req.steps 1) with
    | .error e => (.error ("undo: list_recent_commands: " ++ e), [], s)
    | .ok [] =>
      let report := undoReport req.dryRun ([] : List (CommandRun σ))
      (.undoReport { report with
        summary := "no completed commands recorded; nothing to undo" }, [], s)
    | .ok commands =>
      let r := undoLoop env index filter req.dryRun req.onConflict commands s
      (.undoReport (undoReport req.dryRun r.1), r.1, r.2)

/-! ## Early halts -/

/-- The kinds of record on which a run under `Abort` stops. -/
def OutcomeKind.isBlocking (kind : OutcomeKind) : Bool :=
  decide (kind = .failed ∨ kind = .conflictHard ∨ kind = .conflictPhantom)

/-- The report ends with a `Failed`, `ConflictHard` or `ConflictPhantom` record. -/
def ExecutionReport.haltedEarly (report : ExecutionReport) : Bool :=
  report.records.getLast?.any (fun rec => rec.outcomeKind.isBlocking)

/-- Once a command of the request halts early, no op of an older one reaches an executor. -/
def AbortStopsRequest (env : DaemonEnv σ) (index : Index) (req : UndoRequest) (s : σ) : Prop :=
  (handleUndo env index req s).2.1.Pairwise
    (fun newer older => newer.report.haltedEarly = true → older.calls = [])

/-- **Nothing for an executor.** In this state each op is outside `--paths`, refused or in conflict,
up to the first conflict that blocks. -/
def Idle (filter : PathsFilter) (probe : StateProbe) : List PlanNode → Prop
  | [] => True
  | node :: rest =>
    match disposition filter .abort probe node with
    | .dispatch => False
    | .settled kind _ => kind.isBlocking = true ∨ Idle filter probe rest

instance decidableIdle (filter : PathsFilter) (probe : StateProbe) :
    ∀ nodes, Decidable (Idle filter probe nodes)
  | [] => isTrue trivial
  | node :: rest =>
    have := decidableIdle filter probe rest
    match h : disposition filter .abort probe node with
    | .dispatch => isFalse (by simp [Idle, h])
    | .settled kind _ =>
      decidable_of_iff (kind.isBlocking = true ∨ Idle filter probe rest) (by simp [Idle, h])

/-- The plan of a command, made in a live state, has nothing for an executor there. -/
def IdleIn (env : DaemonEnv σ) (index : Index) (filter : PathsFilter) (cmd : CommandRecord)
    (s : σ) : Prop :=
  Idle filter (env.probe s) (plan env.renderers env.order cmd
    (index.eventsForCommand cmd.command) (env.probe s) index.blobs).nodes
deriving Decidable

/-- **A halt is final.** Every command that comes after a halt has nothing for an executor in the
state it is undone in. -/
def HaltIsFinal (env : DaemonEnv σ) (index : Index) (filter : PathsFilter) (dryRun : Bool) :
    Bool → List CommandRecord → σ → Prop
  | _, [], _ => True
  | halted, cmd :: older, s =>
    (halted = true → IdleIn env index filter cmd s) ∧
      HaltIsFinal env index filter dryRun
        (halted || (undoOne env index filter dryRun .abort cmd s).1.report.haltedEarly) older
        (undoOne env index filter dryRun .abort cmd s).2

instance decidableHaltIsFinal (env : DaemonEnv σ) (index : Index) (filter : PathsFilter)
    (dryRun : Bool) : ∀ halted commands s,
      Decidable (HaltIsFinal env index filter dryRun halted commands s)
  | _, [], _ => isTrue trivial
  | halted, cmd :: older, s =>
    have := decidableHaltIsFinal env index filter dryRun
      (halted || (undoOne env index filter dryRun .abort cmd s).1.report.haltedEarly) older
      (undoOne env index filter dryRun .abort cmd s).2
    inferInstanceAs (Decidable ((halted = true → IdleIn env index filter cmd s) ∧ _))

/-- The same for a request; one that is answered by an error undoes nothing. -/
def HaltsAreFinal (env : DaemonEnv σ) (index : Index) (req : UndoRequest) (s : σ) : Prop :=
  match env.compilePathsFilter req.paths, index.listRecentCommands (max req.steps 1) with
  | .ok filter, .ok commands => HaltIsFinal env index filter req.dryRun false commands s
  | _, _ => True

section Exact

variable {env : DaemonEnv σ}

theorem halts_abort (kind : OutcomeKind) : halts .abort kind = kind.isBlocking := by
  simp [halts, isBlocking]

theorem calls_eq_nil_iff (rt : Runtime σ) (nodes : List PlanNode) :
    calls rt filter dryRun .abort nodes s = [] ↔ Idle filter (rt.probe s) nodes := by
  induction nodes with
  | nil => simp [Idle]
  | cons node rest ih =>
    rw [calls_cons]
    cases hd : disposition filter .abort (rt.probe s) node with
    | dispatch => simp [nodeCalls, hd, Idle]
    | settled kind detail =>
      -- a settled node calls nothing, and the run goes on in the same state unless it blocks
      have hone : executeOne rt filter 0 node dryRun .abort s =
          (recordOf 0 node.op kind (some detail), s) := executeOne_of_settled hd
      simp only [nodeCalls, hd, Idle, hone, halts_abort, recordOf, nil_append]
      cases hb : kind.isBlocking with
      | true => simp
      | false => simpa using ih

theorem undoOne_calls_eq_nil_iff (dryRun : Bool) (cmd : CommandRecord) :
    (undoOne env index filter dryRun .abort cmd s).1.calls = [] ↔
      IdleIn env index filter cmd s :=
  calls_eq_nil_iff (env.runtime cmd) _

/-- The induction is on the commands; `halted` says whether a run before them has halted. -/
theorem haltIsFinal_iff (halted : Bool) :
    HaltIsFinal env index filter dryRun halted commands s ↔
      (halted = true → ∀ cr ∈ (undoLoop env index filter dryRun .abort commands s).1,
          cr.calls = []) ∧
        (undoLoop env index filter dryRun .abort commands s).1.Pairwise
          (fun newer older => newer.report.haltedEarly = true → older.calls = []) := by
  induction commands generalizing halted s with
  | nil => simp [HaltIsFinal, undoLoop]
  | cons cmd older ih =>
    simp only [HaltIsFinal, undoLoop, ih, pairwise_cons, mem_cons, forall_eq_or_imp,
      ← undoOne_calls_eq_nil_iff dryRun, Bool.or_eq_true]
    constructor
    · rintro ⟨hcmd, hrest, hpair⟩
      exact ⟨fun hh => ⟨hcmd hh, hrest (.inl hh)⟩, fun cr hcr hh => hrest (.inr hh) cr hcr, hpair⟩
    · rintro ⟨hall, hcmd, hpair⟩
      refine ⟨fun hh => (hall hh).1, ?_, hpair⟩
      rintro (hh | hh) cr hcr
      · exact (hall hh).2 cr hcr
      · exact hcmd cr hcr hh

/-- **Multi-step abort, exactly.** An early halt under `Abort` keeps every older command of the
request away from the executors exactly when none of them has anything for an executor in the state
that the halt has left. -/
theorem abortStopsRequest_iff {req : UndoRequest} (hpolicy : req.onConflict = .abort) :
    AbortStopsRequest env index req s ↔ HaltsAreFinal env index req s := by
  unfold AbortStopsRequest HaltsAreFinal handleUndo
  rw [hpolicy]
  cases env.compilePathsFilter req.paths with
  | error e => simp
  | ok filter =>
    cases index.listRecentCommands (max req.steps 1) with
    | error e => simp
    | ok commands =>
      cases commands with
      | nil => simp [HaltIsFinal]
      | cons cmd older => simp [haltIsFinal_iff]

end Exact

section TwoCommands

/-- Every `--paths` list compiles to no filter, as the empty one does. -/
def noFilter : List String → Except String PathsFilter := fun _ => .ok none

/-- The append of one line to `/log`, as the journal of command `seq` records it. -/
def appendEvent (seq : Nat) : CaptureEvent :=
  { id := ⟨seq⟩, command := ⟨0, seq⟩, ts := ⟨seq, 0⟩, isPartial := false,
    kind := .fileAppendPreStash ⟨1, 7⟩ (PathBuf.ofString "/log") (10 * seq) }

/-- The older of two completed commands. -/
def olderCommand (text : Option String) : CommandRecord :=
  { command := ⟨0, 1⟩, cmdString := text, endedAt := some ⟨1, 100⟩ }

/-- Two completed commands that each appended to `/log`; the older one has the given text. -/
def twoAppends (olderText : Option String) : Index where
  commands :=
    [olderCommand olderText, { command := ⟨0, 2⟩, cmdString := none, endedAt := some ⟨2, 200⟩ }]
  eventsForCommand := fun id => [appendEvent id.seq]
  blobs := { blobSizeHint := fun _ => none }
  fault := none

/-- `shit undo --steps 2` with the default policy. -/
def undoTwoSteps : UndoRequest :=
  { steps := 2, dryRun := false, onConflict := .abort, paths := [] }

/-- A world in which only `/log` exists. -/
def logOnly : StateProbe where
  stat := fun p => if p = PathBuf.ofString "/log" then some ⟨⟨1, 7⟩, plainMeta 30⟩ else none
  contentHash := fun _ => none

/-- A machine on which `/log` cannot be opened for writing. -/
def readOnlyLog : DaemonEnv Unit where
  probe := fun _ => logOnly
  execute := fun _ _ _ _ _ =>
    (.failed "FileExtend: open \"/log\": Permission denied (os error 13)", ())
  renderers := silent
  order := .insertion
  compilePathsFilter := noFilter

/-- The newer command's truncation fails and its run halts, yet the older command's truncation
is dispatched next. -/
theorem abort_runs_older_command :
    ¬ AbortStopsRequest readOnlyLog (twoAppends none) undoTwoSteps () := by
  intro hpair
  have hruns : ((handleUndo readOnlyLog (twoAppends none) undoTwoSteps ()).2.1.map
        (fun cr => (cr.report.haltedEarly, cr.calls.length))) = [(true, 1), (true, 1)] := by
    decide +kernel
  have hpair' : [(true, 1), (true, 1)].Pairwise
      (fun (a b : Bool × Nat) => a.1 = true → b.2 = 0) := by
    rw [← hruns, pairwise_map]
    refine List.Pairwise.imp ?_ hpair
    intro a b hab hhalt
    rw [hab hhalt]
    rfl
  revert hpair'
  decide

/-- With a refused older command the request does stop: `reboot` never reaches an executor. -/
theorem abortStopsRequest_refused_older :
    AbortStopsRequest readOnlyLog (twoAppends (some "reboot")) undoTwoSteps () := by
  refine (abortStopsRequest_iff rfl).mpr ?_
  have hselected : (twoAppends (some "reboot")).listRecentCommands (max undoTwoSteps.steps 1) =
      .ok [{ command := ⟨0, 2⟩, cmdString := none, endedAt := some ⟨2, 200⟩ },
        olderCommand (some "reboot")] := by
    decide +kernel
  unfold HaltsAreFinal
  rw [hselected]
  show HaltIsFinal readOnlyLog _ none false false _ ()
  decide +kernel

end TwoCommands

end ShitUndo
