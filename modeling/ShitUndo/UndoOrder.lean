import Mathlib.Data.Prod.Lex
import ShitUndo.Daemon
import ShitUndo.Lib.Ranking

/-!
# Which commands an undo takes

The daemon stamps every frame it handles with a `TimePoint`: a logical counter, which
"establishes ordering", and a wall-clock reading, which is "for human display only"
(`time.rs`). `list_recent_commands` sorts by the wall clock.

* `recorded`: the rows of `commands` after a daemon run, from the frames it handled and what the
  clock said each time;
* `UndoesNewestFirst`: an undo of `n` steps takes the `n` commands that ended last by the logical
  clock, the newest first.
-/

namespace ShitUndo

open List Option

open Ranking (byRank)

/-! ## The rows of a daemon run -/

/-- The frames that write `commands`; every other frame, or one whose write fails, only takes a
time stamp. -/
inductive HookFrame where
  | preExec (command : CommandId) (cmdString : Option String)
  | postExec (command : CommandId)
  | other
deriving DecidableEq, Repr

/-- `LOGICAL_CLOCK` and the `commands` table. -/
structure DaemonState where
  clock : Nat
  commands : List CommandRecord

/-- `SystemTime::now()` in nanoseconds as `u64`; 0 for a clock set before the epoch. -/
def wallNanos (reading : Option Nat) : Nat := (reading.map (· % 2 ^ 64)).getD 0

/-- `put_command`: insert the row, or update its end and its text if there is one. -/
def putCommand (cmd : CommandRecord) (rows : List CommandRecord) : List CommandRecord :=
  if rows.any (fun row => row.command = cmd.command) then
    rows.map fun row =>
      if row.command = cmd.command then
        { row with cmdString := cmd.cmdString.or row.cmdString, endedAt := cmd.endedAt }
      else row
  else rows ++ [cmd]

/-- `handle`: one frame, stamped by `next_ts`. -/
def handleFrame (st : DaemonState) (frame : HookFrame) (reading : Option Nat) : DaemonState :=
  let ts : TimePoint := ⟨st.clock, wallNanos reading⟩
  let clock := st.clock + 1
  match frame with
  | .preExec command cmdString =>
    { clock := clock
      commands := putCommand { command := command, cmdString := cmdString, endedAt := none }
        st.commands }
  | .postExec command =>
    match st.commands.find? (fun row => row.command = command) with
    | some existing =>
      { clock := clock, commands := putCommand { existing with endedAt := some ts } st.commands }
    | none => { clock := clock, commands := st.commands }
  | .other => { clock := clock, commands := st.commands }

/-- A fresh daemon that has handled the frames. -/
def daemonRun (frames : List (HookFrame × Option Nat)) : DaemonState :=
  frames.foldl (fun st f => handleFrame st f.1 f.2) ⟨1, []⟩

/-- The rows recorded by a daemon run. -/
def recorded (frames : List (HookFrame × Option Nat)) : List CommandRecord :=
  (daemonRun frames).commands

/-! ## The logical clock tells the rows apart -/

/-- One row per command, and no two commands ended at one logical time. -/
structure Stamped (st : DaemonState) : Prop where
  ids : (st.commands.map CommandRecord.command).Nodup
  past : ∀ c ∈ st.commands, ∀ t, c.endedAt = some t → t.logical < st.clock
  apart : ∀ a ∈ st.commands, ∀ b ∈ st.commands, ∀ ta tb, a.endedAt = some ta →
    b.endedAt = some tb → ta.logical = tb.logical → a = b

variable {rows : List CommandRecord}

theorem putCommand_ids (cmd : CommandRecord) (h : (rows.map CommandRecord.command).Nodup) :
    ((putCommand cmd rows).map CommandRecord.command).Nodup := by
  unfold putCommand
  split
  case isTrue hany =>
    -- an update leaves the key alone
    have hkeys : ∀ row : CommandRecord, (if row.command = cmd.command then
        { row with cmdString := cmd.cmdString.or row.cmdString, endedAt := cmd.endedAt }
        else row).command = row.command := by
      intro row
      split <;> rfl
    rw [List.map_map]
    exact (map_congr_left fun row _ => hkeys row) ▸ h
  case isFalse hany =>
    rw [map_append, map_singleton]
    refine nodup_append.mpr ⟨h, nodup_singleton _, ?_⟩
    intro id hid id' hid' heq
    obtain ⟨row, hrow, rfl⟩ := mem_map.mp hid
    rw [mem_singleton.mp hid'] at heq
    exact hany (any_eq_true.mpr ⟨row, hrow, decide_eq_true heq⟩)

theorem mem_putCommand {cmd c : CommandRecord} (h : c ∈ putCommand cmd rows) :
    (c.command = cmd.command ∧ c.endedAt = cmd.endedAt) ∨ c ∈ rows := by
  unfold putCommand at h
  split at h
  · obtain ⟨row, hrow, rfl⟩ := mem_map.mp h
    split
    case isTrue heq => exact .inl ⟨heq, rfl⟩
    case isFalse => exact .inr hrow
  · rcases mem_append.mp h with hold | hnew
    · exact .inr hold
    · rw [mem_singleton.mp hnew]
      exact .inl ⟨rfl, rfl⟩

variable {st : DaemonState}

theorem Stamped.tick (h : Stamped st) :
    Stamped { clock := st.clock + 1, commands := st.commands } where
  ids := h.ids
  past := fun c hc t ht => Nat.lt_succ_of_lt (h.past c hc t ht)
  apart := h.apart

theorem Stamped.put (h : Stamped st) {cmd : CommandRecord}
    (hended : ∀ t, cmd.endedAt = some t → t.logical = st.clock) :
    Stamped { clock := st.clock + 1, commands := putCommand cmd st.commands } where
  ids := putCommand_ids cmd h.ids
  past := by
    intro c hc t ht
    rcases mem_putCommand hc with ⟨-, hput⟩ | hold
    · exact Nat.lt_succ_of_le (hended t (hput ▸ ht)).le
    · exact Nat.lt_succ_of_lt (h.past c hold t ht)
  apart := by
    intro a ha b hb ta tb hta htb heq
    rcases mem_putCommand ha with ⟨hka, hpa⟩ | hoa
    · rcases mem_putCommand hb with ⟨hkb, -⟩ | hob
      · exact inj_on_of_nodup_map (putCommand_ids cmd h.ids) ha hb (hka.trans hkb.symm)
      · -- the old row ended before this stamp was taken
        have hnew := hended ta (hpa ▸ hta)
        have hpast := h.past b hob tb htb
        omega
    · rcases mem_putCommand hb with ⟨-, hpb⟩ | hob
      · have hnew := hended tb (hpb ▸ htb)
        have hpast := h.past a hoa ta hta
        omega
      · exact h.apart a hoa b hob ta tb hta htb heq

theorem Stamped.handleFrame (h : Stamped st) (frame : HookFrame) (reading : Option Nat) :
    Stamped (handleFrame st frame reading) := by
  cases frame with
  | preExec command cmdString =>
    refine h.put ?_
    intro t ht
    cases ht
  | postExec command =>
    unfold ShitUndo.handleFrame
    dsimp only
    split
    · refine h.put ?_
      intro t ht
      rw [← some.inj ht]
    · exact h.tick
  | other => exact h.tick

theorem stamped_daemonRun (frames : List (HookFrame × Option Nat)) :
    Stamped (daemonRun frames) := by
  have hrun : ∀ (rest : List (HookFrame × Option Nat)) (st : DaemonState), Stamped st →
      Stamped (rest.foldl (fun st f => handleFrame st f.1 f.2) st) := by
    intro rest
    induction rest with
    | nil =>
      intro st hst
      exact hst
    | cons f rest ih =>
      intro st hst
      exact ih _ (hst.handleFrame f.1 f.2)
  refine hrun frames ⟨1, []⟩ ⟨nodup_nil, ?_, ?_⟩
  · intro c hc
    cases hc
  · intro a ha
    cases ha

/-! ## The two orders -/

/-- The rows with an end. -/
def completed (rows : List CommandRecord) : List CommandRecord :=
  rows.filter fun c => c.endedAt.isSome

/-- When the command ended, by the logical clock. -/
def endedLogical (c : CommandRecord) : Nat := (c.endedAt.map TimePoint.logical).getD 0

/-- The column `ended_wall_nanos`. -/
def endedWall (c : CommandRecord) : Int :=
  toI64 ((c.endedAt.map TimePoint.wallclockUnixNanos).getD 0)

/-- The `n` commands that ended last, the newest first. -/
def newestFirst (n : Nat) (rows : List CommandRecord) : List CommandRecord :=
  (byRank endedLogical (completed rows)).take n

/-- `a` ended before `b` by the wall clock, or at the same reading with the lower `seq`. -/
def WallBefore (a b : CommandRecord) : Prop :=
  endedWall a < endedWall b ∨
    (endedWall a = endedWall b ∧ toI64 a.command.seq < toI64 b.command.seq)

instance decidableWallBefore (a b : CommandRecord) : Decidable (WallBefore a b) := by
  unfold WallBefore
  infer_instance

/-- The sort key of `list_recent_commands`. -/
def wallRank (c : CommandRecord) : ℤ ×ₗ ℤ := toLex (endedWall c, toI64 c.command.seq)

theorem wallRank_lt_iff {a b : CommandRecord} : wallRank a < wallRank b ↔ WallBefore a b :=
  Prod.Lex.toLex_lt_toLex

theorem recentFirst_iff {a b : CommandRecord} (ha : a.endedAt.isSome = true)
    (hb : b.endedAt.isSome = true) : recentFirst a b = true ↔ wallRank b ≤ wallRank a := by
  obtain ⟨ta, hta⟩ := isSome_iff_exists.mp ha
  obtain ⟨tb, htb⟩ := isSome_iff_exists.mp hb
  rw [wallRank, wallRank, Prod.Lex.toLex_le_toLex]
  simp [recentFirst, endedWall, hta, htb]

theorem completed_append_others {l : List CommandRecord} (h : l.Perm (completed rows)) :
    completed (l ++ rows.filter fun c => !c.endedAt.isSome) = l := by
  have hl : completed l = l := by
    refine filter_eq_self.mpr ?_
    intro c hc
    exact (mem_filter.mp (h.mem_iff.mp hc)).2
  have hothers : completed (rows.filter fun c => !c.endedAt.isSome) = [] := by
    refine filter_eq_nil_iff.mpr ?_
    intro c hc hended
    have hopen := (mem_filter.mp hc).2
    rw [hended] at hopen
    cases hopen
  rw [completed, filter_append]
  exact (congrArg₂ (· ++ ·) hl hothers).trans (append_nil l)

theorem listRecentCommands_eq {index : Index} (hfault : index.fault = none) (limit : Nat) :
    index.listRecentCommands limit =
      .ok ((byRank wallRank (completed index.commands)).take limit) := by
  have hsort := map_insertionSort (fun a b => recentFirst a b = true)
    (fun a b => wallRank b ≤ wallRank a) id (completed index.commands) (by
      intro a ha b hb
      exact recentFirst_iff (mem_filter.mp ha).2 (mem_filter.mp hb).2)
  rw [List.map_id, List.map_id] at hsort
  rw [Index.listRecentCommands, hfault]
  exact congrArg (fun l => Except.ok (List.take limit l)) hsort

/-! ## The commands of a request -/

section Request

variable {σ : Type} {env : DaemonEnv σ} {index : Index} {req : UndoRequest} {s : σ}
  {filter : PathsFilter}

theorem undoLoop_commands (dryRun : Bool) (policy : ConflictPolicy)
    (commands : List CommandRecord) (s : σ) :
    (undoLoop env index filter dryRun policy commands s).1.map CommandRun.command = commands := by
  induction commands generalizing s with
  | nil => rfl
  | cons cmd rest ih =>
    rw [undoLoop]
    exact congrArg (cmd :: ·) (ih _)

theorem handleUndo_commands (hfault : index.fault = none)
    (hpaths : env.compilePathsFilter req.paths = .ok filter) :
    (handleUndo env index req s).2.1.map CommandRun.command =
      (byRank wallRank (completed index.commands)).take (max req.steps 1) := by
  rw [handleUndo, hpaths, listRecentCommands_eq hfault]
  cases hsel : (byRank wallRank (completed index.commands)).take (max req.steps 1) with
  | nil => rfl
  | cons cmd rest => exact undoLoop_commands _ _ _ _

/-- The request takes the commands of `rows` that ended last by the logical clock, the newest
first, in whatever order the table is scanned. -/
def UndoesNewestFirst (env : DaemonEnv σ) (index : Index) (req : UndoRequest) (s : σ)
    (rows : List CommandRecord) : Prop :=
  ∀ scan : List CommandRecord, scan.Perm rows →
    (handleUndo env { index with commands := scan } req s).2.1.map CommandRun.command =
      newestFirst (max req.steps 1) rows

/-- **Undo order, exactly.** After any daemon run, whatever the wall clock said, an undo takes the
commands that ended last by the logical clock, newest first, exactly when each command that ended
before one of them also comes behind it by the wall clock and `seq`. -/
theorem undoesNewestFirst_iff (frames : List (HookFrame × Option Nat))
    (hfault : index.fault = none) (hpaths : env.compilePathsFilter req.paths = .ok filter) :
    UndoesNewestFirst env index req s (recorded frames) ↔
      ∀ b ∈ newestFirst (max req.steps 1) (recorded frames),
        ∀ a ∈ completed (recorded frames), endedLogical a < endedLogical b → WallBefore a b := by
  have hstamped := stamped_daemonRun frames
  have hnodup : (completed (recorded frames)).Nodup := hstamped.ids.of_map.filter _
  have happart : ∀ a ∈ completed (recorded frames), ∀ b ∈ completed (recorded frames),
      endedLogical a = endedLogical b → a = b := by
    intro a ha b hb heq
    obtain ⟨hra, hea⟩ := mem_filter.mp ha
    obtain ⟨hrb, heb⟩ := mem_filter.mp hb
    obtain ⟨ta, hta⟩ := isSome_iff_exists.mp hea
    obtain ⟨tb, htb⟩ := isSome_iff_exists.mp heb
    simp only [endedLogical, hta, htb, map_some, getD_some] at heq
    exact hstamped.apart a hra b hrb ta tb hta htb heq
  have hranks := Ranking.take_byRank_eq_iff (f := wallRank) (n := max req.steps 1) hnodup happart
  simp only [wallRank_lt_iff] at hranks
  have hfault' : ∀ scan, ({ index with commands := scan } : Index).fault = none := fun _ => hfault
  refine Iff.trans ?_ hranks
  constructor
  · intro h rows hperm
    -- scan the completed rows in the given order, and the others after them
    have hscan := h (rows ++ (recorded frames).filter fun c => !c.endedAt.isSome)
      ((hperm.append_right _).trans (filter_append_perm _ _))
    rw [handleUndo_commands (hfault' _) hpaths, completed_append_others hperm] at hscan
    exact hscan
  · intro h scan hperm
    rw [handleUndo_commands (hfault' _) hpaths]
    exact h _ (hperm.filter _)

/-- Two commands of one session; the second may end at an earlier wall-clock reading. -/
def twoCommands (secondEnd : Nat) : List (HookFrame × Option Nat) :=
  [(.preExec ⟨0, 1⟩ none, some 100), (.postExec ⟨0, 1⟩, some 200),
    (.preExec ⟨0, 2⟩ none, some 210), (.postExec ⟨0, 2⟩, some secondEnd)]

/-- An index with no events and no fault. -/
def emptyJournal : Index :=
  { commands := [], eventsForCommand := fun _ => [], blobs := { blobSizeHint := fun _ => none },
    fault := none }

/-- An executor that applies everything in a world that never changes. -/
def DaemonEnv.steady (r : Renderers) (order : HashOrder)
    (compile : List String → Except String PathsFilter) (probe : StateProbe) :
    DaemonEnv Unit where
  probe := fun _ => probe
  execute := fun _ _ _ _ _ => (.applied, ())
  renderers := r
  order := order
  compilePathsFilter := compile

/-- With a clock that runs on, one step takes the second command. -/
theorem second_command_undone_first :
    UndoesNewestFirst (.steady Renderers.silent .insertion noFilter logOnly) emptyJournal
      { undoTwoSteps with steps := 1 } () (recorded (twoCommands 220)) := by
  refine (undoesNewestFirst_iff (twoCommands 220) rfl rfl).mpr ?_
  decide +kernel

/-- The clock is set back while the second command runs, and one step takes the first one. -/
theorem first_command_undone_first :
    ¬ UndoesNewestFirst (.steady Renderers.silent .insertion noFilter logOnly) emptyJournal
      { undoTwoSteps with steps := 1 } () (recorded (twoCommands 100)) := by
  intro h
  have hscan := h _ (List.Perm.refl _)
  revert hscan
  decide +kernel

end Request

end ShitUndo
