import ShitUndo.ActiveCommands
import ShitUndo.ShellState
import ShitUndo.UndoOrder
import ShitUndo.Lib.Requeue

/-!
# The frames of the shell hooks

The daemon takes the frames of the shell hooks one at a time (`server.rs`). A frame that journals
against a command and comes before its `PreExec` goes back to the queue for up to a second.

* `HookServer.handle`: what each of the frames does to the rows, the journal, the stashes, the map
  of active commands and the helper;
* `HookServer.isReady`, `rowRetryMax`: what `dispatch` waits for, and how often; the queue itself is
  `Requeue`.

Locks, log lines, statistics and the readiness map of `WaitWatchReady` are left out; the database
and the socket to the helper do not fail.
-/

namespace ShitUndo

open List Option Function

/-! ## Frames -/

inductive ShellKind where
  | bash
  | zsh
  | fish
  | unknown
deriving DecidableEq, Repr

/-- `HookMessage`, without what is only logged. -/
inductive HookMessage where
  | sessionOpen (session : Nat) (shellKind : ShellKind) (parentPid : Nat) (tty : String)
  | preExec (command : CommandId) (pid : Nat) (cwdPath : PathBuf) (shellKind : ShellKind)
      (cmdString : Option String)
  | postExec (command : CommandId) (exitCode : Int)
  | preExecEnv (command : CommandId) (envBlock : Bytes)
  | postExecEnv (command : CommandId) (envBlock : Bytes)
  | preExecShellState (command : CommandId) (pwd : PathBuf) (opts aliases : List (String × String))
  | postExecShellState (command : CommandId) (pwd : PathBuf)
      (opts aliases : List (String × String))
  | sessionClose (session : Nat)
deriving DecidableEq

/-- `HelperRequest`, as far as the hooks make requests. -/
inductive HelperRequest where
  | watchTree (rootPid : Nat) (descendantsToo : Bool) (command : CommandId) (shellKind : ShellKind)
      (cwdPath : PathBuf)
  | unwatchTree (command : CommandId)
deriving DecidableEq

/-! ## The rows -/

/-- A row of `sessions`. -/
structure SessionRow where
  id : Nat
  shellKind : ShellKind
  parentPid : Nat
  tty : Option String
  opened : TimePoint
  closed : Option TimePoint
deriving DecidableEq

/-- `put_session`: a session that is there only gets the shell. -/
def putSession (row : SessionRow) (rows : List SessionRow) : List SessionRow :=
  if rows.any (fun r => r.id = row.id) then
    rows.map fun r => if r.id = row.id then { r with shellKind := row.shellKind } else r
  else rows ++ [row]

def closeSession (session : Nat) (ts : TimePoint) (rows : List SessionRow) : List SessionRow :=
  rows.map fun r => if r.id = session then { r with closed := some ts } else r

/-- A row of `commands` with all its columns. -/
structure CommandEntry extends CommandRecord where
  cwd : PathBuf
  pid : Nat
  shellKind : ShellKind
  startedAt : TimePoint
  exitCode : Option Int
deriving DecidableEq

/-- What `put_command` sets in a row that is there. -/
def CommandEntry.update (row cmd : CommandEntry) : CommandEntry :=
  { row with
    cmdString := cmd.cmdString.or row.cmdString
    endedAt := cmd.endedAt
    exitCode := cmd.exitCode }

/-- `put_command`. -/
def putEntry (cmd : CommandEntry) (rows : List CommandEntry) : List CommandEntry :=
  if rows.any (fun row => row.command = cmd.command) then
    rows.map fun row => if row.command = cmd.command then row.update cmd else row
  else rows ++ [cmd]

/-! ## The server -/

/-- `EnvPre`, without its time. -/
structure EnvPre where
  envHash : BlobHash
  envBlock : Bytes

/-- A file whose extended attributes are not what the baseline has. -/
structure XattrDrift where
  inode : InodeRef
  path : PathBuf
  before : FileMetadata
  after : FileMetadata

/-- What the server works with: the wall clock when a stamp is taken, the content hash, what
`from_utf8_lossy` makes of malformed bytes, the filter of the configuration, the drift that
`post_exec_sweep` finds in a directory, and whether there is a helper. -/
structure HookEnv where
  wall : Nat → Option Nat
  blake3 : Bytes → BlobHash
  malformed : Bytes → String
  filter : EnvFilter
  drift : Nat → PathBuf → List XattrDrift
  linked : Bool

/-- The state behind `handle`. `events` and `requests` are in the order they were written. -/
structure HookServer where
  clock : Nat
  sessions : List SessionRow
  commands : List CommandEntry
  events : List CaptureEvent
  envStash : CommandId → Option EnvPre
  shellStash : ShellStatePreStash
  active : ActiveCommands
  requests : List HelperRequest

/-- The kind is a difference of the environment. -/
def CaptureEventKind.isEnvDiff : CaptureEventKind → Bool
  | .envDiff _ _ _ => true
  | _ => false

def EnvDiff.isEmpty (diff : EnvDiff) : Bool :=
  diff.added.entries.isEmpty && diff.removed.entries.isEmpty && diff.modified.entries.isEmpty

namespace HookServer

/-- The stamp that `next_ts` takes. -/
def stamp (env : HookEnv) (s : HookServer) : TimePoint := ⟨s.clock, wallNanos (env.wall s.clock)⟩

/-- `next_ts` on the clock. -/
def tick (s : HookServer) : HookServer := { s with clock := s.clock + 1 }

def commandById (s : HookServer) (id : CommandId) : Option CommandEntry :=
  s.commands.find? fun row => row.command = id

def commandExists (s : HookServer) (id : CommandId) : Bool :=
  s.commands.any fun row => row.command = id

/-- `put_event`: an event refers to a row of `commands`. -/
def putEvent (s : HookServer) (event : CaptureEvent) : HookServer :=
  if s.commandExists event.command then { s with events := s.events ++ [event] } else s

/-- `send_request`, if there is a helper. -/
def request (env : HookEnv) (s : HookServer) (req : HelperRequest) : HookServer :=
  if env.linked then { s with requests := s.requests ++ [req] } else s

/-- The event for one file of the sweep. -/
def sweepOne (env : HookEnv) (command : CommandId) (s : HookServer) (d : XattrDrift) : HookServer :=
  s.tick.putEvent
    { id := ⟨0⟩, command := command, ts := s.stamp env, isPartial := false
      kind := .metadataChange d.inode d.path d.before d.after }

def postExecSweep (env : HookEnv) (cwd : PathBuf) (command : CommandId) (s : HookServer) :
    HookServer :=
  (env.drift s.clock cwd).foldl (sweepOne env command) s

/-- `env_track::handle_pre`. -/
def handlePreEnv (env : HookEnv) (command : CommandId) (envBlock : Bytes) (s : HookServer) :
    HookServer :=
  { s with envStash := update s.envStash command (some ⟨env.blake3 envBlock, envBlock⟩) }

/-- What a pair of environments has journaled. -/
def envChange (env : HookEnv) (pre : EnvPre) (envBlock : Bytes) : Option CaptureEventKind :=
  if env.blake3 envBlock = pre.envHash then none
  else
    let diff := diffEnvBlocks env.blake3 env.filter env.malformed pre.envBlock envBlock
    if diff.isEmpty then none else some diff.kind

/-- `env_track::handle_post`. -/
def handlePostEnv (env : HookEnv) (command : CommandId) (envBlock : Bytes) (s : HookServer) :
    HookServer :=
  match s.envStash command with
  | none => s
  | some pre =>
    let taken := { s with envStash := update s.envStash command none }
    match envChange env pre envBlock with
    | none => taken
    | some kind =>
      taken.tick.putEvent
        { id := ⟨0⟩, command := command, ts := taken.stamp env, isPartial := false, kind := kind }

/-- The end of `PostExec` for a command with a row. -/
def closeCommand (env : HookEnv) (ts : TimePoint) (exitCode : Int) (existing : CommandEntry)
    (s : HookServer) : HookServer :=
  postExecSweep env existing.cwd existing.command
    { s with
      active := (s.active.remove existing.pid existing.command).2
      commands := putEntry { existing with endedAt := some ts, exitCode := some exitCode }
        s.commands }

/-- `shell_state_track::handle_post`, with its event written. -/
def handlePostShellState (command : CommandId) (pwd : PathBuf)
    (opts aliases : List (String × String)) (ts : TimePoint) (s : HookServer) : HookServer :=
  let post := handlePost s.shellStash command pwd opts aliases ts
  let taken := { s with shellStash := post.1 }
  match post.2 with
  | none => taken
  | some event => taken.putEvent event

def handle (env : HookEnv) (s : HookServer) (msg : HookMessage) : HookServer :=
  let ts := s.stamp env
  match msg with
  | .sessionOpen session shellKind parentPid tty =>
    { s.tick with
      sessions := putSession ⟨session, shellKind, parentPid, some tty, ts, none⟩ s.sessions }
  | .preExec command pid cwdPath shellKind cmdString =>
    request env
      { s.tick with
        active := s.active.insert pid command
        commands := putEntry
          { command := command, cmdString := cmdString, cwd := cwdPath, pid := pid
            shellKind := shellKind, startedAt := ts, endedAt := none, exitCode := none }
          s.commands }
      (.watchTree pid true command shellKind cwdPath)
  | .postExec command exitCode =>
    let closed :=
      match s.commandById command with
      | none => s.tick
      | some existing => closeCommand env ts exitCode existing s.tick
    request env closed (.unwatchTree command)
  | .preExecEnv command envBlock => handlePreEnv env command envBlock s.tick
  | .postExecEnv command envBlock => handlePostEnv env command envBlock s.tick
  | .preExecShellState command pwd opts aliases =>
    { s.tick with shellStash := handlePre s.shellStash command pwd opts aliases }
  | .postExecShellState command pwd opts aliases =>
    handlePostShellState command pwd opts aliases ts s.tick
  | .sessionClose session => { s.tick with sessions := closeSession session ts s.sessions }

def needsCommandRow : HookMessage → Option CommandId
  | .postExec command _ => some command
  | .postExecEnv command _ => some command
  | .postExecShellState command _ _ _ => some command
  | _ => none

/-- A frame does not have to wait. -/
def isReady (s : HookServer) (msg : HookMessage) : Bool :=
  match needsCommandRow msg with
  | none => true
  | some id => s.commandExists id

def rowRetryMax : Nat := 20

/-! ## What a frame does to each part -/

/-- The command of a `PreExec` or a `PostExec`. -/
def execOf : HookMessage → Option CommandId
  | .preExec command _ _ _ _ => some command
  | .postExec command _ => some command
  | _ => none

/-- The command of a `PreExecEnv` or a `PostExecEnv`. -/
def envOf : HookMessage → Option CommandId
  | .preExecEnv command _ => some command
  | .postExecEnv command _ => some command
  | _ => none

theorem execOf_eq_some {msg : HookMessage} {id : CommandId} (h : execOf msg = some id) :
    (∃ pid cwd shellKind cmdString, msg = .preExec id pid cwd shellKind cmdString) ∨
      ∃ exitCode, msg = .postExec id exitCode := by
  cases msg <;> simp_all [execOf]

/-- Only the journal has grown, and the clock gone on. -/
def Journals (s s' : HookServer) : Prop := s' = { s with clock := s'.clock, events := s'.events }

namespace Journals

variable {s s' s'' : HookServer}

theorem refl (s : HookServer) : Journals s s := rfl

variable (h : Journals s s')

include h

theorem commands : s'.commands = s.commands := by rw [h]

theorem active : s'.active = s.active := by rw [h]

theorem requests : s'.requests = s.requests := by rw [h]

theorem envStash : s'.envStash = s.envStash := by rw [h]

theorem trans (h' : Journals s' s'') : Journals s s'' := by
  unfold Journals at *
  rw [h', h]

end Journals

section Parts

variable {env : HookEnv} {s : HookServer} {event : CaptureEvent} {req : HelperRequest}
  {command id : CommandId} {cwd pwd : PathBuf} {opts aliases : List (String × String)}
  {ts : TimePoint} {msg : HookMessage} {envBlock : Bytes}

theorem journals_tick (s : HookServer) : Journals s s.tick := rfl

theorem journals_putEvent (s : HookServer) (event : CaptureEvent) :
    Journals s (s.putEvent event) := by
  unfold putEvent
  split
  · rfl
  · rfl

theorem journals_postExecSweep (env : HookEnv) (cwd : PathBuf) (command : CommandId)
    (s : HookServer) : Journals s (postExecSweep env cwd command s) := by
  unfold postExecSweep
  induction env.drift s.clock cwd generalizing s with
  | nil => exact .refl s
  | cons d drift ih => exact ((journals_tick s).trans (journals_putEvent _ _)).trans (ih _)

theorem request_eq (env : HookEnv) (s : HookServer) (req : HelperRequest) :
    request env s req = { s with requests := s.requests ++ if env.linked then [req] else [] } := by
  unfold request
  split
  · rfl
  · rw [append_nil]

/-! ### The rows -/

theorem find?_putEntry (cmd : CommandEntry) (rows : List CommandEntry) (id : CommandId) :
    (putEntry cmd rows).find? (fun row => row.command = id) =
      if cmd.command = id then
        some (((rows.find? fun row => row.command = id).map fun row => row.update cmd).getD cmd)
      else rows.find? fun row => row.command = id := by
  unfold putEntry
  split
  case isTrue hany =>
    -- an update leaves the key alone
    have hkey : ∀ row : CommandEntry,
        (if row.command = cmd.command then row.update cmd else row).command = row.command := by
      intro row
      split <;> rfl
    rw [find?_map]
    simp only [comp_def, hkey]
    by_cases hid : cmd.command = id
    · have hsome : (rows.find? fun row => row.command = id).isSome := by
        rw [isSome_find?, ← hid]
        exact hany
      rcases isSome_iff_exists.mp hsome with ⟨row, hrow⟩
      have hcommand : row.command = id := by simpa using find?_some hrow
      simp [hrow, hid, hcommand]
    · rw [if_neg hid]
      cases hrow : rows.find? fun row => row.command = id with
      | none => rfl
      | some row =>
        have hcommand : row.command = id := by simpa using find?_some hrow
        rw [map_some, if_neg (hcommand ▸ Ne.symm hid)]
  case isFalse hany =>
    rw [find?_append]
    by_cases hid : cmd.command = id
    · have hnone : (rows.find? fun row => row.command = id) = none := by
        rw [← not_isSome_iff_eq_none, isSome_find?, ← hid]
        exact hany
      simp [hnone, hid]
    · simp [hid]

/-- The frames that are no `PreExec` and no `PostExec` leave the rows, the active commands and the
helper alone. -/
theorem handle_of_execOf_none (hexec : execOf msg = none) :
    (handle env s msg).commands = s.commands ∧ (handle env s msg).active = s.active ∧
      (handle env s msg).requests = s.requests := by
  cases msg with
  | sessionOpen | preExecEnv | preExecShellState | sessionClose => exact ⟨rfl, rfl, rfl⟩
  | preExec | postExec => simp [execOf] at hexec
  | postExecEnv command envBlock =>
    simp only [handle, handlePostEnv]
    split
    · exact ⟨rfl, rfl, rfl⟩
    · split
      · exact ⟨rfl, rfl, rfl⟩
      · have h := journals_putEvent
        exact ⟨(h _ _).commands, (h _ _).active, (h _ _).requests⟩
  | postExecShellState command pwd opts aliases =>
    simp only [handle, handlePostShellState]
    split
    · exact ⟨rfl, rfl, rfl⟩
    · have h := journals_putEvent
      exact ⟨(h _ _).commands, (h _ _).active, (h _ _).requests⟩

section Exec

variable {pid : Nat} {shellKind : ShellKind} {cmdString : Option String} {exitCode : Int}
  {row : CommandEntry}

theorem handle_preExec :
    (handle env s (.preExec command pid cwd shellKind cmdString)).commands = putEntry
          { command := command, cmdString := cmdString, cwd := cwd, pid := pid
            shellKind := shellKind, startedAt := s.stamp env, endedAt := none, exitCode := none }
          s.commands ∧
      (handle env s (.preExec command pid cwd shellKind cmdString)).active =
        s.active.insert pid command := by
  simp [handle, request_eq, tick]

theorem handle_postExec_of_none (hnone : s.commandById command = none) :
    (handle env s (.postExec command exitCode)).commands = s.commands ∧
      (handle env s (.postExec command exitCode)).active = s.active := by
  simp [handle, request_eq, hnone, tick]

theorem handle_preExec_commandById (hnone : s.commandById command = none) :
    (handle env s (.preExec command pid cwd shellKind cmdString)).commandById command = some
        { command := command, cmdString := cmdString, cwd := cwd, pid := pid
          shellKind := shellKind, startedAt := s.stamp env, endedAt := none
          exitCode := none } := by
  unfold commandById at *
  rw [handle_preExec.1, find?_putEntry, hnone, if_pos rfl]
  rfl

section

variable (hrow : s.commandById command = some row)

include hrow

theorem command_of_commandById :
    row.command = command := by
  simpa using find?_some hrow

theorem handle_postExec :
    (handle env s (.postExec command exitCode)).commands =
        putEntry { row with endedAt := some (s.stamp env), exitCode := some exitCode } s.commands ∧
      (handle env s (.postExec command exitCode)).active = (s.active.remove row.pid command).2 := by
  simp only [handle, request_eq, hrow, closeCommand]
  have hsweep := journals_postExecSweep env row.cwd row.command
  refine ⟨(hsweep _).commands, (hsweep _).active.trans ?_⟩
  rw [command_of_commandById hrow]
  rfl

theorem handle_postExec_commandById :
    (handle env s (.postExec command exitCode)).commandById command =
      some { row with endedAt := some (s.stamp env), exitCode := some exitCode } := by
  have htext : row.cmdString.or row.cmdString = row.cmdString := or_self
  rw [commandById, (handle_postExec hrow).1, find?_putEntry, if_pos (command_of_commandById hrow)]
  unfold commandById at hrow
  rw [hrow, map_some, getD_some, CommandEntry.update, htext]

end

theorem handle_commandById_of_ne {msg : HookMessage} (hexec : execOf msg ≠ some id) :
    (handle env s msg).commandById id = s.commandById id := by
  unfold commandById
  cases hmsg : execOf msg with
  | none => rw [(handle_of_execOf_none hmsg).1]
  | some other =>
    have hother : other ≠ id := fun heq => hexec (heq ▸ hmsg)
    rcases execOf_eq_some hmsg with ⟨pid, cwd, shellKind, cmdString, rfl⟩ | ⟨exitCode, rfl⟩
    · rw [handle_preExec.1, find?_putEntry, if_neg hother]
    cases hrow : s.commandById other with
    | none => rw [(handle_postExec_of_none hrow).1]
    | some row =>
      rw [(handle_postExec hrow).1, find?_putEntry,
        if_neg (fun heq => hother ((command_of_commandById hrow).symm.trans heq))]

end Exec

theorem commandExists_iff : s.commandExists id = true ↔ s.commandById id ≠ none := by
  rw [← isSome_iff_ne_none, commandById, isSome_find?, commandExists]

theorem commandExists_handle_preExec {pid : Nat} {shellKind : ShellKind}
    {cmdString : Option String} :
    (handle env s (.preExec id pid cwd shellKind cmdString)).commandExists id = true := by
  rw [commandExists_iff, commandById, handle_preExec.1, find?_putEntry, if_pos rfl]
  simp

theorem commandExists_handle (h : s.commandExists id = true) :
    (handle env s msg).commandExists id = true := by
  by_cases hexec : execOf msg = some id
  · rcases execOf_eq_some hexec with ⟨pid, cwd, shellKind, cmdString, rfl⟩ | ⟨exitCode, rfl⟩
    · exact commandExists_handle_preExec
    · rw [commandExists_iff] at *
      rcases ne_none_iff_exists'.mp h with ⟨row, hrow⟩
      simp [handle_postExec_commandById hrow]
  · rw [commandExists_iff] at *
    rwa [handle_commandById_of_ne hexec]

theorem envChange_eq_none_iff (env : HookEnv) (pre post : Bytes) :
    envChange env ⟨env.blake3 pre, pre⟩ post = none ↔ env.blake3 post = env.blake3 pre ∨
      ∀ name, env.filter.isIgnored name = false →
        (parseBlock env.malformed pre).get name = (parseBlock env.malformed post).get name := by
  unfold envChange
  by_cases hhash : env.blake3 post = env.blake3 pre
  · simp [hhash]
  simp only [hhash, if_false, false_or]
  rw [ite_eq_left_iff]
  simp only [reduceCtorEq, imp_false, not_not, EnvDiff.isEmpty, Bool.and_eq_true, List.isEmpty_iff,
    SortedMap.entries_eq_nil_iff, ← forall_and, diffEnvBlocks, diffEnvMaps, SortedMap.get_filterMap]
  refine forall_congr' fun name => ?_
  -- name by name: ignored, and in which of the two environments
  cases env.filter.isIgnored name
  · cases (parseBlock env.malformed pre).get name <;>
      cases (parseBlock env.malformed post).get name <;> simp
  · simp

theorem events_putEvent_eq_iff :
    (s.putEvent event).events = s.events ↔ s.commandExists event.command = false := by
  unfold putEvent
  split_ifs with hrow
  · simp [hrow]
  · simp [hrow]

/-- **An environment change is journaled exactly if a variable that is not ignored has changed**, as
long as the command has its row and the hashes tell the blocks apart. -/
theorem envFrames_silent_iff (env : HookEnv) (s : HookServer) (id : CommandId) (pre post : Bytes) :
    (handle env (handle env s (.preExecEnv id pre)) (.postExecEnv id post)).events = s.events ↔
      s.commandExists id = false ∨ env.blake3 post = env.blake3 pre ∨
        ∀ name, env.filter.isIgnored name = false →
          (parseBlock env.malformed pre).get name = (parseBlock env.malformed post).get name := by
  rw [← envChange_eq_none_iff]
  simp only [handle, handlePreEnv, handlePostEnv, tick, update_self]
  cases hchange : envChange env ⟨env.blake3 pre, pre⟩ post with
  | none => simp
  | some kind =>
    -- the event refers to the command, so that it needs the row
    refine events_putEvent_eq_iff.trans ?_
    simp [commandExists]

/-! ### The records an undo reads -/

/-- The frame as `UndoOrder` has it. -/
def hookFrame : HookMessage → HookFrame
  | .preExec command _ _ _ cmdString => .preExec command cmdString
  | .postExec command _ => .postExec command
  | _ => .other

theorem putEntry_records (cmd : CommandEntry) (rows : List CommandEntry) :
    (putEntry cmd rows).map CommandEntry.toCommandRecord =
      putCommand cmd.toCommandRecord (rows.map CommandEntry.toCommandRecord) := by
  unfold putEntry putCommand
  simp only [List.any_map, comp_def]
  split
  · simp only [List.map_map]
    refine map_congr_left fun row _ => ?_
    simp only [comp_def]
    split <;> rfl
  · simp

theorem handle_records (env : HookEnv) (s : HookServer) (msg : HookMessage) :
    (handle env s msg).commands.map CommandEntry.toCommandRecord =
      (handleFrame ⟨s.clock, s.commands.map CommandEntry.toCommandRecord⟩ (hookFrame msg)
        (env.wall s.clock)).commands := by
  cases hexec : execOf msg with
  | none =>
    have hother : hookFrame msg = .other := by
      cases msg <;> simp_all [execOf, hookFrame]
    rw [(handle_of_execOf_none hexec).1, hother]
    rfl
  | some command =>
    rcases execOf_eq_some hexec with ⟨pid, cwd, shellKind, cmdString, rfl⟩ | ⟨exitCode, rfl⟩
    · rw [handle_preExec.1, putEntry_records]
      rfl
    have hfind : (s.commands.map CommandEntry.toCommandRecord).find?
        (fun row => row.command = command) =
          (s.commandById command).map CommandEntry.toCommandRecord := by
      rw [find?_map]
      rfl
    simp only [hookFrame, handleFrame, hfind]
    cases hrow : s.commandById command with
    | none => rw [(handle_postExec_of_none hrow).1]; rfl
    | some row => rw [(handle_postExec hrow).1, putEntry_records]; rfl

/-! ### The stamps -/

/-- The clock is past every stamp, and not before `n`; the events stand in the order of theirs. -/
structure Ordered (n clock : Nat) (events : List CaptureEvent) : Prop where
  le : n ≤ clock
  past : ∀ e ∈ events, e.ts.logical < clock
  inOrder : events.Pairwise fun a b => a.ts.logical < b.ts.logical

/-- The rows, and the events, can be told apart by their stamps. -/
structure Stamps (s : HookServer) : Prop where
  rows : Stamped ⟨s.clock, s.commands.map CommandEntry.toCommandRecord⟩
  events : Ordered s.clock s.clock s.events

section

variable {n clock : Nat} {events : List CaptureEvent}

theorem Ordered.tick (h : Ordered n clock events) : Ordered (n + 1) (clock + 1) events :=
  ⟨Nat.succ_le_succ h.le, fun e he => Nat.lt_succ_of_lt (h.past e he), h.inOrder⟩

theorem Ordered.putEvent (h : Ordered n event.ts.logical s.events)
    (hclock : s.clock = event.ts.logical + 1) :
    Ordered (n + 1) (s.putEvent event).clock (s.putEvent event).events := by
  unfold HookServer.putEvent
  split
  · show Ordered (n + 1) s.clock (s.events ++ [event])
    rw [hclock]
    refine ⟨h.tick.le, ?_, ?_⟩
    · simpa [or_imp, forall_and] using h.tick.past
    · simpa [pairwise_append, h.inOrder] using h.past
  · exact hclock ▸ h.tick

theorem Ordered.postExecSweep (h : Ordered n s.clock s.events) :
    Ordered n (postExecSweep env cwd command s).clock (postExecSweep env cwd command s).events := by
  unfold HookServer.postExecSweep
  induction env.drift s.clock cwd generalizing s with
  | nil => exact h
  | cons d drift ih =>
    have hone : Ordered (n + 1) (sweepOne env command s d).clock
        (sweepOne env command s d).events :=
      Ordered.putEvent h rfl
    exact ih { hone with le := Nat.le_of_succ_le hone.le }

theorem Ordered.handle (h : Ordered n s.clock s.events) :
    Ordered (n + 1) (handle env s msg).clock (handle env s msg).events := by
  cases msg with
  | sessionOpen | preExecEnv | preExecShellState | sessionClose => exact h.tick
  | preExec =>
    simp only [HookServer.handle, request_eq]
    exact h.tick
  | postExec =>
    simp only [HookServer.handle, request_eq]
    split
    · exact h.tick
    · exact Ordered.postExecSweep h.tick
  | postExecEnv =>
    simp only [HookServer.handle, handlePostEnv]
    split
    · exact h.tick
    · split
      · exact h.tick
      · exact Ordered.putEvent { h.tick with le := Nat.le_succ_of_le h.le } rfl
  | postExecShellState command =>
    -- the event has the stamp of the frame
    simp only [HookServer.handle, handlePostShellState, handlePost]
    cases s.tick.shellStash command with
    | none => exact h.tick
    | some pre =>
      dsimp only
      split
      · exact h.tick
      · rename_i hevent
        split at hevent
        · cases hevent
        · cases hevent
          exact Ordered.putEvent h rfl

end

theorem Stamps.handle (h : Stamps s) : Stamps (handle env s msg) := by
  have hevents : Ordered _ (HookServer.handle env s msg).clock _ := h.events.handle
  refine ⟨?_, { hevents with le := le_rfl }⟩
  have hframe := h.rows.handleFrame (hookFrame msg) (env.wall s.clock)
  have hclock : (handleFrame ⟨s.clock, s.commands.map CommandEntry.toCommandRecord⟩ (hookFrame msg)
      (env.wall s.clock)).clock ≤ (HookServer.handle env s msg).clock := by
    unfold handleFrame
    split
    · exact hevents.le
    · split <;> exact hevents.le
    · exact hevents.le
  rw [handle_records]
  exact { hframe with past := fun c hc t ht => (hframe.past c hc t ht).trans_le hclock }

/-! ### The requests to the helper -/

/-- What a frame asks of the helper. -/
def requestsOf (env : HookEnv) (msg : HookMessage) : List HelperRequest :=
  if env.linked then
    match msg with
    | .preExec command pid cwdPath shellKind _ => [.watchTree pid true command shellKind cwdPath]
    | .postExec command _ => [.unwatchTree command]
    | _ => []
  else []

theorem handle_requests (env : HookEnv) (s : HookServer) (msg : HookMessage) :
    (handle env s msg).requests = s.requests ++ requestsOf env msg := by
  cases hexec : execOf msg with
  | none =>
    have hnone : requestsOf env msg = [] := by
      unfold requestsOf
      cases msg <;> simp_all [execOf]
    rw [(handle_of_execOf_none hexec).2.2, hnone, append_nil]
  | some command =>
    rcases execOf_eq_some hexec with ⟨pid, cwd, shellKind, cmdString, rfl⟩ | ⟨exitCode, rfl⟩
    · simp [handle, request_eq, requestsOf, tick]
    simp only [handle, request_eq, requestsOf]
    cases s.commandById command with
    | none => rfl
    | some row =>
      simp only [closeCommand, (journals_postExecSweep env row.cwd row.command _).requests]
      rfl

/-! ### The environments -/

/-- The journaled differences of the environment, for a command. -/
def envDiffs (s : HookServer) (id : CommandId) : List CaptureEventKind :=
  (s.events.filter fun e => e.command = id && e.kind.isEnvDiff).map CaptureEvent.kind

theorem envDiffs_putEvent_of_not (hkind : event.kind.isEnvDiff = false) :
    (s.putEvent event).envDiffs id = s.envDiffs id := by
  unfold putEvent envDiffs
  split
  · simp [hkind]
  · rfl

theorem envDiffs_putEvent (hrow : s.commandExists event.command = true)
    (hkind : event.kind.isEnvDiff = true) :
    (s.putEvent event).envDiffs event.command = s.envDiffs event.command ++ [event.kind] := by
  unfold putEvent envDiffs
  simp [hrow, hkind]

theorem envDiffs_putEvent_of_ne (hid : event.command ≠ id) :
    (s.putEvent event).envDiffs id = s.envDiffs id := by
  unfold putEvent envDiffs
  split
  · simp [hid]
  · rfl

theorem envDiffs_postExecSweep : (postExecSweep env cwd command s).envDiffs id = s.envDiffs id := by
  unfold postExecSweep
  refine Requeue.foldl_unchanged (envDiffs · id) (fun s d _ => ?_) s
  exact envDiffs_putEvent_of_not rfl

theorem isEnvDiff_envChange {pre : EnvPre} {kind : CaptureEventKind}
    (h : envChange env pre envBlock = some kind) : kind.isEnvDiff = true := by
  unfold envChange at h
  split at h
  · simp at h
  dsimp only at h
  split at h
  · simp at h
  · rw [← some.inj h]
    rfl

/-- The frames without an environment of the command leave its stash and its differences alone. -/
theorem handle_env_of_ne (henv : envOf msg ≠ some id) :
    (handle env s msg).envStash id = s.envStash id ∧
      (handle env s msg).envDiffs id = s.envDiffs id := by
  cases msg with
  | sessionOpen | preExecShellState | sessionClose => exact ⟨rfl, rfl⟩
  | preExec => simp [handle, request_eq, tick, envDiffs]
  | postExec command exitCode =>
    simp only [handle, request_eq]
    cases s.commandById command with
    | none => exact ⟨rfl, rfl⟩
    | some row =>
      exact ⟨congrFun (journals_postExecSweep env row.cwd row.command _).envStash id,
        envDiffs_postExecSweep⟩
  | preExecEnv command envBlock =>
    have hid : id ≠ command := fun heq => henv (congrArg some heq.symm)
    exact ⟨update_of_ne hid _ _, rfl⟩
  | postExecEnv command envBlock =>
    have hid : id ≠ command := fun heq => henv (congrArg some heq.symm)
    simp only [handle, handlePostEnv]
    split
    · exact ⟨rfl, rfl⟩
    · split
      · exact ⟨update_of_ne hid _ _, rfl⟩
      · exact ⟨(congrFun (journals_putEvent _ _).envStash id).trans (update_of_ne hid _ _),
          envDiffs_putEvent_of_ne (Ne.symm hid)⟩
  | postExecShellState command pwd opts aliases =>
    simp only [handle, handlePostShellState]
    split
    · exact ⟨rfl, rfl⟩
    case _ event hevent =>
      -- what is journaled is a difference of another kind
      have hkind : event.kind.isEnvDiff = false := by
        unfold handlePost at hevent
        split at hevent
        · simp at hevent
        dsimp only at hevent
        split at hevent
        · simp at hevent
        · rw [← some.inj hevent]
          rfl
      exact ⟨congrFun (journals_putEvent _ _).envStash id, envDiffs_putEvent_of_not hkind⟩

theorem handle_preExecEnv :
    (handle env s (.preExecEnv id envBlock)).envStash id = some ⟨env.blake3 envBlock, envBlock⟩ ∧
      (handle env s (.preExecEnv id envBlock)).envDiffs id = s.envDiffs id :=
  ⟨update_self _ _ _, rfl⟩

/-- A `PostExecEnv` takes what was stashed, and journals the change if the command has a row. -/
theorem handle_postExecEnv (env : HookEnv) (envBlock : Bytes) {pre : EnvPre}
    (hstash : s.envStash id = some pre) (hrow : s.commandExists id = true) :
    (handle env s (.postExecEnv id envBlock)).envStash id = none ∧
      (handle env s (.postExecEnv id envBlock)).envDiffs id =
        s.envDiffs id ++ (envChange env pre envBlock).toList := by
  have htick : s.tick.envStash id = some pre := hstash
  simp only [handle, handlePostEnv, htick]
  cases hchange : envChange env pre envBlock with
  | none => exact ⟨update_self _ _ _, (append_nil _).symm⟩
  | some kind =>
    exact ⟨(congrFun (journals_putEvent _ _).envStash id).trans (update_self _ _ _),
      envDiffs_putEvent hrow (isEnvDiff_envChange hchange)⟩

end Parts

end HookServer

end ShitUndo
