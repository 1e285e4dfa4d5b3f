import Mathlib.Data.List.Flatten
import ShitUndo.HookServer

/-!
# Frames of the hooks in any order

`PreExec` may take another way to the daemon than the frames behind it. Whatever the order in which
frames arrive and retries come up, as long as no frame runs out of attempts:

* the commands have their rows and none stays active or watched (`commands_closed`);
* the environment is journaled exactly if its two frames are handled in order
  (`environment_journaled_iff`);
* the stamps are those of one clock (`stamps_of_frames`).
-/

namespace ShitUndo

open HookServer Requeue Transition List

/-- One run of the server: the envelopes taken, one after the other. -/
abbrev HookRun (env : HookEnv) : Hub HookServer HookMessage → List (HookMessage × Nat) →
    Hub HookServer HookMessage → Prop :=
  Runs (dispatch isReady (.handle env) rowRetryMax)

/-- The frames waiting for a row are handled while they have attempts left, as far as they
matter. -/
abbrev HandledInTime (env : HookEnv) (matters : HookMessage → Bool) :
    Hub HookServer HookMessage → List (HookMessage × Nat) → Prop :=
  Meets (InTime isReady rowRetryMax matters) (dispatch isReady (.handle env) rowRetryMax)

/-- What the two frames of a command say. -/
structure HookedCommand where
  id : CommandId
  pid : Nat
  cwd : PathBuf
  shellKind : ShellKind
  cmdString : Option String
  exitCode : Int
deriving DecidableEq

namespace HookedCommand

def preExec (c : HookedCommand) : HookMessage :=
  .preExec c.id c.pid c.cwd c.shellKind c.cmdString

def postExec (c : HookedCommand) : HookMessage := .postExec c.id c.exitCode

/-- The row of the command: while it runs there is no end and no exit code. -/
def row (c : HookedCommand) (started : TimePoint) (ended : Option TimePoint)
    (exitCode : Option Int) : CommandEntry where
  command := c.id
  cmdString := c.cmdString
  cwd := c.cwd
  pid := c.pid
  shellKind := c.shellKind
  startedAt := started
  endedAt := ended
  exitCode := exitCode

/-- The frame opens or closes this command. -/
def concerns (c : HookedCommand) (msg : HookMessage) : Bool := execOf msg = some c.id

end HookedCommand

/-- The stamp that was taken for a frame. -/
def StampOf (env : HookEnv) (s : HookServer) (handled : List HookMessage) (msg : HookMessage)
    (ts : TimePoint) : Prop :=
  ∃ before after, handled = before ++ msg :: after ∧ ts = (before.foldl (.handle env) s).stamp env

/-! ## The frames of one command -/

variable {c : HookedCommand} {s : HookServer} {id : CommandId} {env : HookEnv}

section Frames

variable {cmds : List HookedCommand} {frames handled front mid back : List HookMessage}
  {pidOf : CommandId → Nat} {msg : HookMessage}

theorem filter_concerns (hids : (cmds.map HookedCommand.id).Nodup) (hc : c ∈ cmds) :
    (cmds.flatMap fun c => [c.preExec, c.postExec]).filter c.concerns =
      [c.preExec, c.postExec] := by
  have hown : ([c.preExec, c.postExec] : List HookMessage).filter c.concerns =
      [c.preExec, c.postExec] := by
    simp [HookedCommand.concerns, HookedCommand.preExec, HookedCommand.postExec, execOf]
  have hother : ∀ d : HookedCommand, d.id ≠ c.id →
      ([d.preExec, d.postExec] : List HookMessage).filter c.concerns = [] := by
    intro d hd
    simp [HookedCommand.concerns, HookedCommand.preExec, HookedCommand.postExec, execOf, hd]
  induction cmds with
  | nil => simp at hc
  | cons d cmds ih =>
    rw [map_cons, nodup_cons] at hids
    rw [flatMap_cons, filter_append]
    rcases mem_cons.mp hc with rfl | hc
    · -- the rest is about other commands
      have hrest : (cmds.flatMap fun c => [c.preExec, c.postExec]).filter c.concerns = [] := by
        rw [filter_flatMap]
        refine flatMap_eq_nil_iff.mpr fun d hd => hother d ?_
        exact fun heq => hids.1 (heq ▸ mem_map_of_mem hd)
      rw [hown, hrest, append_nil]
    · have hd : d.id ≠ c.id := fun heq => hids.1 (heq ▸ mem_map_of_mem hc)
      rw [hother d hd, nil_append, ih hids.2 hc]

theorem foldl_commandById (env : HookEnv) (hother : ∀ m ∈ frames, c.concerns m = false)
    (s : HookServer) : (frames.foldl (.handle env) s).commandById c.id = s.commandById c.id :=
  foldl_unchanged (commandById · c.id)
    (fun _ m hm => handle_commandById_of_ne (by simpa [HookedCommand.concerns] using hother m hm)) s

section

variable (hnone : s.commandById c.id = none)

include hnone

theorem commandById_open (env : HookEnv) (hfront : ∀ m ∈ front, c.concerns m = false)
    (hmid : ∀ m ∈ mid, c.concerns m = false) :
    ((front ++ c.preExec :: mid).foldl (.handle env) s).commandById c.id =
      some (c.row ((front.foldl (.handle env) s).stamp env) none none) := by
  rw [List.foldl_append, foldl_cons, foldl_commandById env hmid]
  exact handle_preExec_commandById ((foldl_commandById env hfront s).trans hnone)

theorem commandById_closed (env : HookEnv)
    (hsplit : SplitAt c.concerns handled c.preExec c.postExec front mid back) :
    ∃ started ended, StampOf env s handled c.preExec started ∧
      StampOf env s handled c.postExec ended ∧
      (handled.foldl (.handle env) s).commandById c.id =
        some (c.row started (some ended) (some c.exitCode)) := by
  have hopen := commandById_open hnone env hsplit.front hsplit.mid
  refine ⟨_, _, ⟨front, _, hsplit.eq, rfl⟩, ⟨_, back, hsplit.eq_append, rfl⟩, ?_⟩
  rw [hsplit.eq_append, List.foldl_append, foldl_cons, foldl_commandById env hsplit.back]
  exact handle_postExec_commandById hopen

theorem splitAt_exec (env : HookEnv) (hperm : (handled.filter c.concerns).Perm
    [c.preExec, c.postExec]) (hready : ∀ before after, handled = before ++ c.postExec :: after →
      isReady (before.foldl (.handle env) s) c.postExec = true) :
    ∃ front mid back, SplitAt c.concerns handled c.preExec c.postExec front mid back := by
  rcases splitAt_of_perm hperm with hsplit | ⟨front, mid, back, hsplit⟩
  · exact hsplit
  -- there is no row yet
  have hrow : ((front.foldl (.handle env) s).commandExists c.id) = true :=
    hready front _ hsplit.eq
  rw [commandExists_iff, foldl_commandById env hsplit.front] at hrow
  exact absurd hnone hrow

end

/-! ## The active commands -/

/-- A frame as the map of active commands sees it, given the shells of the commands. -/
def execMessages (pidOf : CommandId → Nat) : HookMessage → List ExecMessage
  | .preExec command pid _ _ _ => [.preExec pid command]
  | .postExec command _ => [.postExec (pidOf command) command]
  | _ => []

theorem running_concat (msgs : List ExecMessage) (msg : ExecMessage) :
    running (msgs ++ [msg]) = startOrEnd (running msgs) msg := foldl_concat ..

/-- The map has what the frames have started and not ended, if each `PostExec` finds the row of its
command. -/
theorem active_foldl (pidOf : CommandId → Nat) (hactive : s.active = byShell [])
    (hrows : ∀ before id exitCode after, handled = before ++ .postExec id exitCode :: after →
      ∃ row, (before.foldl (.handle env) s).commandById id = some row ∧ row.pid = pidOf id) :
    (handled.foldl (.handle env) s).active =
      byShell (running (handled.flatMap (execMessages pidOf))) := by
  induction handled using reverseRecOn with
  | nil => exact hactive
  | append_singleton handled msg ih =>
    have ih := ih fun before id exitCode after heq =>
      hrows before id exitCode (after ++ [msg]) (by rw [heq]; simp)
    rw [foldl_concat, flatMap_append, flatMap_singleton]
    cases hexec : execOf msg with
    | none =>
      have hnone : execMessages pidOf msg = [] := by
        cases msg <;> simp_all [execOf, execMessages]
      rw [(handle_of_execOf_none hexec).2.1, hnone, append_nil, ih]
    | some id =>
      rcases execOf_eq_some hexec with ⟨pid, cwd, shellKind, cmdString, rfl⟩ | ⟨exitCode, rfl⟩
      · rw [handle_preExec.2, execMessages, running_concat, ih]
        exact byShell_insert
      · rcases hrows handled id exitCode [] rfl with ⟨row, hrow, hpid⟩
        rw [(handle_postExec hrow).2, execMessages, running_concat, ih, hpid]
        exact byShell_remove

theorem execOf_of_preExec_mem {pid : Nat} (h : .preExec pid id ∈ execMessages pidOf msg) :
    ∃ cwd shellKind cmdString, msg = .preExec id pid cwd shellKind cmdString := by
  cases msg <;> simp_all [execMessages]

theorem not_running_of_splitAt (hpid : pidOf c.id = c.pid)
    (hsplit : SplitAt c.concerns handled c.preExec c.postExec front mid back) :
    (c.pid, c.id) ∉ running (handled.flatMap (execMessages pidOf)) := by
  have hother : ∀ frames : List HookMessage, (∀ m ∈ frames, c.concerns m = false) →
      .preExec c.pid c.id ∉ frames.flatMap (execMessages pidOf) := by
    intro frames hframes hmem
    rcases mem_flatMap.mp hmem with ⟨m, hm, hstart⟩
    rcases execOf_of_preExec_mem hstart with ⟨cwd, shellKind, cmdString, rfl⟩
    simpa [HookedCommand.concerns, execOf] using hframes _ hm
  rw [hsplit.eq, flatMap_append, flatMap_cons, flatMap_append, flatMap_cons]
  have hout := not_mem_running (x := (c.pid, c.id)) (hother front hsplit.front)
    (hother mid hsplit.mid) (hother back hsplit.back)
  simpa only [HookedCommand.preExec, HookedCommand.postExec, execMessages, hpid,
    singleton_append] using hout

/-! ## All commands -/

/-- The frame ends a command. -/
def isPostExec : HookMessage → Bool
  | .postExec _ _ => true
  | _ => false

/-- The `PreExec` and `PostExec` frames are those of the commands, one each. -/
def Deliver (cmds : List HookedCommand) (frames : List HookMessage) : Prop :=
  (frames.filter fun m => (execOf m).isSome).Perm (cmds.flatMap fun c => [c.preExec, c.postExec])

theorem Deliver.of_perm (h : Deliver cmds frames) (hperm : handled.Perm frames) :
    Deliver cmds handled := (hperm.filter _).trans h

theorem Deliver.filter_concerns (h : Deliver cmds frames)
    (hids : (cmds.map HookedCommand.id).Nodup) (hc : c ∈ cmds) :
    (frames.filter c.concerns).Perm [c.preExec, c.postExec] := by
  have hexec : (frames.filter fun m => (execOf m).isSome).filter c.concerns =
      frames.filter c.concerns := by
    rw [filter_filter]
    refine filter_congr fun m _ => ?_
    cases hm : execOf m <;> simp [HookedCommand.concerns, hm]
  rw [← hexec, ← ShitUndo.filter_concerns hids hc]
  exact h.filter _

theorem Deliver.exists_command (h : Deliver cmds frames) (hmsg : msg ∈ frames)
    (hexec : execOf msg = some id) :
    ∃ c ∈ cmds, c.id = id ∧ (msg = c.preExec ∨ msg = c.postExec) := by
  have hmem : msg ∈ frames.filter fun m => (execOf m).isSome :=
    mem_filter.mpr ⟨hmsg, by simp [hexec]⟩
  rcases mem_flatMap.mp (h.mem_iff.mp hmem) with ⟨c, hc, hcases⟩
  have hcases : msg = c.preExec ∨ msg = c.postExec := by simpa using hcases
  refine ⟨c, hc, ?_, hcases⟩
  rcases hcases with rfl | rfl
  · exact Option.some.inj hexec
  · exact Option.some.inj hexec

/-- The shell of a command. -/
def pidIn (cmds : List HookedCommand) (id : CommandId) : Nat :=
  ((cmds.find? fun c => c.id = id).map HookedCommand.pid).getD 0

theorem pidIn_eq (hids : (cmds.map HookedCommand.id).Nodup) (hc : c ∈ cmds) :
    pidIn cmds c.id = c.pid := by
  have hsome : (cmds.find? fun d => d.id = c.id).isSome :=
    find?_isSome.mpr ⟨c, hc, decide_eq_true rfl⟩
  rcases Option.isSome_iff_exists.mp hsome with ⟨d, hd⟩
  have hid : d.id = c.id := by simpa using find?_some hd
  rw [pidIn, hd, inj_on_of_nodup_map hids (mem_of_find?_eq_some hd) hc hid]
  rfl

/-- Nothing of the commands is there yet. -/
structure Fresh (cmds : List HookedCommand) (s : HookServer) : Prop where
  rows : ∀ c ∈ cmds, s.commandById c.id = none
  active : ∀ pid, s.active pid = none
  requests : s.requests = []

/-- Every request to watch a tree is followed by one to stop watching it. -/
def Unwatched (requests : List HelperRequest) : Prop :=
  ∀ before after rootPid descendantsToo command shellKind cwdPath,
    requests = before ++ .watchTree rootPid descendantsToo command shellKind cwdPath :: after →
      .unwatchTree command ∈ after

/-- The two frames of every command are handled, the `PreExec` first. -/
def InOrder (cmds : List HookedCommand) (handled : List HookMessage) : Prop :=
  ∀ c ∈ cmds, ∃ front mid back, SplitAt c.concerns handled c.preExec c.postExec front mid back

theorem HookedCommand.concerns_postExec (c : HookedCommand) : c.concerns c.postExec = true :=
  decide_eq_true rfl

theorem HookedCommand.preExec_ne_postExec (c : HookedCommand) : c.preExec ≠ c.postExec := by
  simp [HookedCommand.preExec, HookedCommand.postExec]

theorem active_of_inOrder (hids : (cmds.map HookedCommand.id).Nodup) (hfresh : Fresh cmds s)
    (hdeliver : Deliver cmds handled) (horder : InOrder cmds handled) (pid : Nat) :
    (handled.foldl (.handle env) s).active pid = none := by
  have hrows : ∀ before id exitCode after, handled = before ++ .postExec id exitCode :: after →
      ∃ row, (before.foldl (.handle env) s).commandById id = some row ∧
        row.pid = pidIn cmds id := by
    intro before id exitCode after heq
    have hmem : .postExec id exitCode ∈ handled := heq ▸ by simp
    rcases hdeliver.exists_command hmem rfl with ⟨c, hc, rfl, hpre | hpost⟩
    · simp [HookedCommand.preExec] at hpre
    rcases horder c hc with ⟨front, mid, back, hsplit⟩
    rw [hpost] at heq
    rw [(hsplit.second_unique c.concerns_postExec c.preExec_ne_postExec heq).1]
    exact ⟨_, commandById_open (hfresh.rows c hc) env hsplit.front hsplit.mid,
      (pidIn_eq hids hc).symm⟩
  rw [active_foldl (pidIn cmds) (funext hfresh.active) hrows]
  -- what is running was started by one of the frames
  have hnil : running (handled.flatMap (execMessages (pidIn cmds))) = [] := by
    refine eq_nil_iff_forall_not_mem.mpr fun x hx => ?_
    rcases mem_flatMap.mp (mem_running hx) with ⟨m, hm, hstart⟩
    rcases execOf_of_preExec_mem hstart with ⟨cwd, shellKind, cmdString, rfl⟩
    rcases hdeliver.exists_command hm rfl with ⟨c, hc, hid, hpre | hpost⟩
    · rcases horder c hc with ⟨front, mid, back, hsplit⟩
      have hx' : x = (c.pid, c.id) := by
        simp only [HookedCommand.preExec, HookMessage.preExec.injEq] at hpre
        exact Prod.ext hpre.2.1 hpre.1
      exact not_running_of_splitAt (pidIn_eq hids hc) hsplit (hx' ▸ hx)
    · simp [HookedCommand.postExec] at hpost
  rw [hnil]
  rfl

theorem watchTree_mem_requestsOf {rootPid : Nat} {descendantsToo : Bool} {command : CommandId}
    {shellKind : ShellKind} {cwdPath : PathBuf}
    (h : .watchTree rootPid descendantsToo command shellKind cwdPath ∈ requestsOf env msg) :
    env.linked = true ∧ descendantsToo = true ∧
      ∃ cmdString, msg = .preExec command rootPid cwdPath shellKind cmdString := by
  unfold requestsOf at h
  split at h
  case isTrue hlinked => cases msg <;> simp_all
  case isFalse => simp at h

theorem unwatched_of_inOrder (hfresh : Fresh cmds s) (hdeliver : Deliver cmds handled)
    (horder : InOrder cmds handled) : Unwatched (handled.foldl (.handle env) s).requests := by
  rw [foldl_appends HookServer.requests (requestsOf env) (handle_requests env), hfresh.requests,
    nil_append]
  intro before after rootPid descendantsToo command shellKind cwdPath heq
  have hmem : .watchTree rootPid descendantsToo command shellKind cwdPath ∈
      handled.flatMap (requestsOf env) := heq ▸ by simp
  rcases mem_flatMap.mp hmem with ⟨m, hm, hwatch⟩
  rcases watchTree_mem_requestsOf hwatch with ⟨hlinked, rfl, cmdString, rfl⟩
  rcases hdeliver.exists_command hm rfl with ⟨c, hc, rfl, hpre | hpost⟩
  · rcases horder c hc with ⟨front, mid, back, hsplit⟩
    -- the requests of other commands are no such request
    have hother : ∀ frames : List HookMessage, (∀ m ∈ frames, c.concerns m = false) →
        .watchTree rootPid true c.id shellKind cwdPath ∉ frames.flatMap (requestsOf env) := by
      intro frames hframes hmem
      rcases mem_flatMap.mp hmem with ⟨m, hm, hwatch⟩
      rcases watchTree_mem_requestsOf hwatch with ⟨-, -, cmdString, rfl⟩
      simpa [HookedCommand.concerns, execOf] using hframes _ hm
    have hpost : requestsOf env c.postExec = [.unwatchTree c.id] := by
      simp [requestsOf, hlinked, HookedCommand.postExec]
    have hrest : .watchTree rootPid true c.id shellKind cwdPath ∉
        mid.flatMap (requestsOf env) ++ .unwatchTree c.id :: back.flatMap (requestsOf env) := by
      simp [hother mid hsplit.mid, hother back hsplit.back]
    have hwhole : handled.flatMap (requestsOf env) = front.flatMap (requestsOf env) ++
        .watchTree rootPid true c.id shellKind cwdPath ::
          (mid.flatMap (requestsOf env) ++ .unwatchTree c.id :: back.flatMap (requestsOf env)) := by
      rw [hsplit.eq, flatMap_append, flatMap_cons, flatMap_append, flatMap_cons, hpost, ← hpre]
      simp [requestsOf, hlinked]
    have hsame := (append_cons_inj_of_notMem (hother front hsplit.front) hrest).mp
      (hwhole.symm.trans heq)
    rw [← hsame.2.2]
    simp
  · simp [HookedCommand.postExec] at hpost

end Frames

/-- Whatever the order in which the frames arrive and retries come up, if no `PostExec` runs out of
attempts before the `PreExec` of its command: the rows are those of the commands, with the stamps
that were taken for their own frames, no command is active, and no tree stays watched. -/
theorem commands_closed (env : HookEnv) (s : HookServer) (cmds : List HookedCommand)
    (frames : List HookMessage) (run : List (HookMessage × Nat)) (hub : Hub HookServer HookMessage)
    (hids : (cmds.map HookedCommand.id).Nodup) (hfresh : Fresh cmds s)
    (hdeliver : Deliver cmds frames) (hrun : HookRun env (.start s frames) run hub)
    (htime : HandledInTime env isPostExec (.start s frames) run) (hend : hub.waiting = []) :
    run.length ≤ (rowRetryMax + 1) * frames.length ∧
    (∀ c ∈ cmds, ∃ started ended, StampOf env s hub.handled c.preExec started ∧
      StampOf env s hub.handled c.postExec ended ∧
      hub.state.commandById c.id = some (c.row started (some ended) (some c.exitCode))) ∧
    (∀ pid, hub.state.active pid = none) ∧
    Unwatched hub.state.requests := by
  have hhandled : Deliver cmds hub.handled := hdeliver.of_perm (perm_of_finished hrun hend)
  have horder : InOrder cmds hub.handled := by
    intro c hc
    refine splitAt_exec (hfresh.rows c hc) env (hhandled.filter_concerns hids hc) ?_
    exact fun before after heq => ready_of_runs hrun htime heq rfl
  rw [state_of_runs hrun]
  refine ⟨length_le_of_runs hrun, ?_, active_of_inOrder hids hfresh hhandled horder,
    unwatched_of_inOrder hfresh hhandled horder⟩
  intro c hc
  rcases horder c hc with ⟨front, mid, back, hsplit⟩
  exact commandById_closed (hfresh.rows c hc) env hsplit

/-- A server that has seen nothing. -/
def newServer : HookServer where
  clock := 1
  sessions := []
  commands := []
  events := []
  envStash := fun _ => none
  shellStash := fun _ => none
  active := fun _ => none
  requests := []

/-- A helper is there, no attribute has drifted, and the hash tells blocks apart by their length. -/
def plainEnv : HookEnv where
  wall := fun n => some n
  blake3 := fun bytes => ⟨bytes.length⟩
  malformed := fun _ => ""
  filter := .default
  drift := fun _ _ => []
  linked := true

/-- A command in the background. -/
def sleepCommand : HookedCommand := ⟨⟨0, 1⟩, 100, [], .bash, some "sleep 9 &", 0⟩

/-- The next command of the same shell. -/
def lsCommand : HookedCommand := ⟨⟨0, 2⟩, 100, [], .bash, some "ls", 2⟩

/-- Their frames. -/
def bothFrames : List HookMessage :=
  [sleepCommand.preExec, sleepCommand.postExec, lsCommand.preExec, lsCommand.postExec]

/-- Each `PostExec` comes before its `PreExec`, and the first command ends last. -/
def lateFrames : List (HookMessage × Nat) :=
  [(lsCommand.postExec, 0), (sleepCommand.postExec, 0), (sleepCommand.preExec, 0),
    (lsCommand.preExec, 0), (lsCommand.postExec, 1), (sleepCommand.postExec, 1)]

theorem late_preExec_closed :
    ∃ hub, HookRun plainEnv (.start newServer bothFrames) lateFrames hub ∧
      (∃ started ended, hub.state.commandById ⟨0, 2⟩ =
        some (lsCommand.row started (some ended) (some 2))) ∧
      ∀ pid, hub.state.active pid = none := by
  have hdeliver : Deliver [sleepCommand, lsCommand] bothFrames := by
    unfold Deliver
    exact .refl _
  have hrun : HookRun plainEnv (.start newServer bothFrames) lateFrames _ := rfl
  have hclosed := commands_closed plainEnv newServer [sleepCommand, lsCommand] _ lateFrames _
    (by decide) ⟨by decide, fun _ => rfl, rfl⟩ hdeliver hrun (by decide) rfl
  rcases hclosed.2.1 lsCommand (by decide) with ⟨started, ended, -, -, hrow⟩
  exact ⟨_, hrun, ⟨started, ended, hrow⟩, hclosed.2.2.1⟩

/-! ## The environments of one command -/

section Environment

variable {pre post : Bytes} {frames handled front mid back : List HookMessage}

/-- The frame has an environment of the command. -/
def hasEnvOf (id : CommandId) (msg : HookMessage) : Bool := envOf msg = some id

/-- The frame waits for the row of the command. -/
def waitsFor (id : CommandId) (msg : HookMessage) : Bool := needsCommandRow msg = some id

/-- Of the frames that matter for the rows and the environments, the command has these four. -/
def DeliverEnv (c : HookedCommand) (pre post : Bytes) (frames : List HookMessage) : Prop :=
  (frames.filter fun m => c.concerns m || hasEnvOf c.id m).Perm
    [c.preExec, .preExecEnv c.id pre, c.postExec, .postExecEnv c.id post]

/-- The four frames in order. -/
def inOrder (env : HookEnv) (s : HookServer) (c : HookedCommand) (pre post : Bytes) : HookServer :=
  [c.preExec, .preExecEnv c.id pre, c.postExec, .postExecEnv c.id post].foldl (.handle env) s

/-- Frames without an environment of the command leave what is stashed and journaled for it
alone. -/
theorem foldl_env (env : HookEnv) (hother : ∀ m ∈ frames, hasEnvOf id m = false) (s : HookServer) :
    (frames.foldl (.handle env) s).envStash id = s.envStash id ∧
      (frames.foldl (.handle env) s).envDiffs id = s.envDiffs id := by
  have hne : ∀ m ∈ frames, envOf m ≠ some id := fun m hm => by
    simpa [hasEnvOf] using hother m hm
  exact ⟨foldl_unchanged (fun s => s.envStash id) (fun _ m hm => (handle_env_of_ne (hne m hm)).1) s,
    foldl_unchanged (fun s => s.envDiffs id) (fun _ m hm => (handle_env_of_ne (hne m hm)).2) s⟩

theorem stashed_of_splitAt (pre : Bytes) (env : HookEnv)
    (hfront : ∀ m ∈ front, hasEnvOf id m = false) (hmid : ∀ m ∈ mid, hasEnvOf id m = false)
    (s : HookServer) :
    ((front ++ .preExecEnv id pre :: mid).foldl (.handle env) s).envStash id =
        some ⟨env.blake3 pre, pre⟩ ∧
      ((front ++ .preExecEnv id pre :: mid).foldl (.handle env) s).envDiffs id = s.envDiffs id := by
  rw [List.foldl_append, foldl_cons, (foldl_env env hmid _).1, (foldl_env env hmid _).2,
    handle_preExecEnv.1, handle_preExecEnv.2, (foldl_env env hfront s).2]
  exact ⟨rfl, rfl⟩

theorem env_of_splitAt (hsplit : SplitAt (hasEnvOf id) handled (.preExecEnv id pre)
      (.postExecEnv id post) front mid back)
    (hrow : ((front ++ .preExecEnv id pre :: mid).foldl (.handle env) s).commandExists id = true) :
    (handled.foldl (.handle env) s).envStash id = none ∧
      (handled.foldl (.handle env) s).envDiffs id =
        s.envDiffs id ++ (envChange env ⟨env.blake3 pre, pre⟩ post).toList := by
  have hstash := stashed_of_splitAt pre env hsplit.front hsplit.mid s
  have hpost := handle_postExecEnv env post hstash.1 hrow
  rw [hsplit.eq_append, List.foldl_append, foldl_cons, (foldl_env env hsplit.back _).1,
    (foldl_env env hsplit.back _).2, hpost.1, hpost.2, hstash.2]
  exact ⟨rfl, rfl⟩

theorem inOrder_env (env : HookEnv) (s : HookServer) (c : HookedCommand) (pre post : Bytes) :
    (inOrder env s c pre post).envDiffs c.id =
      s.envDiffs c.id ++ (envChange env ⟨env.blake3 pre, pre⟩ post).toList := by
  have hsplit : SplitAt (hasEnvOf c.id)
      [c.preExec, .preExecEnv c.id pre, c.postExec, .postExecEnv c.id post]
      (.preExecEnv c.id pre) (.postExecEnv c.id post) [c.preExec] [c.postExec] [] := by
    refine ⟨rfl, ?_, ?_, ?_⟩ <;>
      simp [hasEnvOf, envOf, HookedCommand.preExec, HookedCommand.postExec]
  have hpre : (s.handle env c.preExec).commandExists c.id = true := commandExists_handle_preExec
  have hrow : (([c.preExec] ++ .preExecEnv c.id pre :: [c.postExec]).foldl (.handle env)
      s).commandExists c.id = true := by
    simp only [singleton_append, foldl_cons, foldl_nil]
    exact commandExists_handle (commandExists_handle hpre)
  exact (env_of_splitAt hsplit hrow).2

theorem DeliverEnv.filter_env (h : DeliverEnv c pre post frames) :
    (frames.filter (hasEnvOf c.id)).Perm [.preExecEnv c.id pre, .postExecEnv c.id post] := by
  have hboth : (frames.filter fun m => c.concerns m || hasEnvOf c.id m).filter (hasEnvOf c.id) =
      frames.filter (hasEnvOf c.id) := by
    rw [filter_filter]
    refine filter_congr fun m _ => ?_
    cases hasEnvOf c.id m <;> simp
  have hfour : ([c.preExec, .preExecEnv c.id pre, c.postExec, .postExecEnv c.id post] :
      List HookMessage).filter (hasEnvOf c.id) =
        [.preExecEnv c.id pre, .postExecEnv c.id post] := by
    simp [hasEnvOf, envOf, HookedCommand.preExec, HookedCommand.postExec]
  rw [← hboth, ← hfour]
  exact h.filter _

end Environment

/-- Whatever the order in which the frames arrive and retries come up, if the frames that wait for
the row get it in time: the journaled difference is the one of the frames in order, and nothing is
left in the stash, exactly when the `PreExecEnv` is handled before the `PostExecEnv`. -/
theorem environment_journaled_iff (env : HookEnv) (s : HookServer) (c : HookedCommand)
    (pre post : Bytes) (frames : List HookMessage) (run : List (HookMessage × Nat))
    (hub : Hub HookServer HookMessage) (hdeliver : DeliverEnv c pre post frames)
    (hrun : HookRun env (.start s frames) run hub)
    (htime : HandledInTime env (waitsFor c.id) (.start s frames) run) (hend : hub.waiting = []) :
    (hub.state.envDiffs c.id = (inOrder env s c pre post).envDiffs c.id ∧
        hub.state.envStash c.id = none) ↔
      Precedes (.preExecEnv c.id pre) (.postExecEnv c.id post) hub.handled := by
  have hperm := perm_of_finished hrun hend
  have hne : HookMessage.preExecEnv c.id pre ≠ .postExecEnv c.id post := by simp
  rw [inOrder_env, state_of_runs hrun]
  rcases splitAt_of_perm ((hperm.filter _).trans hdeliver.filter_env) with
    ⟨front, mid, back, hsplit⟩ | ⟨front, mid, back, hsplit⟩
  · -- the environment before the command is stashed in time
    have hready := ready_of_runs hrun htime hsplit.eq_append (by simp [waitsFor, needsCommandRow])
    have henv := env_of_splitAt hsplit hready
    refine iff_of_true ⟨henv.2, henv.1⟩ ?_
    intro before after heq
    rw [(hsplit.second_unique (by simp [hasEnvOf, envOf]) hne heq).1]
    simp
  · -- the environment after the command is dropped, and the other one stays
    refine iff_of_false ?_ ?_
    · rintro ⟨-, hstash⟩
      rw [hsplit.eq, List.foldl_append, foldl_cons, List.foldl_append, foldl_cons,
        (foldl_env env hsplit.back _).1, handle_preExecEnv.1] at hstash
      simp at hstash
    · intro hprecedes
      have hfront := hsplit.front _ (hprecedes front _ hsplit.eq)
      simp [hasEnvOf, envOf] at hfront

/-- The frames of a command that sets a variable. -/
def exportFrames : List HookMessage :=
  [sleepCommand.preExec, .preExecEnv ⟨0, 1⟩ [], sleepCommand.postExec,
    .postExecEnv ⟨0, 1⟩ [65, 61, 66]]

/-- The `PreExec` comes late, the environments in order. -/
def latePreExec : List (HookMessage × Nat) :=
  [(.postExecEnv ⟨0, 1⟩ [65, 61, 66], 0), (sleepCommand.postExec, 0), (.preExecEnv ⟨0, 1⟩ [], 0),
    (sleepCommand.preExec, 0), (.postExecEnv ⟨0, 1⟩ [65, 61, 66], 1), (sleepCommand.postExec, 1)]

theorem late_preExec_journaled :
    ∃ hub, HookRun plainEnv (.start newServer exportFrames) latePreExec hub ∧
      hub.state.envDiffs ⟨0, 1⟩ =
        (inOrder plainEnv newServer sleepCommand [] [65, 61, 66]).envDiffs ⟨0, 1⟩ ∧
      hub.state.envStash ⟨0, 1⟩ = none := by
  have hdeliver : DeliverEnv sleepCommand [] [65, 61, 66] exportFrames := by
    unfold DeliverEnv
    exact .refl _
  have hrun : HookRun plainEnv (.start newServer exportFrames) latePreExec _ := rfl
  have hiff := environment_journaled_iff plainEnv newServer sleepCommand [] [65, 61, 66] _ _ _
    hdeliver hrun (by decide) rfl
  exact ⟨_, hrun, hiff.mpr (by decide)⟩

/-- The `PreExecEnv` comes late. -/
def latePreExecEnv : List (HookMessage × Nat) :=
  [(sleepCommand.preExec, 0), (sleepCommand.postExec, 0), (.postExecEnv ⟨0, 1⟩ [65, 61, 66], 0),
    (.preExecEnv ⟨0, 1⟩ [], 0)]

/-- In order the new variable is journaled. With the `PreExecEnv` behind the `PostExecEnv` nothing
is, and the former stays in the stash. -/
theorem late_preExecEnv_lost :
    (inOrder plainEnv newServer sleepCommand [] [65, 61, 66]).envDiffs ⟨0, 1⟩ =
        [.envDiff [("A", "B")] [] []] ∧
      ∃ hub, HookRun plainEnv (.start newServer exportFrames) latePreExecEnv hub ∧
        hub.waiting = [] ∧ hub.state.envDiffs ⟨0, 1⟩ = [] ∧
        (hub.state.envStash ⟨0, 1⟩).map EnvPre.envBlock = some [] := by
  refine ⟨?_, _, rfl, rfl, by decide, rfl⟩
  decide +kernel

/-! ## The stamps of a run -/

/-- **In whatever order the frames come**, a command has one row, no two commands end at one logical
time, and the journal stands in the order of its stamps. -/
theorem stamps_of_frames (env : HookEnv) (msgs : List HookMessage) :
    Stamps (msgs.foldl (.handle env) newServer) := by
  refine foldlRecOn msgs _ ⟨stamped_daemonRun [], ?_⟩ fun s hs msg _ => hs.handle
  exact ⟨le_rfl, by simp [newServer], Pairwise.nil⟩

end ShitUndo
