import Mathlib.Data.List.Induction
import ShitUndo.Events
import ShitUndo.Lib.AncestorWalk

/-!
# Which running command a process belongs to

The daemon keeps the commands between their `PreExec` and their `PostExec` in a map from the pid of
the shell to a stack (`active_commands.rs`). An event of the other tiers comes with the pid of a
process, and belongs to the command on top of the stack of its nearest ancestor that has one
(`ancestry.rs`).

`running`: the commands that are running after some messages, over all shells, in the order in
which they started.
-/

namespace ShitUndo

open AncestorWalk List

/-! ## The map -/

/-- `ActiveCommands`: shell pid to the stack of its commands, the latest at the end. -/
abbrev ActiveCommands := Nat → Option (List CommandId)

namespace ActiveCommands

/-- `insert`: push the command onto the stack of the shell. -/
def insert (active : ActiveCommands) (shellPid : Nat) (command : CommandId) : ActiveCommands :=
  fun pid =>
    if pid = shellPid then some ((active shellPid).getD [] ++ [command]) else active pid

/-- `remove`: take the command off the stack of the shell, wherever it is there; an empty stack is
taken out of the map. -/
def remove (active : ActiveCommands) (shellPid : Nat) (command : CommandId) :
    Bool × ActiveCommands :=
  match active shellPid with
  | none => (false, active)
  | some stack =>
    if command ∈ stack then
      (true, fun pid =>
        if pid = shellPid then
          if (stack.erase command).isEmpty then none else some (stack.erase command)
        else active pid)
    else (false, active)

end ActiveCommands

/-! ## The walk -/

def maxWalkDepth : Nat := 256

/-- `init`, or no process at all. -/
def isInit (pid : Nat) : Bool := pid = 0 || pid = 1

/-- The loop of `ancestor_chain`, with the pids seen so far. -/
def ancestorLoop (parentPid : Nat → Option Nat) : Nat → List Nat → Nat → List Nat
  | 0, _, _ => []
  | fuel + 1, seen, cur =>
    if cur ∈ seen then []
    else
      cur :: match parentPid cur with
        | none => []
        | some p => if isInit p || p = cur then [] else ancestorLoop parentPid fuel (cur :: seen) p

def ancestorChain (parentPid : Nat → Option Nat) (startPid : Nat) : List Nat :=
  ancestorLoop parentPid maxWalkDepth [] startPid

def ActiveCommands.resolveByDescendant (active : ActiveCommands) (parentPid : Nat → Option Nat)
    (emitterPid : Nat) : Option CommandId :=
  (ancestorChain parentPid emitterPid).findSome? fun pid => (active pid).bind getLast?

variable {parentPid : Nat → Option Nat} {pid : Nat} {chain : List Nat}

theorem ancestorLoop_eq_climb (h : Lineage parentPid pid chain) (fuel : Nat) {seen : List Nat}
    (hseen : ∀ q ∈ chain, q ∉ seen) :
    ancestorLoop parentPid fuel seen pid = climb parentPid isInit fuel pid := by
  induction h generalizing fuel seen with
  | @last pid hnone =>
    cases fuel with
    | zero => rfl
    | succ fuel => simp [ancestorLoop, climb, hnone, hseen pid]
  | @step pid p chain hparent hrest ih =>
    cases fuel with
    | zero => rfl
    | succ fuel =>
      have hnodup := (Lineage.step hparent hrest).nodup
      have hfresh : ∀ q ∈ chain, q ≠ pid := fun q hq heq =>
        (nodup_cons.mp hnodup).1 (heq ▸ hq)
      have hseen' : ∀ q ∈ chain, q ∉ pid :: seen := by
        intro q hq hmem
        rcases mem_cons.mp hmem with heq | hmem
        · exact hfresh q hq heq
        · exact hseen q (mem_cons_of_mem _ hq) hmem
      have hp : p ≠ pid := hfresh p hrest.head_mem
      rw [ancestorLoop, climb, if_neg (hseen pid mem_cons_self), hparent]
      simp only [hp, decide_false, Bool.or_false, ih fuel hseen']

theorem ancestorChain_eq_lower (h : Lineage parentPid pid chain)
    (hdepth : chain.length ≤ maxWalkDepth) :
    ancestorChain parentPid pid = lower isInit chain :=
  (ancestorLoop_eq_climb h maxWalkDepth fun _ _ => not_mem_nil).trans
    (h.climb_eq_lower isInit hdepth)

/-! ## The running commands -/

/-- The messages that open and close a command of a shell. -/
inductive ExecMessage where
  | preExec (shellPid : Nat) (command : CommandId)
  | postExec (shellPid : Nat) (command : CommandId)
deriving DecidableEq, Repr

/-- What the daemon does with a message. -/
def ActiveCommands.handle (active : ActiveCommands) : ExecMessage → ActiveCommands
  | .preExec shellPid command => active.insert shellPid command
  | .postExec shellPid command => (active.remove shellPid command).2

/-- The map after some messages. -/
def tracked (msgs : List ExecMessage) : ActiveCommands :=
  msgs.foldl ActiveCommands.handle fun _ => none

/-- One message, for the list of what is running. -/
def startOrEnd (l : List (Nat × CommandId)) : ExecMessage → List (Nat × CommandId)
  | .preExec shellPid command => l ++ [(shellPid, command)]
  | .postExec shellPid command => l.erase (shellPid, command)

/-- The commands that are running after the messages, with their shells, in the order in which they
started. -/
def running (msgs : List ExecMessage) : List (Nat × CommandId) := msgs.foldl startOrEnd []

/-- The running commands of one shell. -/
def ofShell (l : List (Nat × CommandId)) (shellPid : Nat) : List CommandId :=
  (l.filter fun e => e.1 = shellPid).map Prod.snd

/-- The most recently started of them. -/
def latestOf (l : List (Nat × CommandId)) (shellPid : Nat) : Option CommandId :=
  (ofShell l shellPid).getLast?

/-- The most recently started command of the first pid that has one. -/
def nearestRunning (l : List (Nat × CommandId)) (chain : List Nat) : Option CommandId :=
  chain.findSome? (latestOf l)

/-- The shell has a running command. -/
def HasRunning (l : List (Nat × CommandId)) (shellPid : Nat) : Prop := ∃ c, (shellPid, c) ∈ l

/-! ## The map is the list, split by shell -/

/-- A list of running commands as the map has it. -/
def byShell (l : List (Nat × CommandId)) : ActiveCommands :=
  fun pid => if (ofShell l pid).isEmpty then none else some (ofShell l pid)

variable {l : List (Nat × CommandId)} {shellPid : Nat} {command : CommandId} {x : Nat × CommandId}
  {msgs : List ExecMessage}

theorem ofShell_concat (pid : Nat) :
    ofShell (l ++ [(shellPid, command)]) pid =
      if pid = shellPid then ofShell l shellPid ++ [command] else ofShell l pid := by
  by_cases hpid : pid = shellPid
  · subst hpid
    simp [ofShell]
  · simp [ofShell, hpid, Ne.symm hpid]

theorem ofShell_cons (e : Nat × CommandId) (pid : Nat) :
    ofShell (e :: l) pid = if e.1 = pid then e.2 :: ofShell l pid else ofShell l pid := by
  by_cases hpid : e.1 = pid <;> simp [ofShell, hpid]

theorem ofShell_erase (pid : Nat) :
    ofShell (l.erase (shellPid, command)) pid =
      if pid = shellPid then (ofShell l shellPid).erase command else ofShell l pid := by
  induction l with
  | nil => simp [ofShell]
  | cons e l ih =>
    rcases e with ⟨q, c⟩
    by_cases hhere : (q, c) = (shellPid, command)
    · cases hhere
      by_cases hpid : pid = shellPid
      · subst hpid
        simp [ofShell_cons]
      · simp [ofShell_cons, hpid, Ne.symm hpid]
    · rw [erase_cons_tail (by simpa using hhere), ofShell_cons, ofShell_cons, ih]
      by_cases hpid : pid = shellPid
      · subst hpid
        by_cases hq : q = pid
        · subst hq
          have hc : c ≠ command := fun heq => hhere (heq ▸ rfl)
          simp [erase_cons_tail, hc]
        · simp [hq]
      · simp [ofShell_cons, hpid]

theorem byShell_insert :
    (byShell l).insert shellPid command = byShell (l ++ [(shellPid, command)]) := by
  funext pid
  simp only [ActiveCommands.insert, byShell, ofShell_concat]
  by_cases hpid : pid = shellPid
  · -- no stack is an empty one
    have hstack : (if (ofShell l shellPid).isEmpty then none
        else some (ofShell l shellPid)).getD [] = ofShell l shellPid := by
      cases ofShell l shellPid <;> rfl
    rw [if_pos hpid, if_pos hpid, hstack, if_neg (by simp)]
  · simp only [if_neg hpid]

theorem byShell_remove :
    ((byShell l).remove shellPid command).2 = byShell (l.erase (shellPid, command)) := by
  funext pid
  unfold ActiveCommands.remove
  by_cases hnone : ofShell l shellPid = []
  · -- nothing to take away
    have hgone : ofShell (l.erase (shellPid, command)) pid = ofShell l pid := by
      rw [ofShell_erase]
      split
      case isTrue hpid => rw [hpid, hnone, erase_nil]
      case isFalse => rfl
    simp [byShell, hnone, hgone]
  · have hstack : byShell l shellPid = some (ofShell l shellPid) := by
      simp [byShell, hnone]
    rw [hstack]
    by_cases hmem : command ∈ ofShell l shellPid
    · simp only [if_pos hmem, byShell, ofShell_erase]
      by_cases hpid : pid = shellPid
      · simp only [if_pos hpid]
      · simp only [if_neg hpid]
    · have hsame : ofShell (l.erase (shellPid, command)) pid = ofShell l pid := by
        rw [ofShell_erase]
        split
        case isTrue hpid => rw [hpid, erase_of_not_mem hmem]
        case isFalse => rfl
      simp only [if_neg hmem, byShell, hsame]

theorem byShell_handle (l : List (Nat × CommandId)) (msg : ExecMessage) :
    (byShell l).handle msg = byShell (startOrEnd l msg) := by
  cases msg with
  | preExec shellPid command => exact byShell_insert
  | postExec shellPid command => exact byShell_remove

theorem tracked_eq_byShell (msgs : List ExecMessage) : tracked msgs = byShell (running msgs) := by
  have hnone : (fun _ => none : ActiveCommands) = byShell [] := rfl
  unfold tracked running
  rw [hnone]
  exact foldl_hom byShell byShell_handle

/-! ## What is running -/

theorem mem_running (h : x ∈ running msgs) : .preExec x.1 x.2 ∈ msgs := by
  unfold running at h
  induction msgs using reverseRecOn with
  | nil => simp at h
  | append_singleton msgs msg ih =>
    rw [foldl_concat] at h
    refine mem_append.mpr ?_
    cases msg with
    | preExec shellPid command =>
      rcases mem_append.mp h with hold | hnew
      · exact .inl (ih hold)
      · rw [mem_singleton.mp hnew]
        exact .inr mem_cons_self
    | postExec shellPid command => exact .inl (ih (mem_of_mem_erase h))

theorem count_foldl_le (hstart : .preExec x.1 x.2 ∉ msgs) (l : List (Nat × CommandId)) :
    (msgs.foldl startOrEnd l).count x ≤ l.count x := by
  induction msgs generalizing l with
  | nil => exact le_rfl
  | cons msg msgs ih =>
    rw [mem_cons, not_or] at hstart
    refine (ih hstart.2 _).trans ?_
    cases msg with
    | preExec shellPid command =>
      have hne : x ≠ (shellPid, command) := by
        rintro rfl
        exact hstart.1 rfl
      rw [startOrEnd, count_append, count_singleton]
      simp [Ne.symm hne]
    | postExec shellPid command => exact erase_sublist.count_le x

theorem not_mem_running {front mid back : List ExecMessage} (hfront : .preExec x.1 x.2 ∉ front)
    (hmid : .preExec x.1 x.2 ∉ mid) (hback : .preExec x.1 x.2 ∉ back) :
    x ∉ running (front ++ .preExec x.1 x.2 :: (mid ++ .postExec x.1 x.2 :: back)) := by
  unfold running
  rw [← count_eq_zero, foldl_append, foldl_cons, foldl_append, foldl_cons]
  have hstart : ∀ l, (startOrEnd l (.preExec x.1 x.2)).count x = l.count x + 1 := by
    intro l
    rw [startOrEnd, count_append, count_singleton_self]
  have hend : ∀ l, (startOrEnd l (.postExec x.1 x.2)).count x = l.count x - 1 := by
    intro l
    rw [startOrEnd, count_erase_self]
  have hzero := count_foldl_le hfront []
  have hone := count_foldl_le hmid (startOrEnd (front.foldl startOrEnd []) (.preExec x.1 x.2))
  have hlast := count_foldl_le hback (startOrEnd (mid.foldl startOrEnd
    (startOrEnd (front.foldl startOrEnd []) (.preExec x.1 x.2))) (.postExec x.1 x.2))
  rw [count_nil] at hzero
  rw [hstart] at hone
  rw [hend] at hlast
  omega

/-! ## The nearest running command -/

theorem byShell_getLast? (l : List (Nat × CommandId)) (pid : Nat) :
    (byShell l pid).bind getLast? = latestOf l pid := by
  unfold byShell latestOf
  cases ofShell l pid <;> rfl

theorem isSome_latestOf : (latestOf l pid).isSome ↔ HasRunning l pid := by
  simp [latestOf, HasRunning, ofShell]

/-- The nearest ancestor-or-self with a running command is found, and its most recently started
command returned, exactly when one of those below pid 0 and 1 has a running command if any has. -/
theorem resolves_nearest_iff (msgs : List ExecMessage) (parentPid : Nat → Option Nat)
    (emitterPid : Nat) (chain : List Nat) (htree : Lineage parentPid emitterPid chain)
    (hdepth : chain.length ≤ maxWalkDepth) :
    (tracked msgs).resolveByDescendant parentPid emitterPid = nearestRunning (running msgs) chain ↔
      ((∃ pid ∈ chain, HasRunning (running msgs) pid) →
        ∃ pid ∈ lower isInit chain, HasRunning (running msgs) pid) := by
  unfold ActiveCommands.resolveByDescendant nearestRunning
  rw [ancestorChain_eq_lower htree hdepth, tracked_eq_byShell]
  simp only [byShell_getLast?, ← isSome_latestOf]
  exact findSome?_iff_of_isPrefix (latestOf (running msgs)) lower_isPrefix

/-- The parents in a small machine: a shell 100, and a pipeline of two processes below it. -/
def sampleParents (pid : Nat) : Option Nat :=
  if pid = 202 then some 201 else if pid = 201 then some 100 else if pid = 100 then some 1
  else if pid = 1 then some 0 else none

/-- The background command 1 outlives the foreground command 2. -/
theorem background_command_found :
    (tracked [.preExec 100 ⟨0, 1⟩, .preExec 100 ⟨0, 2⟩, .postExec 100 ⟨0, 2⟩]).resolveByDescendant
      sampleParents 202 = some ⟨0, 1⟩ := by
  have htree : Lineage sampleParents 202 [202, 201, 100, 1, 0] :=
    .step rfl (.step rfl (.step rfl (.step rfl (.last rfl))))
  refine ((resolves_nearest_iff _ _ _ _ htree (by decide)).mpr ?_).trans (by decide)
  exact fun _ => ⟨100, by decide, ⟨0, 1⟩, by decide⟩

/-- In a container the shell is pid 1: its command is found for the shell, and not for a process
below it. -/
theorem shell_as_init_not_found :
    (tracked [.preExec 1 ⟨0, 1⟩]).resolveByDescendant sampleParents 1 = some ⟨0, 1⟩ ∧
    (tracked [.preExec 1 ⟨0, 1⟩]).resolveByDescendant sampleParents 100 = none ∧
    nearestRunning (running [.preExec 1 ⟨0, 1⟩]) [100, 1, 0] = some ⟨0, 1⟩ := by
  decide

end ShitUndo
