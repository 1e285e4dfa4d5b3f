import Mathlib.Data.List.Induction
import ShitUndo.Events

/-!
# The rendezvous on watch readiness

`watch_ready.rs`: the shell hook waits until the helper has attached capture for a command. Every
call runs under the map's mutex, so a schedule of any threads is a list of calls.

A waiter is the number of its channel. What its receiver got is logged: `true` for the message,
`false` for a dropped sender.
-/

namespace ShitUndo.WatchReady

open Function List

/-! ## The map -/

inductive State where
  | pending (senders : List Nat)
  | ready
  | failed
deriving DecidableEq, Repr

/-- `WatchReadyMap`, with the number of channels made and the log of the receivers. -/
structure WatchReadyMap where
  inner : CommandId → Option State
  channels : Nat
  received : List (Nat × Bool)

def WatchReadyMap.new : WatchReadyMap := ⟨fun _ => none, 0, []⟩

/-- The senders that an entry holds. -/
def senders : Option State → List Nat
  | some (.pending senders) => senders
  | _ => []

def markReady (cmd : CommandId) (m : WatchReadyMap) : WatchReadyMap :=
  { m with
    inner := update m.inner cmd (some .ready)
    received := m.received ++ (senders (m.inner cmd)).map (·, true) }

/-- `mark_failed`: the senders of the old entry are dropped. -/
def markFailed (cmd : CommandId) (m : WatchReadyMap) : WatchReadyMap :=
  { m with
    inner := update m.inner cmd (some .failed)
    received := m.received ++ (senders (m.inner cmd)).map (·, false) }

/-- `forget`, likewise. -/
def forget (cmd : CommandId) (m : WatchReadyMap) : WatchReadyMap :=
  { m with
    inner := update m.inner cmd none
    received := m.received ++ (senders (m.inner cmd)).map (·, false) }

/-- `await_ready`, with channel `m.channels`. -/
def awaitReady (cmd : CommandId) (m : WatchReadyMap) : WatchReadyMap :=
  let tx := m.channels
  match m.inner cmd with
  | some .ready => { m with channels := tx + 1, received := m.received ++ [(tx, true)] }
  | some .failed => { m with channels := tx + 1, received := m.received ++ [(tx, false)] }
  | some (.pending senders) =>
    { m with
      channels := tx + 1
      inner := update m.inner cmd (some (.pending (senders ++ [tx]))) }
  | none =>
    { m with channels := tx + 1, inner := update m.inner cmd (some (.pending [tx])) }

/-! ## Schedules -/

/-- The calls that settle a command. -/
inductive Signal where
  | ready | failed | forgotten
deriving DecidableEq, Repr

/-- A call of any thread. -/
inductive Call where
  | signal (s : Signal) (cmd : CommandId)
  | awaitReady (cmd : CommandId)
deriving DecidableEq, Repr

def step (m : WatchReadyMap) : Call → WatchReadyMap
  | .signal .ready cmd => markReady cmd m
  | .signal .failed cmd => markFailed cmd m
  | .signal .forgotten cmd => forget cmd m
  | .awaitReady cmd => awaitReady cmd m

def run (m : WatchReadyMap) (calls : List Call) : WatchReadyMap := calls.foldl step m

/-- What the receiver of `w` got, in order. -/
def answers (w : Nat) (m : WatchReadyMap) : List Bool :=
  (m.received.filter fun e => decide (e.1 = w)).map Prod.snd

/-- The signal of a call, if it is one for `cmd`. -/
def Call.signalFor (cmd : CommandId) : Call → Option Signal
  | .signal s c => if c = cmd then some s else none
  | .awaitReady _ => none

/-- What a waiter gets if it is parked when the signal comes. -/
def Signal.outcome : Signal → Bool
  | .ready => true
  | .failed | .forgotten => false

/-- What a waiter gets at once if the signal was the last one before. -/
def Signal.atOnce : Signal → Option Bool
  | .ready => some true
  | .failed => some false
  | .forgotten => none

/-- The entry that a signal leaves. -/
def Signal.entry : Signal → Option State
  | .ready => some .ready
  | .failed => some .failed
  | .forgotten => none

/-- What an entry tells a new waiter at once. -/
def toldBy : Option State → Option Bool
  | some .ready => some true
  | some .failed => some false
  | _ => none

theorem toldBy_entry (s : Signal) : toldBy s.entry = s.atOnce := by cases s <;> rfl

theorem senders_entry (s : Signal) : senders s.entry = [] := by cases s <;> rfl

/-! ## One call -/

variable {m : WatchReadyMap} {cmd c : CommandId} {w : Nat} {b : Bool} {call : Call} {s : Signal}

theorem step_signal (s : Signal) (cmd : CommandId) (m : WatchReadyMap) :
    step m (.signal s cmd) =
      { m with
        inner := update m.inner cmd s.entry
        received := m.received ++ (senders (m.inner cmd)).map (·, s.outcome) } := by
  cases s <;> rfl

theorem awaitReady_of_told (htold : toldBy (m.inner cmd) = some b) :
    awaitReady cmd m =
      { m with channels := m.channels + 1, received := m.received ++ [(m.channels, b)] } := by
  unfold awaitReady
  rcases hentry : m.inner cmd with - | (senders | - | -) <;> rw [hentry] at htold <;>
    simp_all [toldBy]

theorem awaitReady_of_not_told (htold : toldBy (m.inner cmd) = none) :
    awaitReady cmd m =
      { m with
        channels := m.channels + 1
        inner := update m.inner cmd
          (some (.pending (senders (m.inner cmd) ++ [m.channels]))) } := by
  unfold awaitReady
  rcases hentry : m.inner cmd with - | (waiting | - | -) <;> rw [hentry] at htold <;>
    simp_all [toldBy, senders]

theorem toldBy_step (call : Call) (cmd : CommandId) (m : WatchReadyMap) :
    toldBy ((step m call).inner cmd) =
      (call.signalFor cmd).elim (toldBy (m.inner cmd)) Signal.atOnce := by
  cases call with
  | signal s c =>
    rw [step_signal]
    by_cases hc : c = cmd
    · subst hc
      simp [Call.signalFor, toldBy_entry]
    · simp [Call.signalFor, hc, update_of_ne (Ne.symm hc)]
  | awaitReady c =>
    simp only [step, Call.signalFor, Option.elim_none]
    cases htold : toldBy (m.inner c) with
    | some b => rw [awaitReady_of_told htold]
    | none =>
      rw [awaitReady_of_not_told htold]
      by_cases hc : c = cmd
      · subst hc
        rw [htold]
        simp [toldBy]
      · simp [update_of_ne (Ne.symm hc)]

/-- How often a waiter is parked at each command, and what it got. -/
structure Standing (w : Nat) (parked : CommandId → Nat) (outcome : List Bool)
    (m : WatchReadyMap) : Prop where
  count : ∀ c, (senders (m.inner c)).count w = parked c
  got : answers w m = outcome

variable {parked : CommandId → Nat} {outcome : List Bool}

theorem filter_map_outcome (l : List Nat) (b : Bool) (w : Nat) :
    ((l.map (·, b)).filter fun e => decide (e.1 = w)).map Prod.snd =
      replicate (l.count w) b := by
  induction l with
  | nil => rfl
  | cons x l ih => by_cases hx : x = w <;> simp [hx, replicate_succ, ← ih]

/-- A signal wakes whom it finds parked at its command, and no one else. -/
theorem Standing.signal (hw : Standing w parked outcome m) (s : Signal) (c : CommandId) :
    Standing w (update parked c 0) (outcome ++ replicate (parked c) s.outcome)
      (step m (.signal s c)) := by
  rw [step_signal]
  constructor
  · intro d
    by_cases hd : d = c
    · subst hd
      simp [senders_entry]
    · simpa [update_of_ne hd] using hw.count d
  · have hgot := hw.got
    unfold answers at hgot ⊢
    rw [filter_append, map_append, hgot, filter_map_outcome, hw.count]

/-- A new waiter changes nothing for the others. -/
theorem Standing.await (hw : Standing w parked outcome m) (hne : m.channels ≠ w) (c : CommandId) :
    Standing w parked outcome (step m (.awaitReady c)) := by
  have hgot := hw.got
  unfold answers at hgot
  simp only [step]
  cases htold : toldBy (m.inner c) with
  | some b =>
    rw [awaitReady_of_told htold]
    exact ⟨hw.count, by simpa [answers, hne] using hgot⟩
  | none =>
    rw [awaitReady_of_not_told htold]
    refine ⟨?_, hgot⟩
    intro d
    by_cases hd : d = c
    · subst hd
      simpa [senders, hne] using hw.count d
    · simpa [update_of_ne hd] using hw.count d

/-- The new waiter itself is told at once or parked at its command. -/
theorem Standing.self (hw : Standing m.channels (fun _ => 0) [] m) (cmd : CommandId) :
    Standing m.channels
      (update (fun _ => 0) cmd (if toldBy (m.inner cmd) = none then 1 else 0))
      (toldBy (m.inner cmd)).toList (step m (.awaitReady cmd)) := by
  have hgot := hw.got
  unfold answers at hgot
  simp only [step]
  cases htold : toldBy (m.inner cmd) with
  | some b =>
    rw [awaitReady_of_told htold]
    exact ⟨by simpa using hw.count, by simpa [answers] using hgot⟩
  | none =>
    rw [awaitReady_of_not_told htold]
    refine ⟨?_, hgot⟩
    intro d
    by_cases hd : d = cmd
    · subst hd
      simpa [senders] using hw.count d
    · simpa [update_of_ne hd] using hw.count d

theorem channels_await (cmd : CommandId) (m : WatchReadyMap) :
    (step m (.awaitReady cmd)).channels = m.channels + 1 := by
  simp only [step, awaitReady]
  split <;> rfl

theorem channels_step (call : Call) (m : WatchReadyMap) : m.channels ≤ (step m call).channels := by
  cases call with
  | signal s c => rw [step_signal]
  | awaitReady c =>
    rw [channels_await]
    exact Nat.le_succ _

/-! ## Whole schedules -/

theorem run_cons (m : WatchReadyMap) (call : Call) (calls : List Call) :
    run m (call :: calls) = run (step m call) calls := rfl

theorem run_concat (m : WatchReadyMap) (calls : List Call) (call : Call) :
    run m (calls ++ [call]) = step (run m calls) call := foldl_concat ..

/-- The last signal for a command, and the first one. -/
def lastSignal (cmd : CommandId) (calls : List Call) : Option Signal :=
  calls.reverse.findSome? (Call.signalFor cmd)

def firstSignal (cmd : CommandId) (calls : List Call) : Option Signal :=
  calls.findSome? (Call.signalFor cmd)

theorem toldBy_run (calls : List Call) (cmd : CommandId) :
    toldBy ((run .new calls).inner cmd) = (lastSignal cmd calls).bind Signal.atOnce := by
  induction calls using reverseRecOn with
  | nil => rfl
  | append_singleton calls call ih =>
    rw [run_concat, toldBy_step, ih]
    cases hsig : call.signalFor cmd <;> simp [hsig, lastSignal]

/-- Numbers that are not given out yet are nowhere. -/
theorem standing_fresh (calls : List Call) :
    ∀ w, (run .new calls).channels ≤ w → Standing w (fun _ => 0) [] (run .new calls) := by
  induction calls using reverseRecOn with
  | nil => exact fun w _ => ⟨fun _ => rfl, rfl⟩
  | append_singleton calls call ih =>
    intro w hw
    rw [run_concat] at hw ⊢
    have hfresh := ih w ((channels_step _ _).trans hw)
    cases call with
    | signal s c => simpa using hfresh.signal s c
    | awaitReady c =>
      rw [channels_await] at hw
      exact hfresh.await (by omega) c

/-- A waiter that has its answer gets no other one. -/
theorem Standing.settled (calls : List Call) (hw : Standing w (fun _ => 0) outcome m)
    (hold : w < m.channels) : answers w (run m calls) = outcome := by
  induction calls generalizing m with
  | nil => exact hw.got
  | cons call calls ih =>
    refine ih ?_ (hold.trans_le (channels_step call m))
    cases call with
    | signal s c => simpa using hw.signal s c
    | awaitReady c => exact hw.await (by omega) c

/-- A parked waiter gets what the first signal for its command gives it. -/
theorem Standing.parked_run (calls : List Call)
    (hw : Standing w (update (fun _ => 0) cmd 1) [] m) (hold : w < m.channels) :
    answers w (run m calls) = ((firstSignal cmd calls).map Signal.outcome).toList := by
  induction calls generalizing m with
  | nil => exact hw.got
  | cons call calls ih =>
    have hold' := hold.trans_le (channels_step call m)
    cases call with
    | signal s c =>
      have hnext := hw.signal s c
      by_cases hc : c = cmd
      · subst hc
        have hdone : Standing w (fun _ => 0) [s.outcome] (step m (.signal s c)) := by
          simpa using hnext
        simpa [run_cons, firstSignal, Call.signalFor] using hdone.settled calls hold'
      · have hkept : Standing w (update (fun _ => 0) cmd 1) [] (step m (.signal s c)) := by
          rw [update_comm (Ne.symm hc)] at hnext
          simpa [update_of_ne hc] using hnext
        simpa [run_cons, firstSignal, Call.signalFor, hc] using ih hkept hold'
    | awaitReady c =>
      have hfirst : firstSignal cmd (.awaitReady c :: calls) = firstSignal cmd calls := rfl
      rw [run_cons, hfirst]
      exact ih (hw.await (by omega) c) hold'

/-- **What a waiter gets, in every schedule**: at once what the last signal for its command says,
or else what the first one after says, and nothing before that or besides. -/
theorem answers_awaitReady (before after : List Call) (cmd : CommandId) :
    answers (run .new before).channels (run .new (before ++ .awaitReady cmd :: after)) =
      (((lastSignal cmd before).bind Signal.atOnce).or
        ((firstSignal cmd after).map Signal.outcome)).toList := by
  have hself := (standing_fresh before _ le_rfl).self cmd
  rw [toldBy_run] at hself
  have hold : (run .new before).channels < (step (run .new before) (.awaitReady cmd)).channels := by
    rw [channels_await]
    exact Nat.lt_succ_self _
  have hrun : run .new (before ++ .awaitReady cmd :: after) =
      run (step (run .new before) (.awaitReady cmd)) after := by
    simp [run]
  rw [hrun]
  cases htold : (lastSignal cmd before).bind Signal.atOnce with
  | some b =>
    rw [htold] at hself
    simp only [reduceCtorEq, if_false, update_eq_self, Option.toList_some] at hself
    simpa using hself.settled after hold
  | none =>
    rw [htold] at hself
    simpa using hself.parked_run after hold

end ShitUndo.WatchReady
