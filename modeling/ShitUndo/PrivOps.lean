import Mathlib.Algebra.GroupWithZero.Nat
import ShitUndo.Events
import ShitUndo.Lib.Transition

/-!
# Replies to privileged operations

`request_priv_op_blocking` (`helper_link.rs`) with its routers (`priv_op_router.rs`) and the arm of
the dispatch loop that routes `PrivilegedOpResult`. Any number of threads are at any of the steps
below, and the helper replies when it likes, and as often.

* A call is known by the number of its channel. `waiters` is the table they share.
* A router is known by its session. Its counter is an `AtomicU64`, and `fetch_add` wraps.
* A call comes to its end: while it has not returned it has a step of its own (`ownStep_enabled`),
  and it takes at most four of them (`ownSteps_le_four`).
-/

namespace ShitUndo.PrivOps

open Transition List Option Function

/-! ## The calls -/

/-- `PrivilegedOpOutcome`; `wire_to_planner` maps each variant to the planner's of that name. -/
inductive Outcome where
  | applied | outOfScope | permissionDenied | notFound
  | failed (err : String)
deriving DecidableEq, Repr

/-- Where a call of `chown` or `mknod` is. -/
inductive Phase where
  /-- It has its sequence number. -/
  | drawn
  /-- Its waiter is in the table. -/
  | registered
  /-- The request is sent. -/
  | waiting
  /-- `send_request` or `recv_timeout` failed, and the waiter is to be removed. -/
  | giveUp (err : String)
  | returned (outcome : Outcome)
deriving DecidableEq, Repr

/-- A call, and what is in its channel. -/
structure PrivCall where
  key : CommandId
  phase : Phase
  channel : Option Outcome
deriving DecidableEq, Repr

/-- The shared state, with a record of the helper's replies. -/
structure State where
  nextSeq : Nat → Nat
  calls : List PrivCall
  waiters : CommandId → Option Nat
  replies : List (Nat × Outcome)

/-- Every router starts at 1. -/
def State.new : State := ⟨fun _ => 1, [], fun _ => none, []⟩

/-- The steps of the threads and of the helper. -/
inductive Action where
  /-- `next_seq` of the router with this session. -/
  | draw (session : Nat)
  /-- `waiters.insert`. -/
  | register (i : Nat)
  /-- `send_request`, or its error. -/
  | send (i : Nat) (err : Option String)
  /-- `recv_timeout` returns what is in the channel. -/
  | receive (i : Nat)
  /-- `recv_timeout` returns `Timeout`. -/
  | timeout (i : Nat)
  /-- `recv_timeout` returns `Disconnected`. -/
  | disconnect (i : Nat)
  /-- `waiters.remove` after an error. -/
  | clear (i : Nat)
  /-- The dispatch loop gets a reply to the request of a call. -/
  | reply (i : Nat) (outcome : Outcome)
deriving DecidableEq, Repr

/-- What a thread's own step makes of its call and of its entry in the table. -/
def PrivCall.advance (c : PrivCall) (i : Nat) (entry : Option Nat) :
    Action → Option (PrivCall × Option Nat)
  | .register _ =>
    if c.phase = .drawn then some ({ c with phase := .registered }, some i) else none
  | .send _ none =>
    if c.phase = .registered then some ({ c with phase := .waiting }, entry) else none
  | .send _ (some err) =>
    if c.phase = .registered then
      some ({ c with phase := .giveUp ("send_request: " ++ err) }, entry)
    else none
  | .receive _ =>
    if c.phase = .waiting then
      c.channel.map fun outcome => ({ c with phase := .returned outcome }, entry)
    else none
  | .timeout _ =>
    if c.phase = .waiting ∧ c.channel = none then
      some ({ c with phase := .giveUp "priv-op timeout after 5s" }, entry)
    else none
  | .disconnect _ =>
    if c.phase = .waiting ∧ c.channel = none ∧ entry ≠ some i then
      some ({ c with phase := .returned (.failed "priv-op response channel disconnected") }, entry)
    else none
  | .clear _ =>
    match c.phase with
    | .giveUp err => some ({ c with phase := .returned (.failed err) }, none)
    | _ => none
  | .draw _ | .reply _ _ => none

/-- The call that a step belongs to. -/
def Action.call : Action → Nat
  | .draw _ => 0
  | .register i | .send i _ | .receive i | .timeout i | .disconnect i | .clear i | .reply i _ => i

/-- The arm of `dispatch_response` for `PrivilegedOpResult`: the waiter is removed and filled. -/
def dispatch (s : State) (key : CommandId) (outcome : Outcome) : State :=
  match s.waiters key with
  | none => s
  | some j =>
    { s with
      waiters := update s.waiters key none
      calls := s.calls.modify j fun c => { c with channel := some outcome } }

/-- `next_seq`, and a call with that number. -/
def State.draw (s : State) (session : Nat) : State :=
  { s with
    nextSeq := update s.nextSeq session ((s.nextSeq session + 1) % 2 ^ 64)
    calls := s.calls ++ [⟨⟨session, s.nextSeq session⟩, .drawn, none⟩] }

def step (s : State) : Action → Option State
  | .draw session => some (s.draw session)
  | .reply i outcome => do
    let c ← s.calls[i]?
    some { dispatch s c.key outcome with replies := s.replies ++ [(i, outcome)] }
  | a => do
    let c ← s.calls[a.call]?
    let (c', entry) ← c.advance a.call (s.waiters c.key) a
    some { s with
      waiters := update s.waiters c.key entry
      calls := s.calls.set a.call c' }

/-! ## One step -/

/-- The call whose thread takes the step. -/
def Action.thread : Action → Option Nat
  | .draw _ | .reply _ _ => none
  | a => some a.call

/-- The waiter of the call may be in the table. -/
def PrivCall.Open (c : PrivCall) : Prop := c.phase ≠ .drawn ∧ ∀ o, c.phase ≠ .returned o

/-- What a call returned is the helper's reply to it, or a failure. -/
def Answered (replies : List (Nat × Outcome)) (i : Nat) (c : PrivCall) : Prop :=
  ∀ o, c.phase = .returned o → (∃ err, o = .failed err) ∨ (i, o) ∈ replies

/-- Keys are unique, and an entry of the table is a call that has no reply and has not returned.
`drawn` counts the numbers each router has drawn. -/
structure Inv (drawn : Nat → Nat) (s : State) : Prop where
  nodup : (s.calls.map PrivCall.key).Nodup
  counter : ∀ session, s.nextSeq session = (1 + drawn session) % 2 ^ 64
  fresh : ∀ key ∈ s.calls.map PrivCall.key, ∃ n < drawn key.session, key.seq = (1 + n) % 2 ^ 64
  waiting : ∀ key i, s.waiters key = some i → ∃ c, s.calls[i]? = some c ∧ c.key = key ∧ c.Open
  filled : ∀ i c, s.calls[i]? = some c → ∀ o, c.channel = some o →
    (i, o) ∈ s.replies ∧ s.waiters c.key = none ∧ c.phase ≠ .drawn
  answered : ∀ i c, s.calls[i]? = some c → Answered s.replies i c

variable {s s' : State} {i j : Nat} {c c' d : PrivCall} {a : Action} {o : Outcome}
  {replies : List (Nat × Outcome)} {entry entry' : Option Nat} {calls : List PrivCall}
  {drawn : Nat → Nat}

theorem getElem?_set_of_some (hc : calls[i]? = some c) (j : Nat) :
    (calls.set i c')[j]? = if j = i then some c' else calls[j]? := by
  have hlt := (List.getElem?_eq_some_iff.mp hc).1
  rw [getElem?_set]
  by_cases hj : j = i
  · simp [hj, hlt]
  · simp [hj, Ne.symm hj]

/-- What a step of a thread does. -/
theorem step_thread_iff (ha : a.thread = some i) :
    step s a = some s' ↔
      ∃ c c' entry, s.calls[i]? = some c ∧ c.advance i (s.waiters c.key) a = some (c', entry) ∧
        s' = { s with waiters := update s.waiters c.key entry, calls := s.calls.set i c' } := by
  cases a with
  | draw | reply => cases ha
  | _ =>
    cases ha
    constructor
    · intro hstep
      rcases bind_eq_some_iff.mp hstep with ⟨c, hc, hrest⟩
      rcases bind_eq_some_iff.mp hrest with ⟨⟨c', entry⟩, hadv, heq⟩
      cases heq
      exact ⟨c, c', entry, hc, hadv, rfl⟩
    · rintro ⟨c, c', entry, hc, hadv, rfl⟩
      simp [step, hc, hadv]

/-- Every step is a draw, a reply or a step of a thread. -/
theorem Action.kinds (a : Action) :
    (∃ session, a = .draw session) ∨ (∃ i o, a = .reply i o) ∨ ∃ i, a.thread = some i := by
  cases a <;> simp [thread]

section

variable (hinv : Inv drawn s)

include hinv

/-- A router that has drawn fewer than `2 ^ 64` numbers draws one that none of its calls has. -/
theorem Inv.draw {session : Nat} (hdraws : drawn session < 2 ^ 64) :
    Inv (update drawn session (drawn session + 1)) (s.draw session) := by
  have hold : ∀ (j : Nat) (d : PrivCall), (s.draw session).calls[j]? = some d →
      s.calls[j]? = some d ∨ d = ⟨⟨session, s.nextSeq session⟩, .drawn, none⟩ := by
    intro j d hd
    unfold State.draw at hd
    rw [getElem?_append] at hd
    split_ifs at hd
    · exact .inl hd
    · exact .inr (mem_singleton.mp (mem_of_getElem? hd))
  refine ⟨?_, ?_, ?_, ?_, ?_, ?_⟩
  · unfold State.draw
    rw [map_append, nodup_append]
    refine ⟨hinv.nodup, by simp, ?_⟩
    intro key hkey key' hkey'
    rw [mem_singleton.mp hkey']
    rintro rfl
    -- two numbers below 2 ^ 64 that agree modulo 2 ^ 64 are the same
    rcases hinv.fresh _ hkey with ⟨n, hn, hseq⟩
    have hcounter := hinv.counter session
    simp only at hn hseq
    omega
  · intro other
    unfold State.draw
    simp only [update_apply]
    split_ifs with hother
    · have hcounter := hinv.counter session
      omega
    · exact hinv.counter other
  · intro key hkey
    unfold State.draw at hkey
    rw [map_append, mem_append] at hkey
    have hle : drawn key.session ≤ update drawn session (drawn session + 1) key.session := by
      rw [update_apply]
      split_ifs with hsession
      · rw [hsession]
        exact Nat.le_succ _
      · exact le_rfl
    rcases hkey with hkey | hkey
    · rcases hinv.fresh key hkey with ⟨n, hn, hseq⟩
      exact ⟨n, hn.trans_le hle, hseq⟩
    · rw [mem_singleton.mp hkey]
      exact ⟨drawn session, by simp, hinv.counter session⟩
  · intro key j hj
    rcases hinv.waiting key j hj with ⟨d, hd, hrest⟩
    refine ⟨d, ?_, hrest⟩
    rw [State.draw, getElem?_append_left (List.getElem?_eq_some_iff.mp hd).1, hd]
  · intro j d hd o ho
    rcases hold j d hd with hd | rfl
    · exact hinv.filled j d hd o ho
    · cases ho
  · intro j d hd o ho
    rcases hold j d hd with hd | rfl
    · exact hinv.answered j d hd o ho
    · cases ho

section

variable (hc : s.calls[i]? = some c)

include hc

theorem Inv.eq_of_key (hd : s.calls[j]? = some d) (hkey : c.key = d.key) : i = j := by
  have hi : (s.calls.map PrivCall.key)[i]? = some c.key := by simp [hc]
  have hj : (s.calls.map PrivCall.key)[j]? = some c.key := by simp [hd, hkey]
  rcases List.getElem?_eq_some_iff.mp hi with ⟨hlt, -⟩
  exact (getElem?_inj hlt hinv.nodup).mp (hi.trans hj.symm)

/-- The entry under the key of a call is its own waiter, if there is one. -/
theorem Inv.own (hj : s.waiters c.key = some j) :
    j = i ∧ c.Open := by
  rcases hinv.waiting _ _ hj with ⟨d, hd, hkey, hopen⟩
  have hij := hinv.eq_of_key hd hc hkey
  subst hij
  rw [hc] at hd
  cases hd
  exact ⟨rfl, hopen⟩

/-- What a step may make of a call and of its entry. -/
structure Fits (replies : List (Nat × Outcome)) (i : Nat) (c c' : PrivCall) (entry : Option Nat) :
    Prop where
  key : c'.key = c.key
  own : ∀ j, entry = some j → j = i ∧ c'.Open
  filled : ∀ o, c'.channel = some o → (i, o) ∈ replies ∧ entry = none ∧ c'.phase ≠ .drawn
  answered : Answered replies i c'

theorem Inv.fits (hstep : c.advance i (s.waiters c.key) a = some (c', entry)) :
    Fits s.replies i c c' entry := by
  have hfilled := hinv.filled i c hc
  cases a with
  | register =>
    simp only [PrivCall.advance] at hstep
    split_ifs at hstep with hphase
    cases hstep
    refine ⟨rfl, ?_, ?_, by simp [Answered]⟩
    · rintro j ⟨⟩
      exact ⟨rfl, by simp [PrivCall.Open]⟩
    · intro o ho
      exact absurd hphase (hfilled o ho).2.2
  | send _ err =>
    cases err <;> simp only [PrivCall.advance] at hstep <;> split_ifs at hstep <;> cases hstep
    all_goals
      refine ⟨rfl, fun j hj => ⟨(hinv.own hc hj).1, by simp [PrivCall.Open]⟩, ?_,
        by simp [Answered]⟩
      intro o ho
      exact ⟨(hfilled o ho).1, (hfilled o ho).2.1, by simp⟩
  | receive =>
    simp only [PrivCall.advance] at hstep
    split_ifs at hstep with hphase
    rcases map_eq_some_iff.mp hstep with ⟨o, ho, heq⟩
    cases heq
    refine ⟨rfl, ?_, ?_, ?_⟩
    · intro j hj
      rw [(hfilled o ho).2.1] at hj
      cases hj
    · intro o' ho'
      exact ⟨(hfilled o' ho').1, (hfilled o' ho').2.1, by simp⟩
    · rintro o' ⟨⟩
      exact .inr (hfilled o ho).1
  | timeout =>
    simp only [PrivCall.advance] at hstep
    split_ifs at hstep with hphase
    cases hstep
    exact ⟨rfl, fun j hj => ⟨(hinv.own hc hj).1, by simp [PrivCall.Open]⟩, by simp [hphase],
      by simp [Answered]⟩
  | disconnect =>
    simp only [PrivCall.advance] at hstep
    split_ifs at hstep with hphase
    cases hstep
    refine ⟨rfl, ?_, by simp [hphase], by simp [Answered]⟩
    intro j hj
    exact absurd ((hinv.own hc hj).1 ▸ hj) hphase.2.2
  | clear =>
    simp only [PrivCall.advance] at hstep
    split at hstep
    · cases hstep
      exact ⟨rfl, by simp, fun o ho => ⟨(hfilled o ho).1, rfl, by simp⟩, by simp [Answered]⟩
    · cases hstep
  | draw | reply => cases hstep

/-- A call changes, with its entry in the table. -/
theorem Inv.change (hfits : Fits replies i c c' entry)
    (hsub : s.replies ⊆ replies) (hget : ∀ j, calls[j]? = if j = i then some c' else s.calls[j]?) :
    Inv drawn ⟨s.nextSeq, calls, update s.waiters c.key entry, replies⟩ := by
  have hkeys : calls.map PrivCall.key = s.calls.map PrivCall.key := by
    refine ext_getElem? ?_
    intro j
    rw [getElem?_map, getElem?_map, hget]
    split_ifs with hj
    · rw [hj, hc, map_some, map_some, hfits.key]
    · rfl
  refine ⟨hkeys ▸ hinv.nodup, hinv.counter, hkeys ▸ hinv.fresh, ?_, ?_, ?_⟩
  · intro key j hj
    by_cases hkey : key = c.key
    · subst hkey
      rcases hfits.own j (by simpa using hj) with ⟨rfl, hopen⟩
      exact ⟨c', by simp [hget], hfits.key, hopen⟩
    rcases hinv.waiting key j (by simpa [update_of_ne hkey] using hj) with
      ⟨d, hd, hdkey, hopen⟩
    refine ⟨d, ?_, hdkey, hopen⟩
    rw [hget, if_neg, hd]
    rintro rfl
    rw [hc] at hd
    cases hd
    exact hkey hdkey.symm
  · intro j d hd o ho
    rw [hget] at hd
    split_ifs at hd with hj
    · cases hd
      rcases hfits.filled o ho with ⟨hreply, hnone, hphase⟩
      exact ⟨hj ▸ hreply, by simpa [hfits.key] using hnone, hphase⟩
    · rcases hinv.filled j d hd o ho with ⟨hreply, hnone, hphase⟩
      have hkey : d.key ≠ c.key := fun heq => hj (hinv.eq_of_key hd hc heq)
      exact ⟨hsub hreply, by simpa [update_of_ne hkey] using hnone, hphase⟩
  · intro j d hd
    rw [hget] at hd
    split_ifs at hd with hj
    · cases hd
      exact hj ▸ hfits.answered
    · intro o ho
      exact (hinv.answered j d hd o ho).imp_right (hsub ·)

theorem Inv.reply (o : Outcome) :
    Inv drawn { dispatch s c.key o with replies := s.replies ++ [(i, o)] } := by
  have hsub : s.replies ⊆ s.replies ++ [(i, o)] := subset_append_left _ _
  unfold dispatch
  cases hj : s.waiters c.key with
  | none =>
    exact ⟨hinv.nodup, hinv.counter, hinv.fresh, hinv.waiting,
      fun j d hd o' ho' => ⟨hsub (hinv.filled j d hd o' ho').1, (hinv.filled j d hd o' ho').2⟩,
      fun j d hd o' ho' => (hinv.answered j d hd o' ho').imp_right (hsub ·)⟩
  | some j =>
    rcases hinv.own hc hj with ⟨rfl, hopen⟩
    have hfits : Fits (s.replies ++ [(j, o)]) j c { c with channel := some o } none := by
      refine ⟨rfl, by simp, ?_, fun o' ho' => absurd ho' (hopen.2 o')⟩
      rintro o' ⟨⟩
      exact ⟨by simp, rfl, hopen.1⟩
    refine hinv.change hc hfits hsub ?_
    intro k
    rw [getElem?_modify]
    by_cases hk : k = j
    · simp [hk, hc]
    · simp [hk, Ne.symm hk]

end

/-- Every step but a draw keeps the keys of the calls. -/
theorem Inv.step (hstep : step s a = some s') (ha : ∀ session, a ≠ .draw session) :
    Inv drawn s' := by
  rcases a.kinds with ⟨session, rfl⟩ | ⟨i, o, rfl⟩ | ⟨i, hi⟩
  · exact absurd rfl (ha session)
  · rcases bind_eq_some_iff.mp hstep with ⟨c, hc, heq⟩
    cases heq
    exact hinv.reply hc o
  · rcases (step_thread_iff hi).mp hstep with ⟨c, c', entry, hc, hadv, rfl⟩
    exact hinv.change hc (hinv.fits hc hadv) (List.Subset.refl _) (getElem?_set_of_some hc)

end

/-! ## Every schedule -/

/-- How many numbers each router draws. -/
def draws (actions : List Action) (session : Nat) : Nat := actions.count (.draw session)

theorem draws_concat_draw (actions : List Action) (session : Nat) :
    draws (actions ++ [.draw session]) =
      update (draws actions) session (draws actions session + 1) := by
  funext other
  by_cases hother : other = session
  · subst hother
    simp [draws]
  · simp [draws, update_of_ne hother, Ne.symm hother]

theorem draws_concat_of_ne (actions : List Action) (ha : ∀ session, a ≠ .draw session) :
    draws (actions ++ [a]) = draws actions := by
  funext session
  simp [draws, ha session]

theorem inv_new : Inv (draws []) .new :=
  ⟨nodup_nil, by simp [State.new, draws], by simp [State.new], by simp [State.new],
    by simp [State.new], by simp [State.new]⟩

theorem inv_of_runs {actions : List Action} (hrun : Runs PrivOps.step .new actions s)
    (hdraws : ∀ session, draws actions session ≤ 2 ^ 64) : Inv (draws actions) s := by
  revert hdraws
  refine hrun.invariant (P := fun actions s =>
    (∀ session, draws actions session ≤ 2 ^ 64) → Inv (draws actions) s) (fun _ => inv_new) ?_
  intro actions t a t' _ hinv hstep hdraws
  by_cases ha : ∃ session, a = .draw session
  · rcases ha with ⟨session, rfl⟩
    cases hstep
    rw [draws_concat_draw] at hdraws ⊢
    have hsession := hdraws session
    rw [update_self] at hsession
    refine (hinv ?_).draw (by omega)
    intro other
    have hother := hdraws other
    rw [update_apply] at hother
    split_ifs at hother with heq
    · rw [heq]
      omega
    · exact hother
  · have hne : ∀ session, a ≠ .draw session := fun session heq => ha ⟨session, heq⟩
    rw [draws_concat_of_ne actions hne] at hdraws ⊢
    exact (hinv hdraws).step hstep hne

/-! ## Calls return -/

/-- How many steps a call has left at most. -/
def Phase.left : Phase → Nat
  | .drawn => 4
  | .registered => 3
  | .waiting => 2
  | .giveUp _ => 1
  | .returned _ => 0

/-- The same for the `i`-th call, also before it begins. -/
def State.left (s : State) (i : Nat) : Nat := s.calls[i]?.elim 4 (·.phase.left)

theorem PrivCall.advance_left (hstep : c.advance i entry a = some (c', entry')) :
    c'.phase.left < c.phase.left := by
  cases a with
  | receive =>
    simp only [advance] at hstep
    split_ifs at hstep with hphase
    rcases map_eq_some_iff.mp hstep with ⟨o, -, heq⟩
    cases heq
    simp [Phase.left, hphase]
  | clear =>
    simp only [advance] at hstep
    split at hstep
    · rename_i err hphase
      cases hstep
      simp [Phase.left, hphase]
    · cases hstep
  | draw | reply => cases hstep
  | send _ err =>
    cases err <;> simp only [advance] at hstep <;> split_ifs at hstep with hphase <;>
      cases hstep <;> simp [Phase.left, hphase]
  | _ =>
    simp only [advance] at hstep
    split_ifs at hstep with hphase
    cases hstep
    simp [Phase.left, hphase]

/-- A step of a call's own thread takes from what it has left; no other step gives it more. -/
theorem step_left (hstep : step s a = some s') (i : Nat) :
    s'.left i + (if a.thread = some i then 1 else 0) ≤ s.left i := by
  unfold State.left
  rcases a.kinds with ⟨session, rfl⟩ | ⟨j, o, rfl⟩ | ⟨j, hj⟩
  · cases hstep
    simp only [State.draw, Action.thread, getElem?_append]
    rcases Nat.lt_trichotomy i s.calls.length with hi | hi | hi
    · simp [hi]
    · subst hi
      simp [Phase.left]
    · simp [Nat.not_lt.mpr hi.le, Nat.sub_eq_zero_iff_le, Nat.not_le.mpr hi]
  · -- a reply fills a channel, and leaves every phase
    rcases bind_eq_some_iff.mp hstep with ⟨c, hc, heq⟩
    cases heq
    simp only [dispatch, Action.thread]
    split
    · simp
    · rw [getElem?_modify]
      cases s.calls[i]? with
      | none => simp
      | some d =>
        simp only [reduceCtorEq, if_false]
        split_ifs <;> simp
  · rcases (step_thread_iff hj).mp hstep with ⟨c, c', entry, hc, hadv, rfl⟩
    have hlt := PrivCall.advance_left hadv
    rw [getElem?_set_of_some hc, hj]
    by_cases hi : i = j
    · subst hi
      simp only [hc, if_pos, Option.elim_some]
      omega
    · simp [hi, Ne.symm hi]

/-- **A call takes at most four steps of its own.** -/
theorem ownSteps_le_four {actions : List Action} (hrun : Runs PrivOps.step .new actions s)
    (i : Nat) : actions.countP (fun a => a.thread = some i) + s.left i ≤ 4 := by
  refine hrun.invariant
    (P := fun actions s => actions.countP (fun a => a.thread = some i) + s.left i ≤ 4)
    (by simp [State.left, State.new]) ?_
  intro actions t a t' _ hle hstep
  have hleft := step_left hstep i
  rw [countP_append, countP_singleton]
  split_ifs at hleft ⊢
  all_goals simp_all
  all_goals omega

/-- **A call that has not returned has a step of its own.** The deadline of `recv_timeout` passes
where no reply comes. -/
theorem ownStep_enabled (hc : s.calls[i]? = some c) (hopen : ∀ o, c.phase ≠ .returned o) :
    ∃ a s', a.thread = some i ∧ step s a = some s' := by
  have henabled : ∀ a, a.thread = some i →
      (c.advance i (s.waiters c.key) a).isSome →
        ∃ a s', a.thread = some i ∧ step s a = some s' := by
    intro a ha hadv
    rcases Option.isSome_iff_exists.mp hadv with ⟨⟨c', entry⟩, hadv⟩
    exact ⟨a, _, ha, (step_thread_iff ha).mpr ⟨c, c', entry, hc, hadv, rfl⟩⟩
  cases hphase : c.phase with
  | drawn => exact henabled (.register i) rfl (by simp [PrivCall.advance, hphase])
  | registered => exact henabled (.send i none) rfl (by simp [PrivCall.advance, hphase])
  | waiting =>
    cases hchannel : c.channel with
    | none => exact henabled (.timeout i) rfl (by simp [PrivCall.advance, hphase, hchannel])
    | some o => exact henabled (.receive i) rfl (by simp [PrivCall.advance, hphase, hchannel])
  | giveUp err => exact henabled (.clear i) rfl (by simp [PrivCall.advance, hphase])
  | returned o => exact absurd hphase (hopen o)

/-! ## Replies -/

/-- **Every call gets its own reply or a failure, returns, and leaves no waiter behind**, as long as
no router draws more than `2 ^ 64` numbers. -/
theorem privOps_answered {actions : List Action} (hrun : Runs PrivOps.step .new actions s)
    (hdraws : ∀ session, draws actions session ≤ 2 ^ 64) :
    (∀ i c, s.calls[i]? = some c → Answered s.replies i c) ∧
      (∀ key i, s.waiters key = some i →
        ∃ c, s.calls[i]? = some c ∧ c.key = key ∧ ∀ o, c.phase ≠ .returned o) ∧
      (∀ i c, s.calls[i]? = some c → (∀ o, c.phase ≠ .returned o) →
        ∃ a s', a.thread = some i ∧ PrivOps.step s a = some s') ∧
      ∀ i, actions.countP (fun a => a.thread = some i) ≤ 4 := by
  have hinv := inv_of_runs hrun hdraws
  refine ⟨hinv.answered, ?_, fun i c hc hopen => ownStep_enabled hc hopen, ?_⟩
  · intro key i hi
    rcases hinv.waiting key i hi with ⟨c, hc, hkey, hopen⟩
    exact ⟨c, hc, hkey, hopen.2⟩
  · intro i
    have hle := ownSteps_le_four hrun i
    omega

/-- Two calls of one router; the first one times out and its reply comes late. -/
theorem late_reply_dropped :
    ∃ s, Runs PrivOps.step .new
        [.draw 7, .draw 7, .register 0, .send 0 none, .register 1, .send 1 none, .timeout 0,
          .clear 0, .reply 0 .applied, .reply 1 .notFound, .receive 1] s ∧
      s.calls[1]? = some ⟨⟨7, 2⟩, .returned .notFound, some .notFound⟩ ∧
      (1, Outcome.notFound) ∈ s.replies := by
  have hend : ∃ s, Runs PrivOps.step .new
        [.draw 7, .draw 7, .register 0, .send 0 none, .register 1, .send 1 none, .timeout 0,
          .clear 0, .reply 0 .applied, .reply 1 .notFound, .receive 1] s ∧
      s.calls[1]? = some ⟨⟨7, 2⟩, .returned .notFound, some .notFound⟩ := ⟨_, rfl, rfl⟩
  rcases hend with ⟨s, hrun, hcall⟩
  have hdraws : ∀ session, draws [.draw 7, .draw 7, .register 0, .send 0 none, .register 1,
      .send 1 none, .timeout 0, .clear 0, .reply 0 .applied, .reply 1 .notFound, .receive 1]
      session ≤ 2 ^ 64 := fun session => List.count_le_length.trans (by decide)
  refine ⟨s, hrun, hcall, ?_⟩
  rcases (privOps_answered hrun hdraws).1 1 _ hcall .notFound rfl with ⟨err, herr⟩ | hreply
  · cases herr
  · exact hreply

/-! ## A counter that has wrapped -/

theorem runs_draws (session n : Nat) : ∀ s : State, s.nextSeq session < 2 ^ 64 →
    ∃ s', Runs PrivOps.step s (replicate n (.draw session)) s' ∧ s'.waiters = s.waiters ∧
      s'.replies = s.replies ∧ s'.calls = s.calls ++ (range n).map fun k =>
        ⟨⟨session, (s.nextSeq session + k) % 2 ^ 64⟩, .drawn, none⟩ := by
  induction n with
  | zero => exact fun s _ => ⟨s, by simp, rfl, rfl, by simp⟩
  | succ n ih =>
    intro s hlt
    rcases ih (s.draw session) (by simp [State.draw, Nat.mod_lt]) with
      ⟨s', hrun, hwaiters, hreplies, hcalls⟩
    refine ⟨s', runs_cons_iff.mpr ⟨s.draw session, rfl, hrun⟩, hwaiters, hreplies, ?_⟩
    rw [hcalls, range_succ_eq_map]
    simp only [State.draw, update_self, map_cons, append_assoc, singleton_append, Nat.add_zero,
      Nat.mod_eq_of_lt hlt, List.map_map, comp_def, Nat.mod_add_mod]
    simp only [Nat.succ_eq_add_one, Nat.add_assoc, Nat.add_comm 1]

/-- Of two open calls with one key the second gets the reply to the first. -/
theorem shared_key_swaps {key : CommandId} (hij : i ≠ j)
    (hi : s.calls[i]? = some ⟨key, .drawn, none⟩) (hj : s.calls[j]? = some ⟨key, .drawn, none⟩) :
    ∃ s', Runs PrivOps.step s [.register i, .send i none, .register j, .send j none,
        .reply i .applied, .receive j] s' ∧
      s'.calls[j]? = some ⟨key, .returned .applied, some .applied⟩ ∧
      s'.replies = s.replies ++ [(i, .applied)] := by
  have hli := (List.getElem?_eq_some_iff.mp hi).1
  have hlj := (List.getElem?_eq_some_iff.mp hj).1
  simp [Runs, step, Action.call, PrivCall.advance, dispatch, hi, hj, hij, hij.symm, hli, hlj,
    -getElem?_pos]

/-- A router that has drawn `2 ^ 64` numbers draws its first one again, and a call that is still
open under it is mixed up with the new one. -/
theorem wrapped_reply_misrouted :
    ∃ actions s c, Runs PrivOps.step .new actions s ∧ s.calls[2 ^ 64]? = some c ∧
      ¬ Answered s.replies (2 ^ 64) c := by
  rcases runs_draws 7 (2 ^ 64 + 1) .new (by simp [State.new]) with
    ⟨s, hrun, -, hreplies, hcalls⟩
  have hcall : ∀ k, k ≤ 2 ^ 64 →
      s.calls[k]? = some ⟨⟨7, (1 + k) % 2 ^ 64⟩, .drawn, none⟩ := by
    intro k hk
    rw [hcalls, show State.new.calls = [] from rfl, nil_append, getElem?_map,
      getElem?_range (by omega)]
    rfl
  rcases shared_key_swaps (by decide) (hcall 0 (Nat.zero_le _)) (hcall (2 ^ 64) le_rfl) with
    ⟨s', hrest, hlast, hreplied⟩
  refine ⟨_, s', _, hrun.append hrest, hlast, ?_⟩
  intro hanswered
  rcases hanswered .applied rfl with ⟨err, herr⟩ | hmem
  · cases herr
  · rw [hreplied, hreplies] at hmem
    simp [State.new] at hmem

end ShitUndo.PrivOps
