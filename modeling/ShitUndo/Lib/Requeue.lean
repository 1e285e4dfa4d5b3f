import Mathlib.Algebra.BigOperators.Group.List.Basic
import Mathlib.Algebra.GroupWithZero.Nat
import Mathlib.Data.List.Permutation
import ShitUndo.Lib.Transition

/-!
# Messages that wait for their turn

One consumer takes messages in any order. A message that is not ready goes back to the queue, with
one attempt more; when its attempts are used up it is handled all the same.

* `dispatch`: one message is taken. A run is a list of the envelopes that are taken one after the
  other, so that every order of arrivals and of retries is one.
* `SplitAt`: a list around the only two of its elements that are of some kind.
-/

namespace Requeue

open Transition List Prod

variable {σ μ : Type*} {handle : σ → μ → σ} {msgs : List μ} {p : μ → Bool} {l : List μ} {a b : μ}
  {before after : List μ}

/-! ## Parts of the state -/

theorem foldl_unchanged {β : Type*} (f : σ → β) (hkeep : ∀ s, ∀ m ∈ msgs, f (handle s m) = f s)
    (s : σ) :
    f (msgs.foldl handle s) = f s := by
  induction msgs generalizing s with
  | nil => rfl
  | cons m msgs ih =>
    rw [foldl_cons, ih fun s m' hm' => hkeep s m' (mem_cons_of_mem _ hm')]
    exact hkeep s m mem_cons_self

theorem foldl_appends {β : Type*} (f : σ → List β) (g : μ → List β)
    (hadd : ∀ s m, f (handle s m) = f s ++ g m) (s : σ) :
    f (msgs.foldl handle s) = f s ++ msgs.flatMap g := by
  induction msgs generalizing s with
  | nil => simp
  | cons m msgs ih => rw [foldl_cons, ih, hadd, flatMap_cons, append_assoc]

/-! ## The order of two messages -/

/-- Two elements of a list that are the only ones of their kind. -/
structure SplitAt (p : μ → Bool) (l : List μ) (a b : μ) (front mid back : List μ) : Prop where
  eq : l = front ++ a :: (mid ++ b :: back)
  front : ∀ x ∈ front, p x = false
  mid : ∀ x ∈ mid, p x = false
  back : ∀ x ∈ back, p x = false

theorem splitAt_of_filter (h : l.filter p = [a, b]) :
    ∃ front mid back, SplitAt p l a b front mid back := by
  rcases filter_eq_cons_iff.mp h with ⟨front, rest, rfl, hfront, ha, hrest⟩
  rcases filter_eq_cons_iff.mp hrest with ⟨mid, back, rfl, hmid, hb, hback⟩
  refine ⟨front, mid, back, rfl, ?_, ?_, ?_⟩
  · exact fun x hx => by simpa using hfront x hx
  · exact fun x hx => by simpa using hmid x hx
  · exact fun x hx => by simpa using filter_eq_nil_iff.mp hback x hx

variable {front mid back : List μ}

theorem SplitAt.eq_append (h : SplitAt p l a b front mid back) :
    l = (front ++ a :: mid) ++ b :: back := by
  rw [h.eq]
  simp

theorem SplitAt.second_unique (h : SplitAt p l a b front mid back) (hb : p b = true)
    (hab : a ≠ b) (heq : l = before ++ b :: after) : before = front ++ a :: mid ∧ after = back := by
  have hout : ∀ {l : List μ}, (∀ x ∈ l, p x = false) → b ∉ l := by
    intro l hl hmem
    simp [hl b hmem] at hb
  have hleft : b ∉ front ++ a :: mid := by
    simp [hout h.front, hout h.mid, Ne.symm hab]
  have hsplit := (append_cons_inj_of_notMem hleft (hout h.back)).mp (h.eq_append.symm.trans heq)
  exact ⟨hsplit.1.symm, hsplit.2.2.symm⟩

theorem splitAt_of_perm (h : (l.filter p).Perm [a, b]) :
    (∃ front mid back, SplitAt p l a b front mid back) ∨
      ∃ front mid back, SplitAt p l b a front mid back := by
  rcases perm_pair.mp h with h | h
  · exact .inl (splitAt_of_filter h)
  · exact .inr (splitAt_of_filter h)

/-! ## The queue -/

variable [DecidableEq μ]

/-- What is on the way to the consumer, with the attempts made so far, and what it has handled. -/
structure Hub (σ μ : Type*) where
  waiting : List (μ × Nat)
  handled : List μ
  state : σ

/-- All messages are still to arrive. -/
def Hub.start (s : σ) (msgs : List μ) : Hub σ μ := ⟨msgs.map fun m => (m, 0), [], s⟩

variable (ready : σ → μ → Bool) (handle : σ → μ → σ) (budget : Nat)

/-- The consumer takes an envelope. -/
def dispatch (h : Hub σ μ) (e : μ × Nat) : Option (Hub σ μ) :=
  if e ∈ h.waiting then
    if ready h.state e.1 = false ∧ e.2 < budget then
      some { h with waiting := h.waiting.erase e ++ [(e.1, e.2 + 1)] }
    else
      some
        { waiting := h.waiting.erase e
          handled := h.handled ++ [e.1]
          state := handle h.state e.1 }
  else none

variable {ready handle budget} {h h' : Hub σ μ} {e : μ × Nat} {s : σ} {run : List (μ × Nat)}

theorem dispatch_cases (hstep : dispatch ready handle budget h e = some h') :
    e ∈ h.waiting ∧
      ((ready h.state e.1 = false ∧ e.2 < budget ∧
          h' = { h with waiting := h.waiting.erase e ++ [(e.1, e.2 + 1)] }) ∨
        (¬ (ready h.state e.1 = false ∧ e.2 < budget) ∧
          h' = ⟨h.waiting.erase e, h.handled ++ [e.1], handle h.state e.1⟩)) := by
  unfold dispatch at hstep
  split at hstep
  case isTrue hmem =>
    refine ⟨hmem, ?_⟩
    split at hstep
    case isTrue hretry => exact .inl ⟨hretry.1, hretry.2, (Option.some.inj hstep).symm⟩
    case isFalse hretry => exact .inr ⟨hretry, (Option.some.inj hstep).symm⟩
  case isFalse => exact absurd hstep (by simp)

variable (hrun : Runs (dispatch ready handle budget) (.start s msgs) run h)

include hrun

theorem perm_of_runs :
    (h.handled ++ h.waiting.map fst).Perm msgs := by
  refine hrun.invariant (P := fun _ h => (h.handled ++ h.waiting.map fst).Perm msgs) ?_ ?_
  · simp [Hub.start, Function.comp_def]
  · intro _ h e h' _ hperm hstep
    rcases dispatch_cases hstep with ⟨hmem, ⟨-, -, rfl⟩ | ⟨-, rfl⟩⟩
    · -- back into the queue
      have hback : ((h.waiting.erase e ++ [(e.1, e.2 + 1)]).map fst).Perm
          (h.waiting.map fst) := by
        rw [map_append, map_singleton]
        refine (perm_append_singleton _ _).trans ?_
        exact ((perm_cons_erase hmem).map fst).symm
      exact (hback.append_left _).trans hperm
    · -- from the queue to what is handled
      have hmove : (h.handled ++ [e.1] ++ (h.waiting.erase e).map fst).Perm
          (h.handled ++ h.waiting.map fst) := by
        rw [append_assoc]
        exact ((perm_cons_erase hmem).map fst).symm.append_left _
      exact hmove.trans hperm

theorem perm_of_finished (hend : h.waiting = []) : h.handled.Perm msgs := by
  have hperm := perm_of_runs hrun
  rwa [hend, map_nil, append_nil] at hperm

theorem state_of_runs :
    h.state = h.handled.foldl handle s := by
  refine hrun.invariant (P := fun _ h => h.state = h.handled.foldl handle s) rfl ?_
  intro _ h e h' _ hstate hstep
  rcases dispatch_cases hstep with ⟨-, ⟨-, -, rfl⟩ | ⟨-, rfl⟩⟩
  · exact hstate
  · simp only [foldl_append, foldl_cons, foldl_nil, hstate]

/-- For the messages that matter, the attempts do not run out: when the last one is made the message
is ready. -/
def InTime (ready : σ → μ → Bool) (budget : Nat) (matters : μ → Bool) (h : Hub σ μ)
    (e : μ × Nat) : Prop :=
  matters e.1 = true → ready h.state e.1 = true ∨ e.2 < budget

instance (ready : σ → μ → Bool) (budget : Nat) (matters : μ → Bool) (h : Hub σ μ) (e : μ × Nat) :
    Decidable (InTime ready budget matters h e) :=
  inferInstanceAs (Decidable (matters e.1 = true → ready h.state e.1 = true ∨ e.2 < budget))

theorem ready_of_runs {matters : μ → Bool}
    (htime : Meets (InTime ready budget matters) (dispatch ready handle budget) (.start s msgs) run)
    {m : μ} (hm : h.handled = before ++ m :: after) (hmatters : matters m = true) :
    ready (before.foldl handle s) m = true := by
  have hinv := hrun.invariant_of_meets (P := fun h => h.state = h.handled.foldl handle s ∧
    ∀ before m after, h.handled = before ++ m :: after → matters m = true →
      ready (before.foldl handle s) m = true) htime ⟨rfl, by simp [Hub.start]⟩ ?_
  · exact hinv.2 before m after hm hmatters
  · intro h e h' ⟨hstate, hready⟩ hguard hstep
    rcases dispatch_cases hstep with ⟨-, ⟨-, -, rfl⟩ | ⟨hretry, rfl⟩⟩
    · exact ⟨hstate, hready⟩
    refine ⟨by simp [hstate], ?_⟩
    intro before m after hsplit hmatters
    rcases concat_eq_append_cons hsplit with ⟨-, rfl, rfl⟩ | ⟨after', -, hsplit⟩
    · -- the message just taken: it is not one that goes back
      rw [← hstate]
      rcases hguard hmatters with hnow | hlater
      · exact hnow
      · by_contra hnot
        exact hretry ⟨by simpa using hnot, hlater⟩
    · exact hready before m after' hsplit hmatters

/-! ## The end of a run -/

/-- How many times the messages can still be taken. -/
def effort (budget : Nat) (waiting : List (μ × Nat)) : Nat :=
  (waiting.map fun e => budget + 1 - e.2).sum

omit hrun in
theorem effort_erase (budget : Nat) {waiting : List (μ × Nat)} (hmem : e ∈ waiting) :
    effort budget waiting = budget + 1 - e.2 + effort budget (waiting.erase e) := by
  have hperm := (perm_cons_erase hmem).map fun e => budget + 1 - e.2
  rw [effort, hperm.sum_eq, map_cons, sum_cons, effort]

theorem length_le_of_runs :
    run.length ≤ (budget + 1) * msgs.length := by
  have hinv := hrun.invariant (P := fun run h => (∀ e ∈ h.waiting, e.2 ≤ budget) ∧
    run.length + effort budget h.waiting ≤ (budget + 1) * msgs.length) ?_ ?_
  · omega
  · constructor
    · intro e he
      rcases mem_map.mp he with ⟨m, -, rfl⟩
      exact Nat.zero_le _
    · simp [Hub.start, effort, Function.comp_def, Nat.mul_comm]
  · intro run h e h' _ ⟨hattempts, hlen⟩ hstep
    rcases dispatch_cases hstep with ⟨hmem, ⟨-, hlt, rfl⟩ | ⟨-, rfl⟩⟩
    · have hless := effort_erase budget hmem
      constructor
      · intro e' he'
        rcases mem_append.mp he' with hold | hnew
        · exact hattempts e' (mem_of_mem_erase hold)
        · rw [mem_singleton.mp hnew]
          exact hlt
      · have hback : effort budget (h.waiting.erase e ++ [(e.1, e.2 + 1)]) =
            effort budget (h.waiting.erase e) + (budget - e.2) := by
          simp [effort]
        rw [length_append, length_singleton, hback]
        omega
    · have hless := effort_erase budget hmem
      have hleft := hattempts e hmem
      refine ⟨fun e' he' => hattempts e' (mem_of_mem_erase he'), ?_⟩
      rw [length_append, length_singleton]
      show run.length + 1 + effort budget (h.waiting.erase e) ≤ _
      omega

end Requeue
