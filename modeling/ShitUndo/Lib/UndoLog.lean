import Mathlib.Data.List.Basic

/-!
# Undo logs

A system takes steps and logs entries as it goes; a second system executes a script computed
from the log, newest entry first. The rule here (`Runs.undone`) says when the script takes the
second system back: it is enough that the entries of one step undo that step, from any state of
the second system that matches the state after it.

Nothing here depends on what states, entries or scripts are.
-/

namespace UndoLog

variable {σ τ ε ν : Type*}

/-- Runs of a system whose steps log entries, with the log in order. -/
inductive Runs (step : σ → List ε → σ → Prop) : σ → List ε → σ → Prop
  | nil (s : σ) : Runs step s [] s
  | cons {s s₁ s₂ : σ} {entries log : List ε} (hstep : step s entries s₁)
      (hrest : Runs step s₁ log s₂) : Runs step s (entries ++ log) s₂

section Runs

variable {step : σ → List ε → σ → Prop} {s s' : σ} {log : List ε}

variable (hrun : Runs step s log s')

include hrun

theorem Runs.invariant (inv : σ → Prop) (hs : inv s)
    (hkeep : ∀ s entries s', inv s → step s entries s' → inv s') : inv s' := by
  induction hrun with
  | nil s => exact hs
  | cons hstep _ ih => exact ih (hkeep _ _ _ hs hstep)

theorem Runs.within {all : List ε} (hall : ∀ e ∈ log, e ∈ all) :
    Runs (fun s entries s' => (∀ e ∈ entries, e ∈ all) ∧ step s entries s') s log s' := by
  induction hrun with
  | nil s => exact .nil s
  | cons hstep _ ih =>
    have hfirst : ∀ e ∈ _, e ∈ all := fun e he => hall e (List.mem_append_left _ he)
    exact .cons ⟨hfirst, hstep⟩ (ih fun e he => hall e (List.mem_append_right _ he))

theorem Runs.strengthen (inv : σ → Prop) (hs : inv s)
    (hkeep : ∀ s entries s', inv s → step s entries s' → inv s') :
    Runs (fun s entries s' => inv s ∧ inv s' ∧ step s entries s') s log s' := by
  induction hrun with
  | nil s => exact .nil s
  | cons hstep _ ih =>
    have hs₁ := hkeep _ _ _ hs hstep
    exact .cons ⟨hs, hs₁, hstep⟩ (ih hs₁)

theorem Runs.step_of_mem {e : ε} (he : e ∈ log) :
    ∃ s₀ entries s₁, step s₀ entries s₁ ∧ e ∈ entries := by
  induction hrun with
  | nil s => cases he
  | cons hstep _ ih =>
    rcases List.mem_append.mp he with he | he
    · exact ⟨_, _, _, hstep, he⟩
    · exact ih he

theorem Runs.forall_of_step {Q : ε → Prop} (inv : σ → Prop) (hs : inv s)
    (hkeep : ∀ s entries s', inv s → step s entries s' → inv s')
    (hlog : ∀ s entries s', inv s → step s entries s' → ∀ e ∈ entries, Q e) : ∀ e ∈ log, Q e := by
  intro e he
  obtain ⟨s₀, entries, s₁, ⟨hs₀, -, hstep⟩, hmem⟩ := (hrun.strengthen inv hs hkeep).step_of_mem he
  exact hlog s₀ entries s₁ hs₀ hstep e hmem

end Runs

/-! ## Scripts -/

section Undone

variable {exec : List ν → τ → τ → Prop} {R : τ → σ → Prop} {s s₁ s' : σ}
  {script script₁ script₂ : List ν}

/-- Executing the script takes every match of `s'` to a match of `s`. -/
def Undone (exec : List ν → τ → τ → Prop) (R : τ → σ → Prop) (script : List ν) (s s' : σ) : Prop :=
  ∀ t', R t' s' → ∃ t, exec script t' t ∧ R t s

theorem Undone.nil (hnil : ∀ t, exec [] t t) : Undone exec R [] s s :=
  fun t' ht' => ⟨t', hnil t', ht'⟩

theorem Undone.append (happend : ∀ a b t t₁ t₂, exec a t t₁ → exec b t₁ t₂ → exec (a ++ b) t t₂)
    (hlater : Undone exec R script₂ s₁ s') (hearlier : Undone exec R script₁ s s₁) :
    Undone exec R (script₂ ++ script₁) s s' := by
  intro t' ht'
  obtain ⟨t₁, hexec₂, ht₁⟩ := hlater t' ht'
  obtain ⟨t, hexec₁, ht⟩ := hearlier t₁ ht₁
  exact ⟨t, happend _ _ _ _ _ hexec₂ hexec₁, ht⟩

/-- **Reverse replay.** If the entries of each step undo that step, the whole log undoes the
whole run. -/
theorem Runs.undone {step : σ → List ε → σ → Prop} {log : List ε} {emit : ε → List ν}
    (hrun : Runs step s log s') (hnil : ∀ t, exec [] t t)
    (happend : ∀ a b t t₁ t₂, exec a t t₁ → exec b t₁ t₂ → exec (a ++ b) t t₂)
    (hstep : ∀ s entries s', step s entries s' →
      Undone exec R (entries.reverse.flatMap emit) s s') :
    Undone exec R (log.reverse.flatMap emit) s s' := by
  induction hrun with
  | nil s => exact Undone.nil hnil
  | cons hfirst _ ih =>
    rw [List.reverse_append, List.flatMap_append]
    exact Undone.append happend ih (hstep _ _ _ hfirst)

end Undone

end UndoLog
