import Mathlib.Data.List.Induction
import Mathlib.Tactic.Common

/-!
# Runs of a guarded step function

A system of processes is a function `step : σ → α → Option σ`: what the action `a` does in a
state, and nothing where it is not enabled. An interleaving of the processes is a list of
actions.

* `Meets`: every action of a run meets a condition in the state it is taken in, and
  `Runs.invariant_of_meets` and `Meets.of_invariant`, the invariant rules for such runs.
* `Precedes`: an action has happened before another one, over a whole run.
-/

namespace Transition

open List

variable {σ α : Type*} {step : σ → α → Option σ} {s s' : σ} {as : List α} {a b c : α} {P : σ → Prop}
  {guard : σ → α → Prop}

/-- The actions are enabled one after the other from `s`, and lead to `s'`. -/
def Runs (step : σ → α → Option σ) (s : σ) (as : List α) (s' : σ) : Prop :=
  as.foldlM step s = some s'

@[simp] theorem runs_nil_iff : Runs step s [] s' ↔ s = s' := by
  simp [Runs]

theorem runs_concat_iff :
    Runs step s (as ++ [a]) s' ↔ ∃ t, Runs step s as t ∧ step t a = some s' := by
  simp [Runs, Option.bind_eq_some_iff]

theorem Runs.invariant {P : List α → σ → Prop} (hrun : Runs step s as s') (hinit : P [] s)
    (hstep : ∀ as t a t', Runs step s as t → P as t → step t a = some t' → P (as ++ [a]) t') :
    P as s' := by
  induction as using reverseRecOn generalizing s' with
  | nil =>
    rw [runs_nil_iff] at hrun
    exact hrun ▸ hinit
  | append_singleton as a ih =>
    obtain ⟨t, hrun, ha⟩ := runs_concat_iff.mp hrun
    exact hstep as t a s' hrun (ih hrun) ha

theorem runs_cons_iff : Runs step s (a :: as) s' ↔ ∃ t, step s a = some t ∧ Runs step t as s' := by
  simp [Runs, Option.bind_eq_some_iff]

theorem Runs.append {t : σ} {bs : List α} (h₁ : Runs step s as t) (h₂ : Runs step t bs s') :
    Runs step s (as ++ bs) s' := by
  simp only [Runs] at h₁ h₂ ⊢
  rw [foldlM_append, h₁]
  exact h₂

/-- Every action is taken in a state that meets the condition. -/
def Meets (guard : σ → α → Prop) (step : σ → α → Option σ) : σ → List α → Prop
  | _, [] => True
  | s, a :: as =>
    guard s a ∧
      match step s a with
      | some t => Meets guard step t as
      | none => True

instance decidableMeets (guard : σ → α → Prop) [∀ s a, Decidable (guard s a)]
    (step : σ → α → Option σ) : ∀ s as, Decidable (Meets guard step s as)
  | _, [] => isTrue trivial
  | s, a :: as =>
    have : Decidable (match step s a with
        | some t => Meets guard step t as
        | none => True) :=
      match step s a with
      | some t => decidableMeets guard step t as
      | none => isTrue trivial
    inferInstanceAs (Decidable (guard s a ∧ _))

/-- What holds at the start and is kept by every step that meets the condition holds after every
run whose steps all do. -/
theorem Runs.invariant_of_meets (hrun : Runs step s as s') (hmeets : Meets guard step s as)
    (hinit : P s) (hstep : ∀ t a t', P t → guard t a → step t a = some t' → P t') : P s' := by
  induction as generalizing s with
  | nil =>
    rw [runs_nil_iff] at hrun
    exact hrun ▸ hinit
  | cons a as ih =>
    obtain ⟨t, ha, hrun⟩ := runs_cons_iff.mp hrun
    obtain ⟨hguard, hrest⟩ := hmeets
    rw [ha] at hrest
    exact ih hrun hrest (hstep s a t hinit hguard ha)

theorem Meets.of_invariant {goal : σ → α → Prop} (hmeets : Meets guard step s as) (hinit : P s)
    (hgoal : ∀ t a, P t → guard t a → goal t a)
    (hstep : ∀ t a t', P t → guard t a → step t a = some t' → P t') : Meets goal step s as := by
  induction as generalizing s with
  | nil => trivial
  | cons a as ih =>
    obtain ⟨hguard, hrest⟩ := hmeets
    refine ⟨hgoal s a hinit hguard, ?_⟩
    cases ha : step s a with
    | none => trivial
    | some t =>
      rw [ha] at hrest
      exact ih hrest (hstep s a t hinit hguard ha)

/-- Wherever `b` happens, `a` has happened before. -/
def Precedes (a b : α) (as : List α) : Prop :=
  ∀ before after, as = before ++ b :: after → a ∈ before

theorem precedes_nil : Precedes a b [] := by
  intro before after h
  simp at h

theorem concat_eq_append_cons {before after : List α} (h : as ++ [c] = before ++ b :: after) :
    (after = [] ∧ as = before ∧ c = b) ∨
      ∃ after', after = after' ++ [c] ∧ as = before ++ b :: after' := by
  rcases eq_nil_or_concat after with rfl | ⟨after', d, rfl⟩
  · obtain ⟨rfl, hc⟩ := append_inj' h rfl
    exact .inl ⟨rfl, rfl, by simpa using hc⟩
  · rw [concat_eq_append, ← cons_append, ← append_assoc] at h
    obtain ⟨rfl, hd⟩ := append_inj' h rfl
    exact .inr ⟨after', by simp [singleton_inj.mp hd], rfl⟩

theorem precedes_concat (h : Precedes a b as) (hlast : c = b → a ∈ as) :
    Precedes a b (as ++ [c]) := by
  intro before after heq
  rcases concat_eq_append_cons heq with ⟨-, rfl, hc⟩ | ⟨after', -, hsplit⟩
  · exact hlast hc
  · exact h before after' hsplit

theorem precedes_cons_iff : Precedes a b (c :: as) ↔ c ≠ b ∧ (c = a ∨ Precedes a b as) := by
  constructor
  · intro h
    refine ⟨?_, ?_⟩
    · rintro rfl
      simpa using h [] as rfl
    · refine or_iff_not_imp_left.mpr fun hne before after heq => ?_
      have hmem := h (c :: before) after (by rw [heq, cons_append])
      exact (mem_cons.mp hmem).resolve_left (Ne.symm hne)
  · rintro ⟨hne, hor⟩ before after heq
    cases before with
    | nil => exact absurd (cons.inj heq).1 hne
    | cons d before =>
      rcases cons.inj heq with ⟨rfl, hrest⟩
      rcases hor with rfl | h
      · exact mem_cons_self
      · exact mem_cons_of_mem _ (h before after hrest)

instance decidablePrecedes [DecidableEq α] (a b : α) : ∀ as, Decidable (Precedes a b as)
  | [] => isTrue precedes_nil
  | c :: as =>
    have := decidablePrecedes a b as
    decidable_of_iff (c ≠ b ∧ (c = a ∨ Precedes a b as)) precedes_cons_iff.symm

end Transition
