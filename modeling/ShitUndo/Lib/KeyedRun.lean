import Mathlib.Logic.Function.Basic
import Mathlib.Data.List.Basic

/-!
# Operations on one key each

A table of values and operations that read and change the value of one key, or refuse to. A refusal
ends the run. Operations on different keys do not notice each other: if for every key its own
operations run through, then so do all of them together, and each key has the value its own
operations give it (`run_eq_of_keys`).
-/

namespace KeyedRun

variable {κ ν ο : Type*} (act : ο → ν → Option ν)

/-- Run the operations on one value. -/
def runOne : List ο → ν → Option ν
  | [], v => some v
  | o :: rest, v => (act o v).bind (runOne rest)

theorem runOne_append (xs ys : List ο) (v : ν) :
    runOne act (xs ++ ys) v = (runOne act xs v).bind (runOne act ys) := by
  induction xs generalizing v with
  | nil => rfl
  | cons o rest ih =>
    rw [List.cons_append, runOne, runOne]
    cases act o v with
    | none => rfl
    | some w => exact ih w

variable [DecidableEq κ] (key : ο → κ)

/-- Run the operations on a table. -/
def run : List ο → (κ → ν) → Option (κ → ν)
  | [], u => some u
  | o :: rest, u => (act o (u (key o))).bind fun v => run rest (Function.update u (key o) v)

variable {act key}

/-- **Keys can be looked at one at a time.** -/
theorem run_eq_of_keys {ops : List ο} {u v : κ → ν}
    (h : ∀ k, runOne act (ops.filter fun o => key o = k) (u k) = some (v k)) :
    run act key ops u = some v := by
  induction ops generalizing u with
  | nil =>
    have huv : u = v := by
      funext k
      exact Option.some.inj (h k)
    rw [huv]
    rfl
  | cons o rest ih =>
    have hown := h (key o)
    rw [List.filter_cons_of_pos (by simp), runOne, Option.bind_eq_some_iff] at hown
    obtain ⟨w, hact, hrest⟩ := hown
    rw [run, hact, Option.bind_some]
    refine ih fun k => ?_
    by_cases hk : k = key o
    · subst hk
      rwa [Function.update_self]
    · have hother := h k
      rw [List.filter_cons_of_neg (by simpa using Ne.symm hk)] at hother
      rwa [Function.update_of_ne hk]

end KeyedRun
