import Mathlib.Data.List.Nodup
import Mathlib.Data.List.Perm.Basic

/-!
# Undoing a difference by keys

A table has at most one row for each key. It is changed by taking rows away and putting rows in;
either can be refused. To go back from a table to an earlier one, take away the rows whose key is
new, then put back the rows whose key is gone: what shares a key is left as it is.
-/

namespace KeyedDiff

open List

variable {ρ κ : Type*} [DecidableEq κ]

/-- A change to a table. -/
inductive Edit (ρ : Type*) where
  | del (r : ρ)
  | add (r : ρ)

section Run

variable (key : ρ → κ) (verify : ρ → ρ → Bool) (admits : ρ → Bool)

/-- A row is found by its key, and what else is said about it must be so. A new row needs a key of
its own and a place that admits it. -/
def Edit.apply (t : List ρ) : Edit ρ → Option (List ρ)
  | .del r =>
    if t.any fun q => decide (key q = key r) && verify r q then
      some (t.filter fun q => decide (key q ≠ key r))
    else none
  | .add r =>
    if admits r && t.all fun q => decide (key q ≠ key r) then some (t ++ [r]) else none

/-- Changes one after the other, up to the first that is refused. -/
def run (edits : List (Edit ρ)) (t : List ρ) : Option (List ρ) :=
  edits.foldlM (Edit.apply key verify admits) t

/-- The rows of a table whose key another one does not have. -/
def missing (t t' : List ρ) : List ρ := t.filter fun r => !t'.any fun q => decide (key q = key r)

/-- The changes from the later table back to the earlier one, going by keys: rows with new keys are
taken away, then rows whose key is gone are put in, each in some order. -/
def IsInverse (before after : List ρ) (edits : List (Edit ρ)) : Prop :=
  ∃ gone new : List ρ, edits = gone.map .del ++ new.map .add ∧
    gone.Perm (missing key after before) ∧ new.Perm (missing key before after)

end Run

variable {key : ρ → κ} {verify : ρ → ρ → Bool} {admits : ρ → Bool} {before after : List ρ}
  {edits : List (Edit ρ)}

theorem mem_missing {t t' : List ρ} {r : ρ} :
    r ∈ missing key t t' ↔ r ∈ t ∧ ∀ q ∈ t', key q ≠ key r := by
  simp [missing]

theorem run_del (hverify : ∀ r, verify r r = true) (gone : List ρ) :
    ∀ t : List ρ, (∀ r ∈ gone, r ∈ t) → (gone.map key).Nodup →
      run key verify admits (gone.map .del) t =
        some (t.filter fun q => decide (∀ r ∈ gone, key q ≠ key r)) := by
  induction gone with
  | nil =>
    intro t _ _
    simp [run]
  | cons r rest ih =>
    intro t hmem hnodup
    rw [map_cons, nodup_cons] at hnodup
    have hhere : (Edit.del r).apply key verify admits t =
        some (t.filter fun q => decide (key q ≠ key r)) := by
      rw [Edit.apply, if_pos]
      rw [any_eq_true]
      exact ⟨r, hmem r mem_cons_self, by simp [hverify]⟩
    -- the rows still to go have other keys, so they are still there
    have hrest : ∀ q ∈ rest, q ∈ t.filter fun q => decide (key q ≠ key r) := by
      intro q hq
      have hne : key q ≠ key r := fun hkey => hnodup.1 (hkey ▸ mem_map_of_mem hq)
      exact mem_filter.mpr ⟨hmem q (mem_cons_of_mem r hq), by simpa using hne⟩
    calc run key verify admits ((r :: rest).map .del) t
        = run key verify admits (rest.map .del) (t.filter fun q => decide (key q ≠ key r)) := by
          simp only [run, map_cons, foldlM_cons, hhere]
          rfl
      _ = _ := by
          rw [ih _ hrest hnodup.2, filter_filter]
          simp only [forall_mem_cons, Bool.decide_and, Bool.and_comm]

theorem run_add (new : List ρ) :
    ∀ t : List ρ, (∀ r ∈ new, admits r = true) → ((t ++ new).map key).Nodup →
      run key verify admits (new.map .add) t = some (t ++ new) := by
  induction new with
  | nil =>
    intro t _ _
    simp [run]
  | cons r rest ih =>
    intro t hadmits hnodup
    have hfree : ∀ q ∈ t, key q ≠ key r := by
      intro q hq hkey
      rw [map_append, nodup_append] at hnodup
      exact hnodup.2.2 _ (mem_map_of_mem hq) _ (mem_map_of_mem mem_cons_self) hkey
    have hhere : (Edit.add r).apply key verify admits t = some (t ++ [r]) := by
      rw [Edit.apply, if_pos]
      simpa [hadmits r mem_cons_self] using hfree
    calc run key verify admits ((r :: rest).map .add) t
        = run key verify admits (rest.map .add) (t ++ [r]) := by
          simp only [run, map_cons, foldlM_cons, hhere]
          rfl
      _ = some (t ++ [r] ++ rest) := by
          refine ih _ (fun q hq => hadmits q (mem_cons_of_mem r hq)) ?_
          rwa [append_assoc]
      _ = some (t ++ r :: rest) := by rw [append_assoc, singleton_append]

/-- What is left of the later table when the rows with new keys are gone. -/
def kept (key : ρ → κ) (before after : List ρ) : List ρ :=
  after.filter fun q => before.any fun r => decide (key r = key q)

theorem mem_kept {r : ρ} : r ∈ kept key before after ↔ r ∈ after ∧ ∃ q ∈ before, key q = key r := by
  simp [kept]

/-- **No change of an inverse is refused**, and this is where they lead. -/
theorem run_changes {gone new : List ρ} (hgone : gone.Perm (missing key after before))
    (hnew : new.Perm (missing key before after)) (hverify : ∀ r, verify r r = true)
    (hbefore : (before.map key).Nodup) (hafter : (after.map key).Nodup)
    (hadmits : ∀ r ∈ before, admits r = true) :
    run key verify admits (gone.map .del ++ new.map .add) after =
      some (kept key before after ++ new) := by
  have hdel : run key verify admits (gone.map .del) after = some (kept key before after) := by
    have hkeys : (gone.map key).Nodup :=
      (hgone.map key).nodup_iff.mpr (hafter.sublist (filter_sublist.map key))
    rw [run_del hverify _ _ (fun r hr => (mem_missing.mp (hgone.mem_iff.mp hr)).1) hkeys]
    congr 1
    refine filter_congr fun q hq => ?_
    rw [Bool.eq_iff_iff, decide_eq_true_iff, any_eq_true]
    constructor
    · intro hnone
      -- a row that is not taken away has a key of the earlier table
      by_contra hnot
      refine hnone q (hgone.mem_iff.mpr (mem_missing.mpr ⟨hq, fun r hr hkey => ?_⟩)) rfl
      exact hnot ⟨r, hr, decide_eq_true hkey⟩
    · rintro ⟨r, hr, hkey⟩ p hp hsame
      refine (mem_missing.mp (hgone.mem_iff.mp hp)).2 r hr ?_
      exact (of_decide_eq_true hkey).trans hsame
  have hnodup : ((kept key before after ++ new).map key).Nodup := by
    rw [map_append, nodup_append]
    refine ⟨hafter.sublist (filter_sublist.map key),
      (hnew.map key).nodup_iff.mpr (hbefore.sublist (filter_sublist.map key)), ?_⟩
    intro k hk k' hk' hkk
    obtain ⟨q, hq, rfl⟩ := mem_map.mp hk
    obtain ⟨r, hr, rfl⟩ := mem_map.mp hk'
    exact (mem_missing.mp (hnew.mem_iff.mp hr)).2 q (mem_kept.mp hq).1 hkk
  unfold run at hdel ⊢
  rw [foldlM_append, hdel]
  exact run_add _ _ (fun r hr => hadmits r (mem_missing.mp (hnew.mem_iff.mp hr)).1) hnodup

theorem foldlM_commands {α : Type*} {read : α → Option (Edit ρ)} {commands : List α}
    (hread : commands.map read = edits.map some) (t : List ρ) :
    commands.foldlM (fun t c => (read c).bind (Edit.apply key verify admits t)) t =
      run key verify admits edits t := by
  induction commands generalizing edits t with
  | nil =>
    rw [map_nil, eq_comm, map_eq_nil_iff] at hread
    rw [hread]
    rfl
  | cons c rest ih =>
    cases edits with
    | nil => cases hread
    | cons e edits =>
      rw [map_cons, map_cons, cons.injEq] at hread
      unfold run
      rw [foldlM_cons, foldlM_cons, hread.1, Option.bind_some]
      exact bind_congr fun t' => ih hread.2 t'

end KeyedDiff
