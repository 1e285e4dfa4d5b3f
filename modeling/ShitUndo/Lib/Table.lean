import Mathlib.Data.List.Nodup
import Mathlib.Tactic.Common

/-!
# Tables with a primary key

A table is a list of rows no two of which have the same key. Its operations are the SQL
statements `DELETE … WHERE`, `UPDATE … SET` of columns outside the key, and `INSERT … ON CONFLICT
DO NOTHING`; each keeps the key unique by construction.
-/

/-- A list of rows with a primary key. -/
structure Table (ρ κ : Type*) (key : ρ → κ) where
  rows : List ρ
  nodup : (rows.map key).Nodup

namespace Table

open List

variable {ρ κ : Type*} {key : ρ → κ} {t t' : Table ρ κ key} {r r' : ρ} {p q : ρ → Bool}
  {f g : ρ → ρ}

@[ext] theorem ext (h : t.rows = t'.rows) : t = t' := by
  cases t
  cases t'
  cases h
  rfl

/-- The empty table. -/
def empty : Table ρ κ key := ⟨[], nodup_nil⟩

instance : Membership ρ (Table ρ κ key) := ⟨fun t r => r ∈ t.rows⟩

theorem mem_iff : r ∈ t ↔ r ∈ t.rows := Iff.rfl

@[simp] theorem not_mem_empty : r ∉ (empty : Table ρ κ key) := not_mem_nil

theorem eq_of_key (hr : r ∈ t) (hr' : r' ∈ t) (h : key r = key r') : r = r' :=
  inj_on_of_nodup_map t.nodup hr hr' h

/-- `DELETE FROM t WHERE p`. -/
def delete (t : Table ρ κ key) (p : ρ → Bool) : Table ρ κ key where
  rows := t.rows.filter fun r => !p r
  nodup := t.nodup.sublist (filter_sublist.map key)

@[simp] theorem mem_delete : r ∈ t.delete p ↔ r ∈ t ∧ p r = false := by
  simp [delete, mem_iff]

theorem delete_delete : (t.delete p).delete q = t.delete fun r => p r || q r := by
  ext1
  simp [delete, filter_filter, Bool.and_comm]

theorem delete_congr (h : ∀ r ∈ t, p r = q r) : t.delete p = t.delete q := by
  ext1
  exact filter_congr fun r hr => by rw [h r hr]

theorem delete_eq_self (h : ∀ r ∈ t, p r = false) : t.delete p = t := by
  ext1
  exact filter_eq_self.mpr fun r hr => by rw [h r hr]; rfl

/-- `UPDATE t SET …`, outside the key. -/
def update (t : Table ρ κ key) (f : ρ → ρ) (hf : ∀ r, key (f r) = key r) : Table ρ κ key where
  rows := t.rows.map f
  nodup := by
    rw [map_map, Function.comp_def, funext hf]
    exact t.nodup

@[simp] theorem mem_update {hf : ∀ r, key (f r) = key r} : r ∈ t.update f hf ↔ ∃ r' ∈ t, f r' = r :=
  mem_map

theorem update_congr {hf : ∀ r, key (f r) = key r} {hg : ∀ r, key (g r) = key r}
    (h : ∀ r ∈ t, f r = g r) : t.update f hf = t.update g hg := by
  ext1
  exact map_congr_left h

theorem update_eq_self {hf : ∀ r, key (f r) = key r} (h : ∀ r ∈ t, f r = r) :
    t.update f hf = t := by
  ext1
  exact (map_congr_left h).trans (map_id _)

theorem update_update {hf : ∀ r, key (f r) = key r} {hg : ∀ r, key (g r) = key r} :
    (t.update f hf).update g hg = t.update (g ∘ f) fun r => (hg (f r)).trans (hf r) := by
  ext1
  exact map_map

/-- `INSERT INTO t … ON CONFLICT DO NOTHING`. -/
def insertOrIgnore [DecidableEq κ] (t : Table ρ κ key) (r : ρ) : Table ρ κ key :=
  if h : key r ∈ t.rows.map key then t
  else ⟨t.rows ++ [r], by
    rw [map_append, map_singleton, nodup_append]
    exact ⟨t.nodup, nodup_singleton _, fun a ha b hb hab => by
      rw [mem_singleton] at hb
      exact h (hb ▸ hab ▸ ha)⟩⟩

theorem mem_insertOrIgnore [DecidableEq κ] :
    r ∈ t.insertOrIgnore r' ↔ r ∈ t ∨ (r = r' ∧ ∀ s ∈ t, key s ≠ key r') := by
  unfold insertOrIgnore
  split
  · rename_i h
    obtain ⟨s, hs, hkey⟩ := mem_map.mp h
    refine ⟨Or.inl, ?_⟩
    rintro (hr | ⟨-, hno⟩)
    · exact hr
    · exact absurd hkey (hno s hs)
  · rename_i h
    have hno : ∀ s ∈ t, key s ≠ key r' := fun s hs hkey => h (mem_map.mpr ⟨s, hs, hkey⟩)
    rw [mem_iff, mem_append, mem_singleton]
    exact or_congr_right (iff_self_and.mpr fun _ => hno)

end Table
