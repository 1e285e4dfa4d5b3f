import Mathlib.Data.List.MinMax
import Mathlib.Data.List.Pairwise
import Mathlib.Order.Nat
import Mathlib.Tactic.Common

/-!
# First-fit colouring of a list

Items are coloured from left to right; each takes the least colour that no earlier item in
conflict with it has. The conflict relation `r` is arbitrary (`r a b`: the earlier `a` and the
later `b` conflict).
-/

namespace FirstFit

open List

variable {α : Type*} (r : α → α → Prop)

/-- `n` is the least colour that no earlier item in conflict with `a` has. -/
def IsFirstFree (earlier : List (α × ℕ)) (a : α) (n : ℕ) : Prop :=
  (∀ e ∈ earlier, r e.1 a → e.2 ≠ n) ∧ ∀ m < n, ∃ e ∈ earlier, r e.1 a ∧ e.2 = m

/-- The coloured items, after `earlier`, are coloured first-fit. -/
def Greedy : List (α × ℕ) → List (α × ℕ) → Prop
  | _, [] => True
  | earlier, x :: rest => IsFirstFree r earlier x.1 x.2 ∧ Greedy (earlier ++ [x]) rest

/-- Conflicts with items to the left always go to a larger colour. -/
def IncreasingAfter : List (α × ℕ) → List (α × ℕ) → Prop
  | _, [] => True
  | earlier, x :: rest =>
    (∀ e ∈ earlier, r e.1 x.1 → e.2 < x.2) ∧ IncreasingAfter (earlier ++ [x]) rest

/-- Every colour below that of an earlier item in conflict with `a` is taken by another one. -/
def NoGap (earlier : List (α × ℕ)) (a : α) : Prop :=
  ∀ e ∈ earlier, r e.1 a → ∀ m < e.2, ∃ e' ∈ earlier, r e'.1 a ∧ e'.2 = m

section Layers

variable [DecidableRel r]

/-- The layer of `a`: one more than the highest layer among the earlier items it conflicts
with. -/
def layer (earlier : List (α × ℕ)) (a : α) : ℕ :=
  ((earlier.filter fun e => r e.1 a).map fun e => e.2 + 1).foldr max 0

/-- No item, put into its layer, skips a layer of the items it conflicts with. -/
def GapFree : List (α × ℕ) → List α → Prop
  | _, [] => True
  | earlier, a :: rest => NoGap r earlier a ∧ GapFree (earlier ++ [(a, layer r earlier a)]) rest

end Layers

variable {r} {earlier xs : List (α × ℕ)} {a : α} {n : ℕ}

theorem Greedy.proper_after (h : Greedy r earlier xs) :
    (∀ e ∈ earlier, ∀ x ∈ xs, r e.1 x.1 → e.2 ≠ x.2) ∧
      xs.Pairwise fun x y => r x.1 y.1 → x.2 ≠ y.2 := by
  induction xs generalizing earlier with
  | nil => exact ⟨fun e _ x hx => absurd hx not_mem_nil, .nil⟩
  | cons x rest ih =>
    obtain ⟨hfree, hrest⟩ := h
    obtain ⟨hbefore, hpair⟩ := ih hrest
    refine ⟨fun e he y hy hr => ?_, pairwise_cons.mpr ⟨fun y hy => ?_, hpair⟩⟩
    · rcases mem_cons.mp hy with rfl | hy
      · exact hfree.1 e he hr
      · exact hbefore e (mem_append_left _ he) y hy hr
    · exact hbefore x (mem_append_right _ (mem_singleton_self x)) y hy

theorem Greedy.proper (h : Greedy r [] xs) : xs.Pairwise fun x y => r x.1 y.1 → x.2 ≠ y.2 :=
  h.proper_after.2

theorem increasingAfter_iff :
    IncreasingAfter r earlier xs ↔ (∀ e ∈ earlier, ∀ x ∈ xs, r e.1 x.1 → e.2 < x.2) ∧
        xs.Pairwise fun x y => r x.1 y.1 → x.2 < y.2 := by
  induction xs generalizing earlier with
  | nil => simp [IncreasingAfter]
  | cons x rest ih =>
    rw [IncreasingAfter, ih, pairwise_cons]
    constructor
    · rintro ⟨hx, hbefore, hpair⟩
      refine ⟨fun e he y hy => ?_, fun y hy => ?_, hpair⟩
      · rcases mem_cons.mp hy with rfl | hy
        · exact hx e he
        · exact hbefore e (mem_append_left _ he) y hy
      · exact hbefore x (mem_append_right _ (mem_singleton_self x)) y hy
    · rintro ⟨hbefore, hx, hpair⟩
      refine ⟨fun e he => hbefore e he x mem_cons_self, fun e he y hy => ?_, hpair⟩
      rcases mem_append.mp he with he | he
      · exact hbefore e he y (mem_cons_of_mem _ hy)
      · rw [mem_singleton.mp he]
        exact hx y hy

theorem IsFirstFree.above_iff (h : IsFirstFree r earlier a n) :
    (∀ e ∈ earlier, r e.1 a → e.2 < n) ↔ NoGap r earlier a := by
  constructor
  · intro habove e he hr m hm
    exact h.2 m (hm.trans (habove e he hr))
  · intro hgap e he hr
    by_contra hle
    have hne : e.2 ≠ n := h.1 e he hr
    obtain ⟨e', he', hr', hn⟩ := hgap e he hr n (by omega)
    exact h.1 e' he' hr' hn

variable [DecidableRel r]

theorem lt_layer {e : α × ℕ} (he : e ∈ earlier) (hr : r e.1 a) : e.2 < layer r earlier a := by
  refine Nat.lt_of_succ_le (le_max_of_le' 0 ?_ le_rfl)
  exact mem_map.mpr ⟨e, mem_filter.mpr ⟨he, by simpa using hr⟩, rfl⟩

theorem layer_le (h : ∀ e ∈ earlier, r e.1 a → e.2 < n) : layer r earlier a ≤ n := by
  refine max_le_of_forall_le _ n ?_
  intro k hk
  obtain ⟨e, he, rfl⟩ := mem_map.mp hk
  obtain ⟨he, hr⟩ := mem_filter.mp he
  exact h e he (by simpa using hr)

theorem IsFirstFree.eq_layer (h : IsFirstFree r earlier a n)
    (habove : ∀ e ∈ earlier, r e.1 a → e.2 < n) : n = layer r earlier a := by
  refine le_antisymm ?_ (layer_le habove)
  by_contra hlt
  obtain ⟨e, he, hr, hm⟩ := h.2 _ (not_le.mp hlt)
  exact absurd (lt_layer he hr) (by omega)

theorem Greedy.increasingAfter_iff_gapFree (h : Greedy r earlier xs) :
    IncreasingAfter r earlier xs ↔ GapFree r earlier (xs.map Prod.fst) := by
  induction xs generalizing earlier with
  | nil => exact Iff.rfl
  | cons x rest ih =>
    obtain ⟨hfree, hrest⟩ := h
    rw [IncreasingAfter, map_cons, GapFree, hfree.above_iff]
    refine and_congr_right fun hgap => ?_
    -- without a gap so far, first-fit put `x` into its layer, and both sides go on alike
    have hlayer := hfree.eq_layer (hfree.above_iff.mpr hgap)
    rw [← hlayer]
    exact ih hrest

theorem Greedy.increasing_iff (h : Greedy r [] xs) :
    (xs.Pairwise fun x y => r x.1 y.1 → x.2 < y.2) ↔ GapFree r [] (xs.map Prod.fst) := by
  rw [← h.increasingAfter_iff_gapFree, increasingAfter_iff]
  simp

end FirstFit
