import Mathlib.Data.List.Sort

/-!
# Two rankings of one list

A list sorted by a rank, the highest first, and cut off after `n` places. Elements of one rank come
in the order of the list that is sorted.

`take_byRank_eq_iff`: the first `n` places by one rank are those by another, however the list is
ordered to begin with, exactly when every element ranked below one of them is ranked below it by
the first rank as well.
-/

namespace Ranking

open List

variable {α : Type*} {κ γ : Type*} [LinearOrder κ] [LinearOrder γ]

/-- The list by descending rank. -/
def byRank (f : α → κ) (l : List α) : List α := l.insertionSort fun a b => f b ≤ f a

variable {f : α → κ} {g : α → γ} {l l' : List α} {a b : α} {n : Nat}

theorem byRank_perm (f : α → κ) (l : List α) : (byRank f l).Perm l := perm_insertionSort _ l

theorem byRank_pairwise (f : α → κ) (l : List α) : (byRank f l).Pairwise fun a b => f b ≤ f a := by
  have : Std.Total fun a b : α => f b ≤ f a := ⟨fun a b => le_total (f b) (f a)⟩
  have : IsTrans α fun a b => f b ≤ f a := ⟨fun _ _ _ hab hbc => le_trans hbc hab⟩
  exact pairwise_insertionSort _ l

theorem byRank_strict (hnodup : l.Nodup) (hg : ∀ a ∈ l, ∀ b ∈ l, g a = g b → a = b) :
    (byRank g l).Pairwise fun a b => g b < g a := by
  have hperm := byRank_perm g l
  have hdistinct : (byRank g l).Pairwise fun a b => a ≠ b := hperm.nodup_iff.mpr hnodup
  refine ((byRank_pairwise g l).and hdistinct).imp_of_mem ?_
  rintro a b ha hb ⟨hle, hne⟩
  refine lt_of_le_of_ne hle fun heq => hne ?_
  exact hg a (hperm.mem_iff.mp ha) b (hperm.mem_iff.mp hb) heq.symm

theorem take_eq_of_agree (hperm : l'.Perm l) (hl' : l'.Pairwise fun a b => f b ≤ f a)
    (hl : l.Pairwise fun a b => g b < g a)
    (hagree : ∀ b ∈ l.take n, ∀ a ∈ l, g a < g b → f a < f b) : l'.take n = l.take n := by
  induction n generalizing l l' with
  | zero => rfl
  | succ n ih =>
    cases l with
    | nil => rw [hperm.eq_nil]
    | cons b l =>
      cases l' with
      | nil => exact absurd hperm.length_eq (by simp)
      | cons x l' =>
        have hx : x = b := by
          by_contra hne
          have hxl : x ∈ l :=
            (mem_cons.mp (hperm.mem_iff.mp mem_cons_self)).resolve_left hne
          have hbl' : b ∈ l' :=
            (mem_cons.mp (hperm.mem_iff.mpr mem_cons_self)).resolve_left (Ne.symm hne)
          -- `b` is ranked above `x` by `g`, and `x` comes first by `f`
          have hlt := hagree b (by simp) x (mem_cons_of_mem b hxl) (rel_of_pairwise_cons hl hxl)
          exact absurd (rel_of_pairwise_cons hl' hbl') (not_le.mpr hlt)
        subst hx
        rw [take_succ_cons, take_succ_cons]
        congr 1
        refine ih hperm.cons_inv hl'.of_cons hl.of_cons ?_
        intro b hb a ha
        exact hagree b (by rw [take_succ_cons]; exact mem_cons_of_mem x hb) a (mem_cons_of_mem x ha)

/-- Of two elements in order, the second is among the first `n` only together with the first. -/
theorem pair_sublist_take (hnodup : l.Nodup) (hpair : [a, b].Sublist l) (hb : b ∈ l.take n) :
    [a, b].Sublist (l.take n) := by
  rw [← take_append_drop n l] at hpair hnodup
  obtain ⟨l₁, l₂, heq, h₁, h₂⟩ := sublist_append_iff.mp hpair
  rcases eq_nil_or_concat l₂ with rfl | ⟨init, last, rfl⟩
  · rw [append_nil] at heq
    exact heq ▸ h₁
  have hlast : last = b := by
    have := congrArg getLast? heq
    simpa using this.symm
  subst hlast
  have hdrop : last ∈ l.drop n := h₂.subset (by simp)
  exact absurd hdrop (disjoint_of_nodup_append hnodup hb)

/-- **The first `n` by one rank are the first `n` by another**, whatever order ties are found in,
exactly when the ranks agree on who is behind them. -/
theorem take_byRank_eq_iff [DecidableEq α] (hnodup : l.Nodup)
    (hg : ∀ a ∈ l, ∀ b ∈ l, g a = g b → a = b) :
    (∀ l', l'.Perm l → (byRank f l').take n = (byRank g l).take n) ↔
      ∀ b ∈ (byRank g l).take n, ∀ a ∈ l, g a < g b → f a < f b := by
  have hperm := byRank_perm g l
  have hstrict := byRank_strict hnodup hg
  constructor
  · intro htake b hb a ha hlt
    by_contra hle
    -- scan `a` first: it then comes before `b`
    have hbl : b ∈ l := hperm.mem_iff.mp (mem_of_mem_take hb)
    have hne : b ≠ a := by
      rintro rfl
      exact absurd hlt (lt_irrefl _)
    have hscan : (a :: l.erase a).Perm l := (perm_cons_erase ha).symm
    have hpair : [a, b].Sublist (a :: l.erase a) := by
      refine List.Sublist.cons_cons a ?_
      exact singleton_sublist.mpr ((mem_erase_of_ne hne).mpr hbl)
    have htrans : IsTrans α fun a b => f b ≤ f a := ⟨fun _ _ _ hab hbc => le_trans hbc hab⟩
    have hsorted : [a, b].Sublist (byRank f (a :: l.erase a)) :=
      pair_sublist_insertionSort (not_lt.mp hle) hpair
    have htop : [a, b].Sublist ((byRank g l).take n) := by
      rw [← htake _ hscan] at hb ⊢
      exact pair_sublist_take (((byRank_perm f _).trans hscan).nodup_iff.mpr hnodup) hsorted hb
    have hpairwise := (hstrict.sublist (take_sublist n _)).sublist htop
    exact absurd hlt (not_lt.mpr (rel_of_pairwise_cons hpairwise (by simp)).le)
  · intro hagree l' hl'
    refine take_eq_of_agree (((byRank_perm f l').trans hl').trans hperm.symm)
      (byRank_pairwise f l') hstrict ?_
    intro b hb a ha
    exact hagree b hb a (hperm.mem_iff.mp ha)

end Ranking
