import Mathlib.Data.List.Nodup
import Mathlib.Data.List.TakeWhile
import Mathlib.Tactic.Common

/-!
# Walks towards the root of a tree

A tree is given by `parent : α → Option α`.

* `Lineage parent a l`: `l` is `a`, its parent, the parent of that, and so on up to a node that has
  none. A lineage is finite, so no node comes twice in it (`Lineage.nodup`).
* `climb`: the nodes a bounded walk visits that does not go on to a node where it has to stop.
  `Lineage.climb_eq`: these are the lower part of the lineage, `lower`, up to the bound.
-/

namespace AncestorWalk

open List

variable {α β : Type*} {parent : α → Option α} {stop : α → Bool} {a b : α} {l l' : List α}

/-- The node, its parent, and so on up to a node without one. -/
inductive Lineage (parent : α → Option α) : α → List α → Prop where
  | last {a : α} (hnone : parent a = none) : Lineage parent a [a]
  | step {a b : α} {l : List α} (hparent : parent a = some b) (hrest : Lineage parent b l) :
      Lineage parent a (a :: l)

section

variable (h : Lineage parent a l)

include h

theorem Lineage.unique : ∀ {l'}, Lineage parent a l' → l = l' := by
  induction h with
  | last hnone =>
    intro l' h'
    cases h' with
    | last => rfl
    | step hparent => simp [hnone] at hparent
  | step hparent _ ih =>
    intro l' h'
    cases h' with
    | last hnone => simp [hnone] at hparent
    | step hparent' hrest' =>
      rw [hparent] at hparent'
      cases hparent'
      rw [ih hrest']

theorem Lineage.of_mem (hb : b ∈ l) :
    ∃ l', Lineage parent b l' ∧ l'.length ≤ l.length := by
  induction h with
  | last hnone =>
    rw [mem_singleton.mp hb]
    exact ⟨_, .last hnone, le_rfl⟩
  | step hparent hrest ih =>
    rcases mem_cons.mp hb with rfl | hb
    · exact ⟨_, .step hparent hrest, le_rfl⟩
    · rcases ih hb with ⟨l', h', hlen⟩
      exact ⟨l', h', hlen.trans (Nat.le_succ _)⟩

theorem Lineage.head_mem : a ∈ l := by
  cases h <;> exact mem_cons_self

theorem Lineage.nodup : l.Nodup := by
  induction h with
  | last => exact nodup_singleton _
  | @step a b l hparent hrest ih =>
    refine nodup_cons.mpr ⟨?_, ih⟩
    intro hmem
    -- a second lineage of `a`, inside of the first one and so shorter
    rcases hrest.of_mem hmem with ⟨l', h', hlen⟩
    have hsame : a :: l = l' := (Lineage.step hparent hrest).unique h'
    have hlonger : l'.length = l.length + 1 := by rw [← hsame, length_cons]
    omega

/-! ## The bounded walk -/

/-- The nodes visited by a walk of at most `fuel` nodes that does not enter a node it has to stop
at. It looks at the node it starts from in any case. -/
def climb (parent : α → Option α) (stop : α → Bool) : Nat → α → List α
  | 0, _ => []
  | fuel + 1, a =>
    a :: match parent a with
      | none => []
      | some b => if stop b then [] else climb parent stop fuel b

/-- The part of a lineage below the first node to stop at; its own first node is part of it. -/
def lower (stop : α → Bool) : List α → List α
  | [] => []
  | a :: l => a :: l.takeWhile fun b => !stop b

omit h in
theorem lower_isPrefix : lower stop l <+: l := by
  cases l with
  | nil => exact prefix_rfl
  | cons a l =>
    rw [lower, prefix_cons_inj]
    exact takeWhile_prefix _

theorem Lineage.climb_eq (stop : α → Bool) (fuel : Nat) :
    climb parent stop fuel a = (lower stop l).take fuel := by
  induction h generalizing fuel with
  | last hnone =>
    cases fuel with
    | zero => rfl
    | succ fuel => simp [climb, hnone, lower]
  | @step a b l hparent hrest ih =>
    cases fuel with
    | zero => rfl
    | succ fuel =>
      cases hrest with
      | last | @step _ c l' _ _ =>
        by_cases hb : stop b = true
        · simp [climb, hparent, hb, lower]
        · simp [climb, hparent, hb, lower, ih]

theorem Lineage.climb_eq_lower (stop : α → Bool) {fuel : Nat}
    (hfuel : l.length ≤ fuel) : climb parent stop fuel a = lower stop l := by
  rw [h.climb_eq, take_of_length_le ((lower_isPrefix (l := l)).length_le.trans hfuel)]

end

/-! ## What is found first -/

theorem findSome?_iff_of_isPrefix (f : α → Option β) (h : l' <+: l) :
    l'.findSome? f = l.findSome? f ↔ ((∃ b ∈ l, (f b).isSome) → ∃ b ∈ l', (f b).isSome) := by
  have hany : ∀ l : List α, (∃ b ∈ l, (f b).isSome) ↔ (l.findSome? f).isSome := by
    intro l
    rw [isSome_findSome?, any_eq_true]
  rcases h with ⟨rest, rfl⟩
  rw [hany, hany, findSome?_append]
  cases l'.findSome? f with
  | some c => simp
  | none =>
    cases rest.findSome? f with
    | some c => simp
    | none => simp

theorem find?_iff_of_isPrefix (p : α → Bool) (h : l' <+: l) :
    l'.find? p = l.find? p ↔ ((∃ b ∈ l, p b) → ∃ b ∈ l', p b) := by
  simp only [find?_eq_findSome?_guard]
  rw [findSome?_iff_of_isPrefix _ h]
  simp only [Option.isSome_guard]

/-- Where a function has a value exactly at the nodes that are looked for, its first value is the
one at the first of them. -/
theorem findSome?_eq_bind_find? {f : α → Option β} {p : α → Bool}
    (h : ∀ a, (f a).isSome = p a) (l : List α) : l.findSome? f = (l.find? p).bind f := by
  induction l with
  | nil => rfl
  | cons a l ih =>
    rw [findSome?_cons, find?_cons, ← h a]
    cases hf : f a with
    | some c => simp [hf]
    | none => simpa [hf] using ih

end AncestorWalk
