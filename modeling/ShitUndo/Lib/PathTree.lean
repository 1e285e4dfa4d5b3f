import Mathlib.Data.List.Infix
import Mathlib.Data.List.Lookmap
import Mathlib.Logic.Function.Basic

/-!
# Trees keyed by paths

A tree is a partial map from paths (lists of components) to values. This file has the two
operations that move or remove whole subtrees, `move` and `cut`, the law that a move onto an
empty place is undone by the opposite move, and the closure property `Rooted`: whatever exists
below a path makes that path an inner node.

The second half is a finite representation, `Entries`, an association list whose lookups
compute these operations, so that trees can be run as well as reasoned about.

Nothing here depends on what components or values are.
-/

namespace PathTree

open List Function

variable {κ β γ : Type*}

/-- A tree: the value at each path that exists. -/
abbrev Tree (κ β : Type*) := List κ → Option β

section Ops

variable [DecidableEq κ] {T : Tree κ β} {src dst q : List κ}

/-- Remove `p` and everything below it. -/
def cut (p : List κ) (T : Tree κ β) : Tree κ β :=
  fun q => if p <+: q then none else T q

/-- Move the subtree at `src` to `dst`, dropping whatever was at `dst`. -/
def move (src dst : List κ) (T : Tree κ β) : Tree κ β :=
  fun q =>
    if dst <+: q then T (src ++ q.drop dst.length)
    else if src <+: q then none
    else T q

theorem cut_eq_update {p : List κ} (hbelow : ∀ q, p <+: q → q ≠ p → T q = none) :
    cut p T = update T p none := by
  funext q
  by_cases hq : q = p
  · subst hq
    simp [cut]
  · rw [update_of_ne hq]
    by_cases hpq : p <+: q
    · simp [cut, hpq, hbelow q hpq hq]
    · simp [cut, hpq]

/-! ## Moving -/

theorem move_append (src dst r : List κ) (T : Tree κ β) :
    move src dst T (dst ++ r) = T (src ++ r) := by
  simp [move]

theorem move_of_outside (T : Tree κ β) (hd : ¬ dst <+: q) (hs : ¬ src <+: q) :
    move src dst T q = T q := by
  simp [move, hd, hs]

theorem move_src (T : Tree κ β) (hd : ¬ dst <+: q) (hs : src <+: q) : move src dst T q = none := by
  simp [move, hd, hs]

/-- **A move onto an empty place is undone by the opposite move.** -/
theorem move_move (hempty : ∀ q, dst <+: q → T q = none) : move dst src (move src dst T) = T := by
  funext q
  by_cases hs : src <+: q
  · obtain ⟨r, rfl⟩ := hs
    rw [move_append, move_append]
  · by_cases hd : dst <+: q
    · rw [move_src _ hs hd, hempty q hd]
    · rw [move_of_outside _ hs hd, move_of_outside _ hd hs]

theorem exists_of_move {v : β} (hq : move src dst T q = some v) : ∃ q', T q' = some v := by
  unfold move at hq
  split_ifs at hq with hd hs
  · exact ⟨_, hq⟩
  · exact ⟨_, hq⟩

theorem move_injective (hT : ∀ p q v, T p = some v → T q = some v → p = q) (p q : List κ) (v : β)
    (hp : move src dst T p = some v) (hq : move src dst T q = some v) : p = q := by
  -- a value inside the moved subtree was below `src`, one outside was not
  have houtside : ∀ r q', ¬ dst <+: q' → move src dst T q' = some v → T (src ++ r) ≠ some v := by
    intro r q' hd hq' hr
    by_cases hs : src <+: q'
    · rw [move_src T hd hs] at hq'
      cases hq'
    · rw [move_of_outside T hd hs] at hq'
      exact hs (hT _ _ v hr hq' ▸ prefix_append src r)
  by_cases hdp : dst <+: p <;> by_cases hdq : dst <+: q
  · obtain ⟨r, rfl⟩ := hdp
    obtain ⟨t, rfl⟩ := hdq
    rw [move_append] at hp hq
    rw [append_cancel_left (hT _ _ v hp hq)]
  · obtain ⟨r, rfl⟩ := hdp
    rw [move_append] at hp
    exact absurd hp (houtside r q hdq hq)
  · obtain ⟨t, rfl⟩ := hdq
    rw [move_append] at hq
    exact absurd hq (houtside t p hdp hp)
  · by_cases hsp : src <+: p
    · rw [move_src T hdp hsp] at hp
      cases hp
    by_cases hsq : src <+: q
    · rw [move_src T hdq hsq] at hq
      cases hq
    · rw [move_of_outside T hdp hsp] at hp
      rw [move_of_outside T hdq hsq] at hq
      exact hT p q v hp hq

theorem map_move (f : β → γ) (src dst : List κ) (T : Tree κ β) (q : List κ) :
    (move src dst T q).map f = move src dst (fun p => (T p).map f) q := by
  simp only [move]
  split_ifs <;> rfl

end Ops

/-! ## Rooted trees -/

/-- Whatever exists below a nonempty path makes that path exist as an inner node. -/
def Rooted (isDir : β → Prop) (T : Tree κ β) : Prop :=
  ∀ p a v, p ≠ [] → T (p ++ [a]) = some v → ∃ d, T p = some d ∧ isDir d

section Rooted

variable {isDir : β → Prop} {T : Tree κ β} {p q : List κ} {v : β}

theorem Rooted.dir_of_below (h : Rooted isDir T) (hp : p ≠ []) {r : List κ} (hr : r ≠ [])
    (hv : T (p ++ r) = some v) : ∃ d, T p = some d ∧ isDir d := by
  induction r using reverseRecOn generalizing v with
  | nil => exact absurd rfl hr
  | append_singleton r a ih =>
    rw [← append_assoc] at hv
    obtain ⟨d, hd, hdir⟩ := h (p ++ r) a v (by simp [hp]) hv
    by_cases hnil : r = []
    · subst hnil
      rw [append_nil] at hd
      exact ⟨d, hd, hdir⟩
    · exact ih hnil hd

theorem Rooted.none_below (h : Rooted isDir T) (hp : p ≠ []) (hnone : T p = none)
    (hpq : p <+: q) : T q = none := by
  obtain ⟨r, rfl⟩ := hpq
  by_cases hr : r = []
  · subst hr
    rwa [append_nil]
  cases hv : T (p ++ r) with
  | none => rfl
  | some v =>
    obtain ⟨d, hd, -⟩ := h.dir_of_below hp hr hv
    rw [hnone] at hd
    cases hd

theorem Rooted.none_below_leaf (h : Rooted isDir T) (hp : p ≠ []) (hv : T p = some v)
    (hleaf : ¬ isDir v) (hpq : p <+: q) (hne : q ≠ p) : T q = none := by
  obtain ⟨r, rfl⟩ := hpq
  have hr : r ≠ [] := by
    rintro rfl
    exact hne (append_nil p)
  cases hw : T (p ++ r) with
  | none => rfl
  | some w =>
    obtain ⟨d, hd, hdir⟩ := h.dir_of_below hp hr hw
    rw [hv] at hd
    cases hd
    exact absurd hdir hleaf

variable [DecidableEq κ]

variable (h : Rooted isDir T)

include h

theorem Rooted.erase (hbelow : ∀ q, p <+: q → q ≠ p → T q = none) :
    Rooted isDir (update T p none) := by
  intro q a v hq hv
  by_cases hqa : q ++ [a] = p
  · rw [hqa, update_self] at hv
    cases hv
  rw [update_of_ne hqa] at hv
  have hqp : q ≠ p := by
    rintro rfl
    rw [hbelow (q ++ [a]) (prefix_append q [a]) hqa] at hv
    cases hv
  rw [update_of_ne hqp]
  exact h q a v hq hv

/-- Setting a value keeps the tree rooted if the parent is an inner node and inner nodes stay
inner nodes. -/
theorem Rooted.put (hparent : ∀ q a, q ≠ [] → p = q ++ [a] → ∃ d, T q = some d ∧ isDir d)
    (hkeep : ∀ d, T p = some d → isDir d → isDir v) :
    Rooted isDir (update T p (some v)) := by
  have hlift : ∀ q, (∃ d, T q = some d ∧ isDir d) →
      ∃ d, update T p (some v) q = some d ∧ isDir d := by
    rintro q ⟨d, hd, hdir⟩
    by_cases hqp : q = p
    · subst hqp
      exact ⟨v, update_self .., hkeep d hd hdir⟩
    · exact ⟨d, by rw [update_of_ne hqp, hd], hdir⟩
  intro q a w hq hw
  by_cases hqa : q ++ [a] = p
  · exact hlift q (hparent q a hq hqa.symm)
  · rw [update_of_ne hqa] at hw
    exact hlift q (h q a w hq hw)

theorem Rooted.move {src dst : List κ} (hsrc : src ≠ []) (hout : ¬ src <+: dst)
    (hparent : ∀ q a, q ≠ [] → dst = q ++ [a] → ∃ d, T q = some d ∧ isDir d) :
    Rooted isDir (move src dst T) := by
  intro q a v hq hv
  by_cases hd : dst <+: q ++ [a]
  · rcases prefix_concat_iff.mp hd with heq | hdq
    · -- `q` is the parent of `dst`, which the move does not touch
      obtain ⟨d, hd', hdir⟩ := hparent q a hq heq
      have hndq : ¬ dst <+: q := by
        intro hle
        have hlen := hle.length_le
        rw [heq, length_append, length_singleton] at hlen
        omega
      have hnsq : ¬ src <+: q := by
        intro hle
        exact hout (heq ▸ hle.trans (prefix_append q [a]))
      exact ⟨d, by rw [move_of_outside T hndq hnsq, hd'], hdir⟩
    · -- inside the moved subtree the parent moved along
      obtain ⟨r, rfl⟩ := hdq
      rw [append_assoc, move_append, ← append_assoc] at hv
      obtain ⟨d, hd', hdir⟩ := h (src ++ r) a v (by simp [hsrc]) hv
      exact ⟨d, by rw [move_append, hd'], hdir⟩
  · by_cases hs : src <+: q ++ [a]
    · rw [move_src T hd hs] at hv
      cases hv
    rw [move_of_outside T hd hs] at hv
    obtain ⟨d, hd', hdir⟩ := h q a v hq hv
    have hndq : ¬ dst <+: q := fun hle => hd (hle.trans (prefix_append q [a]))
    have hnsq : ¬ src <+: q := fun hle => hs (hle.trans (prefix_append q [a]))
    exact ⟨d, by rw [move_of_outside T hndq hnsq, hd'], hdir⟩

end Rooted

/-! ## Finite trees -/

/-- A finite tree as an association list; the first entry of a path counts. -/
abbrev Entries (κ β : Type*) := List (List κ × β)

namespace Entries

variable [DecidableEq κ] {f : List κ → List κ} {l : Entries κ β}

/-- The value at a path. -/
def get (l : Entries κ β) : Tree κ β := fun p => l.lookup p

/-- Keep the entries whose path passes `f`. -/
def keep (f : List κ → Bool) (l : Entries κ β) : Entries κ β := l.filter (fun e => f e.1)

/-- Remove the entry at `p`. -/
def erase (p : List κ) (l : Entries κ β) : Entries κ β := l.keep (fun q => q ≠ p)

/-- Set the entry at `p`. -/
def put (p : List κ) (v : β) (l : Entries κ β) : Entries κ β := (p, v) :: l.erase p

/-- The path an entry has after the subtree at `src` moved to `dst`. -/
def relocate (src dst p : List κ) : List κ :=
  if src <+: p then dst ++ p.drop src.length else p

/-- Move the subtree at `src` to `dst`. -/
def move (src dst : List κ) (l : Entries κ β) : Entries κ β :=
  (l.keep (fun q => ¬ dst <+: q)).map (fun e => (relocate src dst e.1, e.2))

/-- Something exists strictly below `p`. -/
def hasBelow (p : List κ) (l : Entries κ β) : Bool :=
  l.any (fun e => decide (p <+: e.1 ∧ e.1 ≠ p))

theorem get_keep (f : List κ → Bool) (l : Entries κ β) (q : List κ) :
    (l.keep f).get q = if f q then l.get q else none := by
  induction l with
  | nil => simp [keep, get]
  | cons e rest ih =>
    obtain ⟨k, v⟩ := e
    simp only [keep, get] at ih
    by_cases hk : f k
    · by_cases hqk : q = k
      · subst hqk
        simp [keep, get, hk]
      · have hb : (q == k) = false := by simp [hqk]
        simp only [keep, get, filter_cons, hk, if_true, lookup_cons, hb]
        exact ih
    · by_cases hqk : q = k
      · subst hqk
        simp only [keep, get, filter_cons, hk]
        rw [if_neg Bool.false_ne_true, ih]
        simp [hk]
      · have hb : (q == k) = false := by simp [hqk]
        simp only [keep, get, filter_cons, hk, lookup_cons, hb]
        exact ih

theorem get_erase (p : List κ) (l : Entries κ β) :
    (l.erase p).get = update l.get p none := by
  funext q
  rw [erase, get_keep]
  by_cases h : q = p
  · subst h; simp
  · simp [h, update_of_ne]

theorem get_put (p : List κ) (v : β) (l : Entries κ β) :
    (l.put p v).get = update l.get p (some v) := by
  funext q
  by_cases h : q = p
  · subst h; simp [put, get]
  · have hb : (q == p) = false := by simp [h]
    have : (l.put p v).get q = (l.erase p).get q := by
      simp only [put, get, lookup_cons, hb]
    rw [this, get_erase, update_of_ne h, update_of_ne h]

theorem get_map_key {q k : List κ} (h : ∀ e ∈ l, f e.1 = q ↔ e.1 = k) :
    get (l.map (fun e => (f e.1, e.2))) q = l.get k := by
  induction l with
  | nil => rfl
  | cons e rest ih =>
    obtain ⟨k', v⟩ := e
    have hhead := h (k', v) mem_cons_self
    have hrest := ih (fun e he => h e (mem_cons_of_mem _ he))
    simp only [get] at hrest
    by_cases hk : k' = k
    · have hq : q = f k' := (hhead.mpr hk).symm
      subst hk
      simp [get, hq]
    have hq : q ≠ f k' := fun hq => hk (hhead.mp hq.symm)
    have hb : (q == f k') = false := by simp [hq]
    have hb' : (k == k') = false := by simp [Ne.symm hk]
    simp only [get, map_cons, lookup_cons, hb, hb']
    exact hrest

theorem get_map_key_none {q : List κ} (h : ∀ e ∈ l, f e.1 ≠ q) :
    get (l.map (fun e => (f e.1, e.2))) q = none := by
  rw [get, lookup_eq_none_iff]
  intro e he
  obtain ⟨e', he', rfl⟩ := mem_map.mp he
  simpa using Ne.symm (h e' he')

omit [DecidableEq κ] in
theorem mem_keep {f : List κ → Bool} {e : List κ × β} : e ∈ l.keep f ↔ e ∈ l ∧ f e.1 = true := by
  simp [keep]

theorem get_move {src dst : List κ} (hsd : ¬ src <+: dst) (hds : ¬ dst <+: src)
    (l : Entries κ β) : (l.move src dst).get = PathTree.move src dst l.get := by
  have houtside : ∀ r, ¬ dst <+: src ++ r := by
    intro r hle
    rcases prefix_or_prefix_of_prefix hle (prefix_append src r) with h | h
    · exact hds h
    · exact hsd h
  funext q
  by_cases hd : dst <+: q
  · obtain ⟨r, rfl⟩ := hd
    rw [move_append, move, get_map_key (k := src ++ r), get_keep]
    · simp [houtside r]
    · rintro ⟨k, v⟩ he
      have hk : ¬ dst <+: k := by simpa using (mem_keep.mp he).2
      simp only [relocate]
      split_ifs with hs
      · obtain ⟨r', rfl⟩ := hs
        simp
      constructor
      · rintro rfl
        exact absurd (prefix_append dst r) hk
      · rintro rfl
        exact absurd (prefix_append src r) hs
  · by_cases hs : src <+: q
    · rw [move_src _ hd hs, move]
      refine get_map_key_none ?_
      rintro ⟨k, v⟩ - heq
      simp only [relocate] at heq
      split_ifs at heq with hsk
      · exact hd (heq ▸ prefix_append dst _)
      · exact hsk (heq ▸ hs)
    · rw [move_of_outside _ hd hs, move, get_map_key (k := q), get_keep]
      · simp [hd]
      · rintro ⟨k, v⟩ -
        simp only [relocate]
        split_ifs with hsk
        · constructor
          · intro heq
            exact absurd (heq ▸ prefix_append dst _) hd
          · rintro rfl
            exact absurd hsk hs
        · rfl

theorem hasBelow_eq_false_iff {p : List κ} :
    l.hasBelow p = false ↔ ∀ q, p <+: q → q ≠ p → l.get q = none := by
  simp only [hasBelow, any_eq_false, decide_eq_true_eq, not_and, not_not]
  constructor
  · intro h q hpq hne
    rw [get, lookup_eq_none_iff]
    intro e he
    simp only [bne_iff_ne, ne_eq]
    rintro rfl
    exact hne (h e he hpq)
  · intro h e he hpe
    by_contra hne
    have hnone := h e.1 hpe hne
    rw [get, lookup_eq_none_iff] at hnone
    simpa using hnone e he

end Entries

end PathTree
