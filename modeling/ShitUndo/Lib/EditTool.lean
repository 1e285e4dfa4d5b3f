import Mathlib.Data.Finset.Basic
import Mathlib.Data.Fintype.Basic
import Mathlib.Data.List.Forall2
import Mathlib.Order.Preorder.Finite
import ShitUndo.Lib.KeyedDiff

/-!
# Undoing a difference with a tool

The changes of `KeyedDiff` are made by a tool of which little is known. It is given commands that
describe rows, may refuse any of them, and what a command leaves open is up to the tool: `r ≤ x`
says that the row `x` has everything that `r` says.

* `Documented`: what is known of the tool;
* `Literal`: every command is accepted and changes the table by just the row it describes;
* `restores_iff`: the commands lead back to the earlier table exactly if rows with the same key were
  the same and the tool is `Literal` on the way.
-/

namespace KeyedDiff

open List

variable {ρ κ α σ : Type*} [DecidableEq κ] [DecidableEq ρ] [PartialOrder ρ]

omit [DecidableEq ρ] in
/-- **Rows that only grow, and are among the rows there were, have not grown.** -/
theorem eq_of_forall₂_le {l l' : List ρ} (hle : Forall₂ (· ≤ ·) l l') (hnodup : l'.Nodup)
    (hsub : l' ⊆ l) : l = l' := by
  classical
  have hlen := hle.length_eq
  by_contra hne
  -- of the rows that have grown, take one that none of the others extends
  let grown := Finset.univ.filter fun i : Fin l.length => l.get i ≠ l'.get (i.cast hlen)
  have hsome : grown.Nonempty := by
    by_contra hnone
    refine hne (ext_get hlen ?_)
    intro i hi hi'
    by_contra hgrown
    exact hnone ⟨⟨i, hi⟩, by simpa [grown] using hgrown⟩
  obtain ⟨i, hi, hmax⟩ := grown.exists_maximalFor l.get hsome
  replace hi : l.get i ≠ l'.get (i.cast hlen) := by simpa [grown] using hi
  have hgrow : l.get i ≤ l'.get (i.cast hlen) := (forall₂_iff_get.mp hle).2 i i.2 _
  obtain ⟨j, hj⟩ := mem_iff_get.mp (hsub (get_mem l' (i.cast hlen)))
  by_cases hsame : l.get j = l'.get (j.cast hlen)
  · -- what it has grown into is still there, and there only once
    have hindex : j.cast hlen = i.cast hlen := hnodup.get_inj_iff.mp (hsame.symm.trans hj)
    rw [← Fin.cast_injective hlen hindex] at hi
    exact hi hsame
  · have hback := hmax (show j ∈ grown by simpa [grown] using hsame) (hj ▸ hgrow)
    exact hi (le_antisymm hgrow (hj ▸ hback))

/-! ## The tool -/

/-- What a change makes of the rows. -/
def Edit.effect (rows : Finset ρ) : Edit ρ → Finset ρ
  | .del r => rows.erase r
  | .add r => insert r rows

section Tool

variable (read : α → Option (Edit ρ)) (run : α → σ → Option σ) (rows : σ → Finset ρ)

/-- A command that is not refused does something like what it says: `add` puts in one row that has
what is given, and takes none away; `del` takes away a row that has what is given, perhaps with
others, and puts in none. -/
structure Documented : Prop where
  add : ∀ {c r s s'}, read c = some (.add r) → run c s = some s' →
    ∃ x, r ≤ x ∧ rows s' = insert x (rows s)
  del : ∀ {c r s s'}, read c = some (.del r) → run c s = some s' →
    rows s' ⊆ rows s ∧ ∃ x ∈ rows s, r ≤ x ∧ x ∉ rows s'

/-- Every command is accepted in the state before it and changes just the row it describes. -/
def Literal : List α → σ → Prop
  | [], _ => True
  | c :: rest, s => ∃ e ∈ read c, ∃ s' ∈ run c s, rows s' = e.effect (rows s) ∧ Literal rest s'

instance Literal.decidable : (commands : List α) → (s : σ) →
    Decidable (Literal read run rows commands s)
  | [], _ => .isTrue trivial
  | c :: rest, s =>
    have : ∀ s', Decidable (Literal read run rows rest s') := Literal.decidable rest
    inferInstanceAs (Decidable (∃ e ∈ read c, ∃ s' ∈ run c s, _ ∧ Literal read run rows rest s'))

/-- Commands one after the other, up to the first that is refused. -/
def runAll (commands : List α) (s : σ) : Option σ := commands.foldlM (fun s c => run c s) s

end Tool

variable {read : α → Option (Edit ρ)} {run : α → σ → Option σ} {rows : σ → Finset ρ}
  {key : ρ → κ} {before after gone new : List ρ} {commands commands' : List α}
  {edits : List (Edit ρ)} {s t : σ}

omit [DecidableEq κ] [PartialOrder ρ] [DecidableEq ρ] in
theorem runAll_cons {c : α} : runAll run (c :: commands) s = (run c s).bind (runAll run commands) :=
  foldlM_cons

omit [DecidableEq κ] [PartialOrder ρ] [DecidableEq ρ] in
theorem runAll_append :
    runAll run (commands ++ commands') s = (runAll run commands s).bind (runAll run commands') :=
  foldlM_append

omit [DecidableEq κ] [PartialOrder ρ] in
theorem literal_append :
    Literal read run rows (commands ++ commands') s ↔
      Literal read run rows commands s ∧
        ∃ t ∈ runAll run commands s, Literal read run rows commands' t := by
  induction commands generalizing s with
  | nil => simp [Literal, runAll]
  | cons c rest ih =>
    rw [runAll_cons]
    constructor
    · rintro ⟨e, he, s', hs, hrows, hrest⟩
      obtain ⟨hliteral, t, ht, hend⟩ := ih.mp hrest
      refine ⟨⟨e, he, s', hs, hrows, hliteral⟩, t, ?_, hend⟩
      rw [hs]
      exact ht
    · rintro ⟨⟨e, he, s', hs, hrows, hliteral⟩, t, ht, hend⟩
      rw [hs] at ht
      exact ⟨e, he, s', hs, hrows, ih.mpr ⟨hliteral, t, ht, hend⟩⟩

omit [DecidableEq κ] [PartialOrder ρ] in
/-- A tool that is `Literal` gets to the end. -/
theorem Literal.runAll (hread : commands.map read = edits.map some)
    (h : Literal read run rows commands s) :
    ∃ t, runAll run commands s = some t ∧ rows t = edits.foldl Edit.effect (rows s) := by
  induction commands generalizing edits s with
  | nil =>
    rw [map_nil, eq_comm, map_eq_nil_iff] at hread
    exact ⟨s, rfl, by rw [hread, foldl_nil]⟩
  | cons c rest ih =>
    cases edits with
    | nil => cases hread
    | cons e edits =>
      rw [map_cons, map_cons, cons.injEq] at hread
      obtain ⟨e', he, s', hs, hrows, hrest⟩ := h
      rw [Option.mem_def, hread.1, Option.some.injEq] at he
      obtain ⟨t, ht, hrows'⟩ := ih hread.2 hrest
      refine ⟨t, ?_, ?_⟩
      · rw [runAll_cons, hs]
        exact ht
      · rw [hrows', hrows, foldl_cons, he]

omit [DecidableEq κ] [PartialOrder ρ] in
theorem mem_effects {x : ρ} (S : Finset ρ) :
    x ∈ (gone.map Edit.del ++ new.map Edit.add).foldl Edit.effect S ↔
      x ∈ new ∨ (x ∈ S ∧ x ∉ gone) := by
  have hnew : ∀ S : Finset ρ, x ∈ (new.map Edit.add).foldl Edit.effect S ↔ x ∈ new ∨ x ∈ S := by
    induction new with
    | nil => simp
    | cons r rest ih =>
      intro S
      rw [map_cons, foldl_cons, ih, Edit.effect, Finset.mem_insert, mem_cons]
      tauto
  rw [foldl_append, hnew]
  refine or_congr_right ?_
  induction gone generalizing S with
  | nil => simp
  | cons r rest ih =>
    rw [map_cons, foldl_cons, ih, Edit.effect, Finset.mem_erase, mem_cons]
    tauto

omit [DecidableEq κ] in
/-- The first half of a way back: `xs` are the rows that the commands took away, each in its turn.
If they are the ones described, and no others are gone, the tool was `Literal`. -/
theorem dels (hdoc : Documented read run rows) (hread : commands.map read = gone.map (some ∘ .del))
    (hrun : runAll run commands s = some t) :
    rows t ⊆ rows s ∧ ∃ xs, Forall₂ (· ≤ ·) gone xs ∧ xs.Nodup ∧
      (∀ x ∈ xs, x ∈ rows s ∧ x ∉ rows t) ∧
      (xs = gone → (∀ x ∈ rows s, x ∉ rows t → x ∈ gone) → Literal read run rows commands s) := by
  induction commands generalizing gone s with
  | nil =>
    rw [map_nil, eq_comm, map_eq_nil_iff] at hread
    cases hrun
    exact ⟨fun _ hx => hx, [], by simp [hread], nodup_nil, by simp, fun _ _ => trivial⟩
  | cons c rest ih =>
    cases gone with
    | nil => cases hread
    | cons r gone =>
      rw [map_cons, map_cons, cons.injEq] at hread
      rw [runAll_cons] at hrun
      obtain ⟨s', hs, hrun⟩ := Option.bind_eq_some_iff.mp hrun
      obtain ⟨hshrink, x, hx, hle, hgone⟩ := hdoc.del hread.1 hs
      obtain ⟨hsub, xs, hall, hnodup, htaken, hliteral⟩ := ih hread.2 hrun
      refine ⟨fun y hy => hshrink (hsub hy), x :: xs, .cons hle hall, ?_, ?_, ?_⟩
      · exact nodup_cons.mpr ⟨fun hmem => hgone (htaken x hmem).1, hnodup⟩
      · intro y hy
        rcases mem_cons.mp hy with rfl | hy
        · exact ⟨hx, fun hmem => hgone (hsub hmem)⟩
        · exact ⟨hshrink (htaken y hy).1, (htaken y hy).2⟩
      · intro heq honly
        obtain ⟨rfl, rfl⟩ := cons.inj heq
        refine ⟨_, hread.1, s', hs, ?_, hliteral rfl ?_⟩
        · ext y
          rw [Edit.effect, Finset.mem_erase]
          constructor
          · intro hy
            exact ⟨fun hyx => hgone (hyx ▸ hy), hshrink hy⟩
          · rintro ⟨hne, hy⟩
            by_contra hnot
            -- it is gone too early: its own turn is still to come
            have hmem := honly y hy fun hmem => hnot (hsub hmem)
            rcases mem_cons.mp hmem with rfl | hmem
            · exact hne rfl
            · exact hnot (htaken y hmem).1
        · intro y hy hnot
          rcases mem_cons.mp (honly y (hshrink hy) hnot) with rfl | hmem
          · exact absurd hy hgone
          · exact hmem

omit [DecidableEq κ] in
/-- The second half: `ys` are the rows that the commands put in. -/
theorem adds (hdoc : Documented read run rows) (hread : commands.map read = new.map (some ∘ .add))
    (hrun : runAll run commands s = some t) :
    ∃ ys, Forall₂ (· ≤ ·) new ys ∧ (∀ x, x ∈ rows t ↔ x ∈ ys ∨ x ∈ rows s) ∧
      (ys = new → Literal read run rows commands s) := by
  induction commands generalizing new s with
  | nil =>
    rw [map_nil, eq_comm, map_eq_nil_iff] at hread
    cases hrun
    exact ⟨[], by simp [hread], by simp, fun _ => trivial⟩
  | cons c rest ih =>
    cases new with
    | nil => cases hread
    | cons r new =>
      rw [map_cons, map_cons, cons.injEq] at hread
      rw [runAll_cons] at hrun
      obtain ⟨s', hs, hrun⟩ := Option.bind_eq_some_iff.mp hrun
      obtain ⟨x, hle, hrows⟩ := hdoc.add hread.1 hs
      obtain ⟨ys, hall, hmem, hliteral⟩ := ih hread.2 hrun
      refine ⟨x :: ys, .cons hle hall, ?_, ?_⟩
      · intro y
        rw [hmem, hrows, Finset.mem_insert, mem_cons]
        tauto
      · intro heq
        obtain ⟨rfl, rfl⟩ := cons.inj heq
        exact ⟨_, hread.1, s', hs, hrows, hliteral rfl⟩

/-- **Going by keys with a tool**: the earlier table comes back if and only if rows with the same
key were the same and every command changes just the row it describes. -/
theorem restores_iff (hdoc : Documented read run rows)
    (hread : commands.map read = edits.map some) (hedits : IsInverse key before after edits)
    (hbefore : (before.map key).Nodup) (hafter : (after.map key).Nodup)
    (hs : rows s = after.toFinset) :
    (∃ t, runAll run commands s = some t ∧ rows t = before.toFinset) ↔
      (∀ x ∈ before, ∀ y ∈ after, key x = key y → x = y) ∧
        Literal read run rows commands s := by
  obtain ⟨gone, new, rfl, hgone, hnew⟩ := hedits
  have hgone' : ∀ x, x ∈ gone ↔ x ∈ after ∧ ∀ q ∈ before, key q ≠ key x :=
    fun x => hgone.mem_iff.trans mem_missing
  have hnew' : ∀ x, x ∈ new ↔ x ∈ before ∧ ∀ q ∈ after, key q ≠ key x :=
    fun x => hnew.mem_iff.trans mem_missing
  constructor
  · rintro ⟨t, hrun, ht⟩
    rw [map_append, List.map_map, List.map_map] at hread
    obtain ⟨commands₁, commands₂, rfl, hread₁, hread₂⟩ := map_eq_append_iff.mp hread
    rw [runAll_append] at hrun
    obtain ⟨m, hrun₁, hrun₂⟩ := Option.bind_eq_some_iff.mp hrun
    obtain ⟨hsub, xs, hgrow, hxs, htaken, hliteral₁⟩ := dels hdoc hread₁ hrun₁
    obtain ⟨ys, hgrow', hmem, hliteral₂⟩ := adds hdoc hread₂ hrun₂
    simp only [hs, ht, Finset.subset_iff, mem_toFinset] at hsub htaken hmem hliteral₁
    -- the rows put in are all there is room for
    have hys : ys.Perm new := by
      have hsubset : new ⊆ ys := by
        intro x hx
        obtain ⟨hx, hnone⟩ := (hnew' x).mp hx
        rcases (hmem x).mp hx with hy | hm
        · exact hy
        · exact absurd rfl (hnone x (hsub hm))
      have hnodup : new.Nodup := hnew.nodup_iff.mpr ((hbefore.of_map key).filter _)
      exact ((subperm_of_subset hnodup hsubset).perm_of_length_le hgrow'.length_eq.ge).symm
    have hsame : new = ys := eq_of_forall₂_le hgrow'
      (hys.nodup_iff.mpr (hnew.nodup_iff.mpr ((hbefore.of_map key).filter _))) hys.subset
    have hagree : ∀ x ∈ before, ∀ y ∈ after, key x = key y → x = y := by
      intro x hx y hy hkey
      rcases (hmem x).mp hx with hadded | hm
      · exact absurd hkey.symm (((hnew' x).mp (hsame ▸ hadded)).2 y hy)
      · exact inj_on_of_nodup_map hafter (hsub hm) hy hkey
    have hlost : ∀ x ∈ after, x ∉ rows m → x ∈ gone := by
      intro x hx hnot
      refine (hgone' x).mpr ⟨hx, fun q hq hkey => ?_⟩
      rw [hagree q hq x hx hkey] at hq
      rcases (hmem x).mp hq with hadded | hm
      · exact ((hnew' x).mp (hsame ▸ hadded)).2 x hx rfl
      · exact hnot hm
    have hown : gone = xs := eq_of_forall₂_le hgrow hxs fun x hx =>
      hlost x (htaken x hx).1 (htaken x hx).2
    exact ⟨hagree, literal_append.mpr
      ⟨hliteral₁ hown.symm hlost, m, hrun₁, hliteral₂ hsame.symm⟩⟩
  · rintro ⟨hagree, hliteral⟩
    obtain ⟨t, hrun, hrows⟩ := hliteral.runAll hread
    refine ⟨t, hrun, ?_⟩
    ext x
    rw [hrows, mem_effects, hs, mem_toFinset, mem_toFinset, hgone', hnew']
    constructor
    · rintro (hx | ⟨hx, hnot⟩)
      · exact hx.1
      · by_contra hother
        refine hnot ⟨hx, fun q hq hkey => ?_⟩
        rw [hagree q hq x hx hkey] at hq
        exact hother hq
    · intro hx
      by_cases hshared : ∃ q ∈ after, key q = key x
      · obtain ⟨q, hq, hkey⟩ := hshared
        rw [← hagree x hx q hq hkey.symm] at hq
        exact .inr ⟨hq, fun hnot => hnot.2 x hx rfl⟩
      · exact .inl ⟨hx, fun q hq hkey => hshared ⟨q, hq, hkey⟩⟩

end KeyedDiff
