import Mathlib.Data.List.Sort
import Mathlib.Data.String.Basic

/-!
# Sorted maps

Maps that are iterated in the order of their keys: lists of entries with strictly increasing keys.
What a map is follows from what is found in it (`SortedMap.ext_get`), so lookups are all that needs
to be known about an operation: `get_insert`, `get_filterMap`. A map is rebuilt from its entries by
inserting them (`ofList_entries`).
-/

/-- A map, as the list of its entries in key order. -/
structure SortedMap (κ ν : Type*) [LinearOrder κ] where
  entries : List (κ × ν)
  sorted : entries.Pairwise fun a b => a.1 < b.1

namespace SortedMap

open List Prod

variable {κ ν ω : Type*} [LinearOrder κ] {k k' : κ} {v : ν} {l : List (κ × ν)} {m : SortedMap κ ν}

instance [DecidableEq ν] : DecidableEq (SortedMap κ ν) := fun a b =>
  decidable_of_iff (a.entries = b.entries) ⟨fun h => by cases a; cases b; congr, fun h => h ▸ rfl⟩

/-- No entries. -/
def empty : SortedMap κ ν := ⟨[], .nil⟩

/-- The value at a key. -/
def get (m : SortedMap κ ν) (k : κ) : Option ν := m.entries.lookup k

/-- The keys, in order. -/
def keys (m : SortedMap κ ν) : List κ := m.entries.map fst

/-! ## Lookup -/

theorem lookup_cons_ite (e : κ × ν) (l : List (κ × ν)) (k : κ) :
    (e :: l).lookup k = if k = e.1 then some e.2 else l.lookup k := by
  rw [lookup_cons]
  by_cases hk : k = e.1
  · simp [hk]
  · have hne : (k == e.1) = false := by simpa using hk
    rw [hne, if_neg hk]

theorem lookup_eq_some_iff_mem (hl : (l.map fst).Nodup) :
    l.lookup k = some v ↔ (k, v) ∈ l := by
  induction l with
  | nil => simp
  | cons e rest ih =>
    rw [map_cons, nodup_cons] at hl
    rw [lookup_cons_ite, mem_cons]
    by_cases hk : k = e.1
    · rw [if_pos hk]
      subst hk
      constructor
      · intro hv
        exact .inl (by rw [← Option.some.inj hv])
      · rintro (hsame | hmem)
        · rw [← hsame]
        · exact absurd (mem_map_of_mem hmem) hl.1
    · rw [if_neg hk, ih hl.2]
      constructor
      · exact .inr
      · rintro (hsame | hmem)
        · exact absurd (congrArg fst hsame) hk
        · exact hmem

theorem nodup_keys (m : SortedMap κ ν) : m.keys.Nodup :=
  pairwise_map.mpr (m.sorted.imp fun hlt => hlt.ne)

theorem get_eq_some_iff : m.get k = some v ↔ (k, v) ∈ m.entries :=
  lookup_eq_some_iff_mem m.nodup_keys

@[simp] theorem get_empty : (empty : SortedMap κ ν).get k = none := rfl

theorem mem_keys_iff : k ∈ m.keys ↔ ∃ v, m.get k = some v := by
  simp only [keys, mem_map, get_eq_some_iff]
  constructor
  · rintro ⟨e, he, rfl⟩
    exact ⟨e.2, he⟩
  · rintro ⟨v, hv⟩
    exact ⟨(k, v), hv, rfl⟩

/-- **A map is what is found in it.** -/
theorem ext_get {m' : SortedMap κ ν} (h : ∀ k, m.get k = m'.get k) : m = m' := by
  have hmem : ∀ e, e ∈ m.entries ↔ e ∈ m'.entries := by
    intro e
    rw [← get_eq_some_iff (m := m) (k := e.1) (v := e.2),
      ← get_eq_some_iff (m := m') (k := e.1) (v := e.2), h]
  have hnodup : ∀ m : SortedMap κ ν, m.entries.Nodup := fun m =>
    m.sorted.imp fun hlt hsame => absurd (hsame ▸ hlt) (lt_irrefl _)
  have hperm : m.entries.Perm m'.entries :=
    (perm_ext_iff_of_nodup (hnodup m) (hnodup m')).mpr hmem
  have heq : m.entries = m'.entries := by
    refine hperm.eq_of_pairwise (fun a b _ _ hab hba => ?_) m.sorted m'.sorted
    exact absurd (hab.trans hba) (lt_irrefl _)
  cases m
  cases m'
  congr

/-! ## Insertion -/

/-- Put an entry in its place, instead of the one with its key. -/
def insertEntry (k : κ) (v : ν) : List (κ × ν) → List (κ × ν)
  | [] => [(k, v)]
  | e :: rest =>
    if k < e.1 then (k, v) :: e :: rest
    else if k = e.1 then (k, v) :: rest
    else e :: insertEntry k v rest

theorem mem_insertEntry {e : κ × ν} (he : e ∈ insertEntry k v l) : e = (k, v) ∨ e ∈ l := by
  induction l with
  | nil => exact .inl (mem_singleton.mp he)
  | cons a rest ih =>
    rw [insertEntry] at he
    split_ifs at he
    · exact (mem_cons.mp he)
    · exact (mem_cons.mp he).imp_right (mem_cons_of_mem a)
    · rcases mem_cons.mp he with rfl | he
      · exact .inr mem_cons_self
      · exact (ih he).imp_right (mem_cons_of_mem a)

theorem pairwise_insertEntry (hl : l.Pairwise fun a b => a.1 < b.1) :
    (insertEntry k v l).Pairwise fun a b => a.1 < b.1 := by
  induction l with
  | nil => exact pairwise_singleton _ _
  | cons a rest ih =>
    have hcons := pairwise_cons.mp hl
    rw [insertEntry]
    split_ifs with hlt heq
    · refine pairwise_cons.mpr ⟨fun b hb => ?_, hl⟩
      rcases mem_cons.mp hb with rfl | hb
      · exact hlt
      · exact hlt.trans (hcons.1 b hb)
    · refine pairwise_cons.mpr ⟨fun b hb => ?_, hcons.2⟩
      exact heq ▸ hcons.1 b hb
    · refine pairwise_cons.mpr ⟨fun b hb => ?_, ih hcons.2⟩
      rcases mem_insertEntry hb with rfl | hb
      · exact lt_of_le_of_ne (not_lt.mp hlt) (Ne.symm heq)
      · exact hcons.1 b hb

def insert (m : SortedMap κ ν) (k : κ) (v : ν) : SortedMap κ ν :=
  ⟨insertEntry k v m.entries, pairwise_insertEntry m.sorted⟩

theorem get_insert (m : SortedMap κ ν) (k k' : κ) (v : ν) :
    (m.insert k v).get k' = if k' = k then some v else m.get k' := by
  obtain ⟨l, hl⟩ := m
  simp only [get, insert]
  clear hl
  induction l with
  | nil => rw [insertEntry, lookup_cons_ite]
  | cons e rest ih =>
    rw [insertEntry]
    by_cases hlt : k < e.1
    · rw [if_pos hlt, lookup_cons_ite]
    rw [if_neg hlt]
    by_cases heq : k = e.1
    · rw [if_pos heq, lookup_cons_ite, lookup_cons_ite, ← heq]
      split_ifs <;> rfl
    · rw [if_neg heq, lookup_cons_ite, ih, lookup_cons_ite]
      by_cases hk : k' = e.1
      · rw [if_pos hk, if_pos hk, if_neg fun h => heq (h.symm.trans hk)]
      · rw [if_neg hk, if_neg hk]

theorem get_foldl_insert (hl : (l.map fst).Nodup) (acc : SortedMap κ ν) (k : κ) :
    (l.foldl (fun m e => m.insert e.1 e.2) acc).get k = (l.lookup k).or (acc.get k) := by
  induction l generalizing acc with
  | nil => rfl
  | cons e rest ih =>
    rw [map_cons, nodup_cons] at hl
    rw [foldl_cons, ih hl.2, get_insert, lookup_cons_ite]
    by_cases hk : k = e.1
    · subst hk
      have hnone : rest.lookup e.1 = none := by
        rw [lookup_eq_none_iff]
        intro p hp
        have hne : e.1 ≠ p.1 := fun hsame => hl.1 (hsame ▸ mem_map_of_mem hp)
        simpa using hne
      simp [hnone]
    · rw [if_neg hk, if_neg hk]

/-- Insert entries one after the other. -/
def ofList (l : List (κ × ν)) : SortedMap κ ν := l.foldl (fun m e => m.insert e.1 e.2) empty

theorem ofList_entries (m : SortedMap κ ν) : ofList m.entries = m := by
  refine ext_get fun k => ?_
  rw [ofList, get_foldl_insert m.nodup_keys, get_empty, Option.or_none]
  rfl

theorem mem_keys_ofList : k ∈ (ofList l).keys ↔ k ∈ l.map fst := by
  have hfold : ∀ (l : List (κ × ν)) (acc : SortedMap κ ν),
      k ∈ (l.foldl (fun m e => m.insert e.1 e.2) acc).keys ↔ k ∈ l.map fst ∨ k ∈ acc.keys := by
    intro l
    induction l with
    | nil => simp
    | cons e rest ih =>
      intro acc
      have hinsert : k ∈ (acc.insert e.1 e.2).keys ↔ k = e.1 ∨ k ∈ acc.keys := by
        simp only [mem_keys_iff, get_insert]
        by_cases hk : k = e.1 <;> simp [hk]
      rw [foldl_cons, ih, hinsert, map_cons, mem_cons, or_left_comm, or_assoc]
  rw [ofList, hfold l empty]
  simp [keys, empty]

theorem get_ofList_map (f : κ → ν) (l : List κ) (k : κ) :
    (ofList (l.map fun k => (k, f k))).get k = if k ∈ l then some (f k) else none := by
  have hfold : ∀ (l : List κ) (acc : SortedMap κ ν),
      ((l.map fun k => (k, f k)).foldl (fun m e => m.insert e.1 e.2) acc).get k =
        if k ∈ l then some (f k) else acc.get k := by
    intro l
    induction l with
    | nil => intro acc; simp
    | cons a rest ih =>
      intro acc
      rw [map_cons, foldl_cons, ih, get_insert]
      by_cases hk : k = a <;> simp [hk]
  rw [ofList, hfold, get_empty]

/-! ## Going through the entries -/

/-- Of what is made of the entries one by one, the part that belongs to a key is what is made of its
entry. -/
theorem filter_flatMap_entries {α : Type*} {f : κ × ν → List α} {sel : α → Bool}
    (hsel : ∀ e, ∀ a ∈ f e, sel a = decide (e.1 = k)) (m : SortedMap κ ν) :
    (m.entries.flatMap f).filter sel = ((m.get k).map fun v => f (k, v)).getD [] := by
  have hlist : ∀ l : List (κ × ν), l.Pairwise (fun a b => a.1 < b.1) →
      (l.flatMap f).filter sel = ((l.lookup k).map fun v => f (k, v)).getD [] := by
    intro l hl
    induction l with
    | nil => rfl
    | cons e rest ih =>
      rw [pairwise_cons] at hl
      rw [flatMap_cons, filter_append, ih hl.2, lookup_cons_ite]
      by_cases hk : k = e.1
      · subst hk
        have hnone : rest.lookup e.1 = none := by
          rw [lookup_eq_none_iff]
          intro p hp
          simpa using (hl.1 p hp).ne
        have hall : (f e).filter sel = f e := by
          rw [filter_eq_self]
          intro a ha
          simpa using hsel e a ha
        rw [if_pos rfl, hnone, hall]
        exact append_nil _
      · have hnil : (f e).filter sel = [] := by
          rw [filter_eq_nil_iff]
          intro a ha
          simpa [hsel e a ha] using Ne.symm hk
        rw [if_neg hk, hnil, nil_append]
  exact hlist m.entries m.sorted

/-! ## Selecting entries -/

/-- Map the entries and drop some, key by key. -/
def filterMap (f : κ → ν → Option ω) (m : SortedMap κ ν) : SortedMap κ ω where
  entries := m.entries.filterMap fun e => (f e.1 e.2).map (e.1, ·)
  sorted := by
    refine m.sorted.filterMap _ fun a a' hlt b hb b' hb' => ?_
    obtain ⟨_, _, rfl⟩ := Option.map_eq_some_iff.mp hb
    obtain ⟨_, _, rfl⟩ := Option.map_eq_some_iff.mp hb'
    exact hlt

theorem get_filterMap (f : κ → ν → Option ω) (m : SortedMap κ ν) (k : κ) :
    (m.filterMap f).get k = (m.get k).bind (f k) := by
  refine Option.ext fun w => ?_
  rw [get_eq_some_iff, Option.bind_eq_some_iff]
  simp only [filterMap, mem_filterMap, get_eq_some_iff]
  constructor
  · rintro ⟨e, he, hw⟩
    obtain ⟨w', hw', hsame⟩ := Option.map_eq_some_iff.mp hw
    obtain ⟨rfl, rfl⟩ := Prod.mk.inj hsame
    exact ⟨e.2, he, hw'⟩
  · rintro ⟨v, hv, hw⟩
    exact ⟨(k, v), hv, by simp [hw]⟩

theorem entries_eq_nil_iff : m.entries = [] ↔ ∀ k, m.get k = none := by
  constructor
  · intro h k
    rw [get, h]
    rfl
  · intro h
    rw [show m = empty from ext_get h]
    rfl

/-- Without the entry at a key. -/
def erase (m : SortedMap κ ν) (k : κ) : SortedMap κ ν :=
  m.filterMap fun k' v => if k' = k then none else some v

theorem get_erase (m : SortedMap κ ν) (k k' : κ) :
    (m.erase k).get k' = if k' = k then none else m.get k' := by
  rw [erase, get_filterMap]
  by_cases hk : k' = k <;> cases m.get k' <;> simp [hk]

end SortedMap
