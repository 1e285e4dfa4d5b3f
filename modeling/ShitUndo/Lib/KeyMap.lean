import Mathlib.Tactic.Common

/-!
# Maps as sorted lists

A map that is read by key and also in key order: an association list, sorted by whatever order the
keys have. `get_insert` says what is found after an insertion; it does not need the list to be
sorted, nor the order to be one. `keyOf` is the first key in order with a given value.
-/

namespace KeyMap

variable {κ ν : Type*} [DecidableEq κ] {le : κ → κ → Bool} {k k' : κ} {v : ν} {m : List (κ × ν)}

/-- Put `v` at `k`, in the place of what was there. -/
def insert (le : κ → κ → Bool) (k : κ) (v : ν) : List (κ × ν) → List (κ × ν)
  | [] => [(k, v)]
  | e :: rest =>
    if e.1 = k then (k, v) :: rest
    else if le k e.1 then (k, v) :: e :: rest
    else e :: insert le k v rest

/-- The value at `k`. -/
def get (m : List (κ × ν)) (k : κ) : Option ν := (m.find? fun e => e.1 = k).map Prod.snd

@[simp] theorem get_nil : get ([] : List (κ × ν)) k = none := rfl

theorem get_cons (e : κ × ν) (m : List (κ × ν)) (k : κ) :
    get (e :: m) k = if e.1 = k then some e.2 else get m k := by
  unfold get
  rw [List.find?_cons]
  by_cases hk : e.1 = k <;> simp [hk]

theorem get_insert (m : List (κ × ν)) :
    get (insert le k v m) k' = if k = k' then some v else get m k' := by
  induction m with
  | nil => rw [insert, get_cons, get_nil]
  | cons e rest ih =>
    rw [insert]
    by_cases hsame : e.1 = k
    · rw [if_pos hsame, get_cons, get_cons]
      by_cases hk : k = k'
      · rw [if_pos hk, if_pos hk]
      · rw [if_neg hk, if_neg hk, if_neg (hsame ▸ hk)]
    · rw [if_neg hsame]
      by_cases hle : le k e.1 = true
      · rw [if_pos hle, get_cons]
      · rw [if_neg hle, get_cons, get_cons, ih]
        by_cases hk : k = k'
        · rw [if_pos hk, if_pos hk, if_neg (hk ▸ hsame)]
        · rw [if_neg hk, if_neg hk]

/-- The first key whose value is `v`. -/
def keyOf [DecidableEq ν] (m : List (κ × ν)) (v : ν) : Option κ :=
  (m.find? fun e => e.2 = v).map Prod.fst

theorem keyOf_ne_none [DecidableEq ν] (hget : get m k = some v) : keyOf m v ≠ none := by
  obtain ⟨e, he, rfl⟩ := Option.map_eq_some_iff.mp hget
  have hmem := List.mem_of_find?_eq_some he
  intro hnone
  have hall := List.find?_eq_none.mp (Option.map_eq_none_iff.mp hnone) e hmem
  simp at hall

end KeyMap
