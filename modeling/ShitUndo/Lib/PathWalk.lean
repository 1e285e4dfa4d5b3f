import Mathlib.Data.List.Induction
import Mathlib.Logic.Basic

/-!
# Path resolution

Walking a path through a tree with symbolic links, as a kernel does it: component by component,
every link followed as it is met, until a number of links is used up.

* `Node` is what a name stands for; a link holds the path it leads on with;
* `walk` returns the place a path leads to, free of links, and how many links may still be followed;
* `walk_down` says what the last component adds: the name itself, or what it is a link to.
-/

namespace PathWalk

variable {κ : Type*}

/-- A component of a path. -/
inductive Step (κ : Type*) where
  | root
  | here
  | up
  | down (name : κ)
deriving DecidableEq, Repr

/-- What a name stands for. -/
inductive Node (κ : Type*) where
  | dir
  | link (target : List (Step κ))
  | leaf
deriving DecidableEq, Repr

/-- What is at each place; a place is the list of names from the root. -/
abbrev Tree (κ : Type*) := List κ → Option (Node κ)

/-- Why a path leads nowhere. -/
inductive WalkError where
  | missing | notDir | loop
deriving DecidableEq, Repr

/-- The end of the path, or the next link on the way. -/
inductive Stop (κ : Type*) where
  | arrived (place : List κ)
  | atLink (dir : List κ) (target rest : List (Step κ))

/-- Walk up to the next link. -/
def advance (T : Tree κ) : List κ → List (Step κ) → Except WalkError (Stop κ)
  | place, [] => .ok (.arrived place)
  | _, .root :: rest => advance T [] rest
  | place, .here :: rest =>
    match T place with
    | some .dir => advance T place rest
    | some _ => .error .notDir
    | none => .error .missing
  | place, .up :: rest =>
    match T place with
    | some .dir => advance T place.dropLast rest
    | some _ => .error .notDir
    | none => .error .missing
  | place, .down name :: rest =>
    match T place with
    | some .dir =>
      match T (place ++ [name]) with
      | none => .error .missing
      | some (.link target) =>
        if target.isEmpty then .error .missing else .ok (.atLink place target rest)
      | some _ => advance T (place ++ [name]) rest
    | some _ => .error .notDir
    | none => .error .missing

/-- Walk a path, following at most `fuel` links. -/
def walk (T : Tree κ) (fuel : Nat) (place : List κ) (steps : List (Step κ)) :
    Except WalkError (List κ × Nat) :=
  match advance T place steps with
  | .error e => .error e
  | .ok (.arrived q) => .ok (q, fuel)
  | .ok (.atLink dir target rest) =>
    match fuel with
    | 0 => .error .loop
    | fuel + 1 => walk T fuel dir (target ++ rest)
termination_by structural fuel

variable {T : Tree κ} {fuel left : Nat} {place q : List κ} {steps steps' : List (Step κ)} {name : κ}
  {dir : List κ} {target rest : List (Step κ)} {step : Step κ}

@[simp] theorem walk_nil (T : Tree κ) (fuel : Nat) (place : List κ) :
    walk T fuel place [] = .ok (place, fuel) := by
  cases fuel <;> rfl

/-! ## Walking in two parts -/

theorem advance_append_of_error {e : WalkError} (he : advance T place steps = .error e)
    (steps' : List (Step κ)) : advance T place (steps ++ steps') = .error e := by
  fun_induction advance T place steps <;> simp_all [advance]

theorem advance_append_of_arrived (hq : advance T place steps = .ok (.arrived q))
    (steps' : List (Step κ)) : advance T place (steps ++ steps') = advance T q steps' := by
  fun_induction advance T place steps <;> simp_all [advance]

theorem advance_append_of_atLink (hlink : advance T place steps = .ok (.atLink dir target rest))
    (steps' : List (Step κ)) :
    advance T place (steps ++ steps') = .ok (.atLink dir target (rest ++ steps')) := by
  fun_induction advance T place steps <;> simp_all [advance]

/-- **A path can be walked in two parts.** -/
theorem walk_append (T : Tree κ) (fuel : Nat) (place : List κ) (steps steps' : List (Step κ)) :
    walk T fuel place (steps ++ steps') =
      (walk T fuel place steps).bind fun r => walk T r.2 r.1 steps' := by
  fun_induction walk T fuel place steps with
  | case1 fuel place steps e hadv =>
    rw [walk.eq_def, advance_append_of_error hadv]
    rfl
  | case2 fuel place steps q hadv =>
    rw [walk.eq_def, advance_append_of_arrived hadv]
    exact (walk.eq_def T fuel q steps').symm
  | case3 place steps dir target rest hadv =>
    rw [walk.eq_def, advance_append_of_atLink hadv]
    rfl
  | case4 place steps dir target rest hadv fuel ih =>
    rw [walk.eq_def, advance_append_of_atLink hadv]
    dsimp only
    rw [← List.append_assoc]
    exact ih

theorem walk_append_of_ok (hwalk : walk T fuel place steps = .ok (q, left))
    (steps' : List (Step κ)) : walk T fuel place (steps ++ steps') = walk T left q steps' := by
  rw [walk_append, hwalk]
  rfl

/-! ## One component -/

theorem walk_root (T : Tree κ) (fuel : Nat) (place : List κ) (steps : List (Step κ)) :
    walk T fuel place (.root :: steps) = walk T fuel [] steps := by
  rw [walk.eq_def, walk.eq_def T fuel [] steps]
  rfl

theorem walk_here (hdir : T place = some .dir) (steps : List (Step κ)) :
    walk T fuel place (.here :: steps) = walk T fuel place steps := by
  rw [walk.eq_def, walk.eq_def T fuel place steps]
  simp only [advance, hdir]

theorem walk_down_of_free (hdir : T place = some .dir) (hfree : T (place ++ [name]) = none) :
    walk T fuel place [.down name] = .error .missing := by
  rw [walk.eq_def]
  simp only [advance, hdir, hfree]

theorem walk_down_of_ne_link (hdir : T place = some .dir) (hthere : T (place ++ [name]) ≠ none)
    (hlink : ∀ target, T (place ++ [name]) ≠ some (.link target)) :
    walk T fuel place [.down name] = .ok (place ++ [name], fuel) := by
  rw [walk.eq_def]
  cases hnode : T (place ++ [name]) with
  | none => exact absurd hnode hthere
  | some node =>
    cases node with
    | dir | leaf => simp only [advance, hdir, hnode]
    | link target => exact absurd hnode (hlink target)

/-! ## Places without links -/

/-- Names are in directories, and the root is one. -/
structure Grounded (T : Tree κ) : Prop where
  root : T [] = some .dir
  inside : ∀ place name, T (place ++ [name]) ≠ none → T place = some .dir

/-- Something is there, and it is no link. -/
def Settled (T : Tree κ) (place : List κ) : Prop :=
  T place ≠ none ∧ ∀ target, T place ≠ some (.link target)

theorem settled_of_dir (hdir : T place = some .dir) : Settled T place := by
  constructor
  · rw [hdir]
    exact Option.some_ne_none _
  · intro target hlink
    rw [hdir] at hlink
    cases hlink

theorem advance_atLink_dir (hlink : advance T place steps = .ok (.atLink dir target rest)) :
    T dir = some .dir := by
  fun_induction advance T place steps with
  | case2 place rest ih | case3 place rest hdir ih | case6 place rest hdir ih
  | case12 place name rest hdir node hnode hne ih => exact ih hlink
  | case11 place name rest hdir =>
    cases hlink
    exact hdir
  | _ => cases hlink

theorem dir_of_walk_cons (hstep : step ≠ .root)
    (hwalk : walk T fuel place (step :: steps) = .ok (q, left)) : T place = some .dir := by
  cases hplace : T place with
  | none => cases step <;> simp_all [walk.eq_def, advance]
  | some node =>
    cases node with
    | dir => rfl
    | link target | leaf => cases step <;> simp_all [walk.eq_def, advance]

section

variable (hT : Grounded T)

include hT

theorem Grounded.dir_dropLast (hdir : T place = some .dir) :
    T place.dropLast = some .dir := by
  rcases List.eq_nil_or_concat place with rfl | ⟨init, last, rfl⟩
  · exact hT.root
  · rw [List.concat_eq_append] at hdir ⊢
    rw [List.dropLast_concat]
    exact hT.inside init last (hdir ▸ Option.some_ne_none _)

theorem advance_settled (hplace : Settled T place)
    (hq : advance T place steps = .ok (.arrived q)) : Settled T q := by
  fun_induction advance T place steps with
  | case1 place =>
    cases hq
    exact hplace
  | case2 place rest ih => exact ih (settled_of_dir hT.root) hq
  | case3 place rest hdir ih => exact ih hplace hq
  | case6 place rest hdir ih => exact ih (settled_of_dir (hT.dir_dropLast hdir)) hq
  | case12 place name rest hdir node hlink hnode ih =>
    refine ih ⟨?_, ?_⟩ hq
    · rw [hnode]
      exact Option.some_ne_none _
    · intro target heq
      rw [hnode] at heq
      exact hlink target (Option.some.inj heq)
  | _ => cases hq

/-- **A path leads to a place without links.** -/
theorem walk_settled (hplace : Settled T place)
    (hwalk : walk T fuel place steps = .ok (q, left)) : Settled T q := by
  fun_induction walk T fuel place steps with
  | case1 fuel place steps e hadv => cases hwalk
  | case2 fuel place steps r hadv =>
    cases hwalk
    exact advance_settled hT hplace hadv
  | case3 place steps dir target rest hadv => cases hwalk
  | case4 place steps dir target rest hadv fuel ih =>
    exact ih (settled_of_dir (advance_atLink_dir hadv)) hwalk

/-- **The last component**: a name that is no link stands for itself, and one that is a link never
does. -/
theorem walk_down_eq_iff (hdir : T place = some .dir)
    (hwalk : walk T fuel place [.down name] = .ok (q, left)) :
    q = place ++ [name] ↔ ∀ target, T (place ++ [name]) ≠ some (.link target) := by
  constructor
  · rintro rfl
    exact (walk_settled hT (settled_of_dir hdir) hwalk).2
  · intro hlink
    by_cases hthere : T (place ++ [name]) = none
    · rw [walk_down_of_free hdir hthere] at hwalk
      cases hwalk
    · rw [walk_down_of_ne_link hdir hthere hlink] at hwalk
      cases hwalk
      rfl

theorem walk_names (hplace : Settled T place) (fuel : Nat) :
    walk T fuel [] (place.map .down) = .ok (place, fuel) := by
  induction place using List.reverseRecOn with
  | nil => exact walk_nil T fuel []
  | append_singleton init name ih =>
    have hdir := hT.inside init name hplace.1
    rw [List.map_append, List.map_singleton, walk_append_of_ok (ih (settled_of_dir hdir))]
    exact walk_down_of_ne_link hdir hplace.1 hplace.2

theorem walk_settled_of_cons
    (hwalk : walk T fuel place (step :: steps) = .ok (q, left)) : Settled T q := by
  by_cases hstep : step = .root
  · rw [hstep, walk_root] at hwalk
    exact walk_settled hT (settled_of_dir hT.root) hwalk
  · exact walk_settled hT (settled_of_dir (dir_of_walk_cons hstep hwalk)) hwalk

end

theorem walk_add (hwalk : walk T fuel place steps = .ok (q, left)) (extra : Nat) :
    left ≤ fuel ∧ walk T (fuel + extra) place steps = .ok (q, left + extra) := by
  fun_induction walk T fuel place steps with
  | case1 fuel place steps e hadv => cases hwalk
  | case2 fuel place steps r hadv =>
    cases hwalk
    exact ⟨Nat.le_refl _, by rw [walk.eq_def, hadv]⟩
  | case3 place steps dir target rest hadv => cases hwalk
  | case4 place steps dir target rest hadv fuel ih =>
    rw [Nat.succ_add, walk.eq_def, hadv]
    exact (ih hwalk).imp_left Nat.le_succ_of_le

end PathWalk
