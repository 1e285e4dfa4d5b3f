import Mathlib.Tactic.Common

/-!
# Scanners with look-ahead

A scanner reads a text from left to right in one of several modes. At each symbol it looks at what
follows and decides: either the symbol separates two pieces, or it is copied together with the next
`n` symbols, and the mode changes. What was copied since the last separator is in a buffer.

* `Scanner.endMode` is its control alone: the mode at the end of a text without separators;
* `Scanner.Stops`: what comes after a stop symbol never changes a decision made before it. Then a
  text can be scanned up to a stop symbol on its own (`advance_append`, `endMode_append`), and
  every text falls into its first piece and the rest (`endMode_cases`).
-/

/-- Modes, and the decision at a symbol: `none` at a separator, else how many further symbols are
copied with it and the mode after them. `flush` is what a buffer contributes to the result. -/
structure Scanner (α μ β : Type*) where
  start : μ
  turn : μ → α → List α → Option (Nat × μ)
  turn_le : ∀ {m c rest n m'}, turn m c rest = some (n, m') → n ≤ rest.length
  flush : List α → List β

namespace Scanner

open List Nat

variable {α μ β : Type*}

/-- The variables of the loop. -/
@[ext] structure Progress (α μ β : Type*) where
  out : List β
  buf : List α
  mode : μ

variable (sc : Scanner α μ β)

/-- Nothing read yet. -/
def init : Progress α μ β := ⟨[], [], sc.start⟩

/-- A piece ends. -/
def cut (p : Progress α μ β) : Progress α μ β := ⟨p.out ++ sc.flush p.buf, [], sc.start⟩

/-- The loop. `skip` symbols belong to a decision already made. -/
def advance (p : Progress α μ β) (skip : Nat) : List α → Progress α μ β
  | [] => p
  | c :: rest =>
    match skip with
    | k + 1 => advance { p with buf := p.buf ++ [c] } k rest
    | 0 =>
      match sc.turn p.mode c rest with
      | none => advance (sc.cut p) 0 rest
      | some (n, m) => advance ⟨p.out, p.buf ++ [c], m⟩ n rest

/-- The pieces of a text. -/
def pieces (xs : List α) : List β := (sc.cut (sc.advance sc.init 0 xs)).out

/-- The mode at the end of a text, if no separator is met. -/
def endMode (m : μ) (skip : Nat) : List α → Option μ
  | [] => some m
  | c :: rest =>
    match skip with
    | k + 1 => endMode m k rest
    | 0 =>
      match sc.turn m c rest with
      | none => none
      | some (n, m') => endMode m' n rest

/-- No decision before a stop symbol depends on the stop symbol or on what comes after it, and
separators are stop symbols. -/
structure Stops (stop : α → Prop) : Prop where
  local_turn : ∀ {m c xs x tail}, stop x → sc.turn m c (xs ++ x :: tail) = sc.turn m c xs
  of_separator : ∀ {m x tail}, sc.turn m x tail = none → stop x

variable {sc} {out : List β} {buf : List α} {m m' : μ} {c x : α} {k : Nat} {xs ys tail : List α}
  {stop : α → Prop}

/-! ## One turn -/

theorem advance_skip :
    sc.advance ⟨out, buf, m⟩ (k + 1) (c :: xs) = sc.advance ⟨out, buf ++ [c], m⟩ k xs := rfl

theorem advance_separator (h : sc.turn m c xs = none) :
    sc.advance ⟨out, buf, m⟩ 0 (c :: xs) = sc.advance ⟨out ++ sc.flush buf, [], sc.start⟩ 0 xs := by
  simp only [advance, h, cut]

theorem advance_copy {n : Nat} (h : sc.turn m c xs = some (n, m')) :
    sc.advance ⟨out, buf, m⟩ 0 (c :: xs) = sc.advance ⟨out, buf ++ [c], m'⟩ n xs := by
  simp only [advance, h]

theorem endMode_copy {n : Nat} (h : sc.turn m c xs = some (n, m')) :
    sc.endMode m 0 (c :: xs) = sc.endMode m' n xs := by
  simp only [endMode, h]

theorem endMode_separator (h : sc.turn m c xs = none) : sc.endMode m 0 (c :: xs) = none := by
  simp only [endMode, h]

/-! ## Frames -/

theorem advance_out (out : List β) (buf : List α) (m : μ) (k : Nat) (xs : List α) :
    (sc.cut (sc.advance ⟨out, buf, m⟩ k xs)).out =
      out ++ (sc.cut (sc.advance ⟨[], buf, m⟩ k xs)).out := by
  induction xs generalizing out buf m k with
  | nil => rfl
  | cons c rest ih =>
    cases k with
    | succ k => exact ih out (buf ++ [c]) m k
    | zero =>
      cases hturn : sc.turn m c rest with
      | none =>
        rw [advance_separator hturn, advance_separator hturn, ih, ih ([] ++ sc.flush buf)]
        simp only [nil_append, append_assoc]
      | some r => rw [advance_copy hturn, advance_copy hturn, ih]

theorem advance_of_endMode (h : sc.endMode m k xs = some m') :
    sc.advance ⟨out, buf, m⟩ k xs = ⟨out, buf ++ xs, m'⟩ := by
  induction xs generalizing buf m k with
  | nil =>
    obtain rfl : m = m' := by simpa [endMode] using h
    rw [append_nil]
    rfl
  | cons c rest ih =>
    cases k with
    | succ k =>
      rw [advance_skip, ih h]
      simp only [append_assoc, singleton_append]
    | zero =>
      cases hturn : sc.turn m c rest with
      | none =>
        rw [endMode_separator hturn] at h
        cases h
      | some r =>
        rw [endMode_copy hturn] at h
        rw [advance_copy hturn, ih h]
        simp only [append_assoc, singleton_append]

/-! ## Up to a stop symbol -/

variable (hst : sc.Stops stop)

include hst

/-- **A text before a stop symbol is scanned on its own.** -/
theorem Stops.advance_append (hx : stop x) (hk : k ≤ xs.length) :
    sc.advance ⟨out, buf, m⟩ k (xs ++ x :: tail) =
      sc.advance (sc.advance ⟨out, buf, m⟩ k xs) 0 (x :: tail) := by
  induction xs generalizing out buf m k with
  | nil =>
    obtain rfl : k = 0 := le_zero.mp hk
    rfl
  | cons c rest ih =>
    cases k with
    | succ k => exact ih (le_of_succ_le_succ hk)
    | zero =>
      have hlocal : sc.turn m c (rest ++ x :: tail) = sc.turn m c rest := hst.local_turn hx
      cases hturn : sc.turn m c rest with
      | none =>
        rw [cons_append, advance_separator (hlocal.trans hturn), advance_separator hturn]
        exact ih (zero_le _)
      | some r =>
        rw [cons_append, advance_copy (hlocal.trans hturn), advance_copy hturn]
        exact ih (sc.turn_le hturn)

theorem Stops.endMode_append (hx : stop x) (hk : k ≤ xs.length) :
    sc.endMode m k (xs ++ x :: tail) =
      (sc.endMode m k xs).bind fun m' => sc.endMode m' 0 (x :: tail) := by
  induction xs generalizing m k with
  | nil =>
    obtain rfl : k = 0 := le_zero.mp hk
    rfl
  | cons c rest ih =>
    cases k with
    | succ k => exact ih (le_of_succ_le_succ hk)
    | zero =>
      have hlocal : sc.turn m c (rest ++ x :: tail) = sc.turn m c rest := hst.local_turn hx
      cases hturn : sc.turn m c rest with
      | none =>
        rw [cons_append, endMode_separator (hlocal.trans hturn), endMode_separator hturn]
        rfl
      | some r =>
        rw [cons_append, endMode_copy (hlocal.trans hturn), endMode_copy hturn]
        exact ih (sc.turn_le hturn)

theorem Stops.endMode_cases (hk : k ≤ xs.length) :
    (∃ m', sc.endMode m k xs = some m') ∨
      ∃ ys x tail m', xs = ys ++ x :: tail ∧ k ≤ ys.length ∧ sc.endMode m k ys = some m' ∧
        sc.turn m' x tail = none := by
  induction xs generalizing m k with
  | nil => exact .inl ⟨m, rfl⟩
  | cons c rest ih =>
    cases k with
    | succ k =>
      rcases ih (m := m) (le_of_succ_le_succ hk) with
        hend | ⟨ys, x, tail, m', rfl, hle, hend, hsep⟩
      · exact .inl hend
      · exact .inr ⟨c :: ys, x, tail, m', rfl, succ_le_succ hle, hend, hsep⟩
    | zero =>
      cases hturn : sc.turn m c rest with
      | none => exact .inr ⟨[], c, rest, m, rfl, Nat.le_refl 0, rfl, hturn⟩
      | some r =>
        obtain ⟨n, m₁⟩ := r
        rcases ih (m := m₁) (sc.turn_le hturn) with
          hend | ⟨ys, x, tail, m', rfl, hle, hend, hsep⟩
        · exact .inl (by rwa [endMode_copy hturn])
        · refine .inr ⟨c :: ys, x, tail, m', rfl, zero_le _, ?_, hsep⟩
          -- the decision at `c` did not look past the separator
          have hlocal : sc.turn m c (ys ++ x :: tail) = sc.turn m c ys :=
            hst.local_turn (hst.of_separator hsep)
          rw [endMode_copy (hlocal.symm.trans hturn), hend]

/-! ## Pieces -/

omit hst in
theorem pieces_of_endMode (h : sc.endMode sc.start 0 xs = some m) : sc.pieces xs = sc.flush xs := by
  rw [pieces, init, advance_of_endMode h]
  rfl

theorem Stops.pieces_separator (hmode : (sc.advance sc.init 0 xs).mode = m)
    (hsep : sc.turn m x tail = none) :
    sc.pieces (xs ++ x :: tail) = sc.pieces xs ++ sc.pieces tail := by
  rw [pieces, init, hst.advance_append (hst.of_separator hsep) (zero_le _)]
  subst hmode
  rw [show sc.advance (sc.advance ⟨[], [], sc.start⟩ 0 xs) 0 (x :: tail) = _ from
    advance_separator hsep, advance_out]
  rfl

theorem Stops.pieces_append (hend : sc.endMode sc.start 0 xs = some m)
    (hsep : sc.turn m x tail = none) :
    sc.pieces (xs ++ x :: tail) = sc.flush xs ++ sc.pieces tail := by
  have hmode : (sc.advance sc.init 0 xs).mode = m := by
    rw [init, advance_of_endMode hend]
  rw [hst.pieces_separator hmode hsep, pieces_of_endMode hend]

end Scanner
