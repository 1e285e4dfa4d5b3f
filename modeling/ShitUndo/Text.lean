import ShitUndo.Refuse
import Mathlib.Data.List.DropRight

/-!
# Text

The part of Rust's `str` that the scanners of SQL and shell text use, on lists of characters:
trimming white space, and letters in upper case. Numbers are read and written in decimal. Where a
short text can occur in a longer one follows from the characters it does not have.
-/

namespace ShitUndo

open List Bool Nat Char

def trimStart (text : List Char) : List Char := text.dropWhile isWhiteSpace

def trimEnd (text : List Char) : List Char := text.rdropWhile isWhiteSpace

def trim (text : List Char) : List Char := trimEnd (trimStart text)

/-- `str::to_ascii_uppercase`. -/
def asciiUpper (text : List Char) : List Char := text.map toUpper

/-- `c.is_ascii_alphanumeric() || c == '_'`. -/
def isWordChar (c : Char) : Bool := c.isAlphanum || c == '_'

/-- White space only. -/
def Blank (text : List Char) : Prop := ∀ c ∈ text, isWhiteSpace c = true

theorem forall_mem_of_all {p : Char → Prop} [DecidablePred p] {chars : List Char}
    (h : chars.all (fun c => decide (p c)) = true) : ∀ c ∈ chars, p c := by
  intro c hc
  exact of_decide_eq_true (all_eq_true.mp h c hc)

variable {text : List Char} {c : Char}

theorem isAlpha_eq (c : Char) :
    c.isAlpha = (decide ('A'.val ≤ c.val ∧ c.val ≤ 'Z'.val) ||
      (decide ('a'.val ≤ c.val) && decide (c.val ≤ 'z'.val))) := rfl

theorem isWordChar_of_isWhiteSpace (hc : isWhiteSpace c = true) : isWordChar c = false := by
  have hcode : c.toNat = c.val.toNat := rfl
  have hZ : 'Z'.val.toNat = 90 := rfl
  have hz : 'z'.val.toNat = 122 := rfl
  have hA : 'A'.val.toNat = 65 := rfl
  have ha : 'a'.val.toNat = 97 := rfl
  have h0 : '0'.val.toNat = 48 := rfl
  have h9 : '9'.val.toNat = 57 := rfl
  have hunderscore : c ≠ '_' := by
    rintro rfl
    exact absurd hc (by decide)
  simp only [isWhiteSpace, or_eq_true, and_eq_true, decide_eq_true_eq, beq_iff_eq] at hc
  simp only [isWordChar, isAlphanum, isAlpha_eq, isDigit, or_eq_false_iff,
    and_eq_false_iff, decide_eq_false_iff_not, beq_eq_false_iff_ne, ge_iff_le,
    UInt32.le_iff_toNat_le]
  exact ⟨⟨⟨by omega, by omega⟩, by omega⟩, hunderscore⟩

/-- Upper case is for letters, and gives letters. -/
theorem toUpper_cases (c : Char) :
    c.toUpper = c ∨ c.isAlpha = true ∧ c.toUpper.isAlpha = true := by
  by_cases hlow : c.val ≥ 'a'.val ∧ c.val ≤ 'z'.val
  · right
    have hup : c.toUpper.val = c.val + ('A'.val - 'a'.val) := by
      delta toUpper
      rw [dif_pos hlow]
    have hstep : (c.val + ('A'.val - 'a'.val)).toNat = (c.val.toNat + 4294967264) % 4294967296 :=
      UInt32.toNat_add _ _
    have ha : 'a'.val.toNat = 97 := rfl
    have hz : 'z'.val.toNat = 122 := rfl
    have hA : 'A'.val.toNat = 65 := rfl
    have hZ : 'Z'.val.toNat = 90 := rfl
    simp only [isAlpha_eq, hup, or_eq_true, decide_eq_true_eq, and_eq_true]
    refine ⟨.inr hlow, .inl ?_⟩
    rw [ge_iff_le, UInt32.le_iff_toNat_le, UInt32.le_iff_toNat_le] at hlow
    rw [UInt32.le_iff_toNat_le, UInt32.le_iff_toNat_le, hstep]
    omega
  · left
    delta toUpper
    rw [dif_neg hlow]

theorem isAlpha_toUpper (c : Char) : c.toUpper.isAlpha = c.isAlpha := by
  rcases toUpper_cases c with hsame | ⟨halpha, hupper⟩
  · rw [hsame]
  · rw [halpha, hupper]

theorem isWordChar_toUpper (c : Char) : isWordChar c.toUpper = isWordChar c := by
  rcases toUpper_cases c with hsame | ⟨halpha, hupper⟩
  · rw [hsame]
  · simp [isWordChar, isAlphanum, halpha, hupper]

theorem blank_takeWhile (text : List Char) : Blank (text.takeWhile isWhiteSpace) := by
  intro c hc
  exact mem_takeWhile_imp hc

theorem blank_rtakeWhile (text : List Char) : Blank (text.rtakeWhile isWhiteSpace) := by
  intro c hc
  exact mem_rtakeWhile_imp hc

theorem exists_trim (text : List Char) :
    ∃ before after, Blank before ∧ Blank after ∧ text = before ++ (trim text ++ after) := by
  refine ⟨_, _, blank_takeWhile text, blank_rtakeWhile (trimStart text), ?_⟩
  rw [trim, trimEnd, rdropWhile_append_rtakeWhile, trimStart, takeWhile_append_dropWhile]

theorem trimStart_of_head (h : ∀ c, text.head? = some c → isWhiteSpace c = false) :
    trimStart text = text := by
  cases text with
  | nil => rfl
  | cons c rest =>
    rw [trimStart, dropWhile_cons_of_neg]
    rw [h c rfl]
    simp

theorem head?_trim (h : (trim text).head? = some c) : isWhiteSpace c = false := by
  have hpre : (trim text).head? = (trimStart text).head? := by
    obtain ⟨after, hafter⟩ := rdropWhile_prefix isWhiteSpace (trimStart text)
    rw [← hafter, head?_append, show rdropWhile isWhiteSpace (trimStart text) =
      trim text from rfl, h]
    rfl
  rw [hpre] at h
  have := head?_dropWhile_not isWhiteSpace text
  rw [show dropWhile isWhiteSpace text = trimStart text from rfl, h] at this
  simpa using this

theorem trim_trim (text : List Char) : trim (trim text) = trim text := by
  have hstart : trimStart (trim text) = trim text := trimStart_of_head fun _ => head?_trim
  rw [trim, hstart]
  exact rdropWhile_idempotent isWhiteSpace (trimStart text)

/-! ## Decimal numbers -/

/-- The digits of a number. -/
def decimal (n : Nat) : List Char := toDigits 10 n

/-- `str::parse`, for numbers of any size. -/
def readDecimal (text : List Char) : Option Nat :=
  if text ≠ [] ∧ text.all isDigit then some (ofDigitChars 10 text 0) else none

theorem toList_toString (n : Nat) : (toString n).toList = decimal n := toList_repr

theorem isDigit_of_mem_decimal {n : Nat} (hc : c ∈ decimal n) : c.isDigit = true :=
  isDigit_of_mem_toDigits (by decide) (by decide) hc

theorem decimal_ne_nil (n : Nat) : decimal n ≠ [] := toDigits_ne_nil

theorem readDecimal_decimal (n : Nat) : readDecimal (decimal n) = some n := by
  have hdigits : (decimal n).all isDigit = true :=
    all_eq_true.mpr fun c hc => isDigit_of_mem_decimal hc
  rw [readDecimal, if_pos ⟨decimal_ne_nil n, hdigits⟩]
  exact congrArg some (ofDigitChars_toDigits (by decide) (by decide))

/-! ## Occurrences -/

section Occurrences

variable {α : Type*} {needle a b : List α} {c : α}

theorem infix_around_iff (hc : c ∉ needle) :
    needle <:+: a ++ c :: b ↔ needle <:+: a ∨ needle <:+: b := by
  constructor
  · rintro ⟨s, t, h⟩
    rw [append_assoc] at h
    rcases append_eq_append_iff.mp h with ⟨x, ha, hnt⟩ | ⟨x, hs, hcb⟩
    · -- the needle begins in `a`, and cannot go beyond it
      rcases append_eq_append_iff.mp hnt with ⟨y, hx, -⟩ | ⟨y, hneedle, hcb⟩
      · left
        exact ⟨s, y, by rw [append_assoc, ← hx, ← ha]⟩
      cases y with
      | nil =>
        left
        rw [append_nil] at hneedle
        exact ⟨s, [], by rw [append_nil, hneedle, ← ha]⟩
      | cons d y =>
        rw [cons_append, cons.injEq] at hcb
        exact absurd (hneedle ▸ mem_append_right _ (hcb.1 ▸ mem_cons_self)) hc
    · cases x with
      | nil =>
        cases needle with
        | nil => exact .inl ⟨[], a, rfl⟩
        | cons d rest =>
          rw [nil_append, cons_append, cons.injEq] at hcb
          exact absurd (hcb.1 ▸ mem_cons_self) hc
      | cons d x =>
        right
        rw [cons_append, cons.injEq] at hcb
        exact ⟨x, t, by rw [append_assoc]; exact hcb.2.symm⟩
  · rintro (h | h)
    · exact h.trans (prefix_append a _).isInfix
    · exact h.trans ((suffix_cons c b).trans (suffix_append a _)).isInfix

theorem eq_of_append_cons_eq {x y t u : List α} (hx : c ∉ x) (hy : c ∉ y)
    (h : x ++ c :: t = y ++ c :: u) : x = y := by
  rcases append_eq_append_iff.mp h with ⟨z, rfl, hz⟩ | ⟨z, rfl, hz⟩
  · cases z with
    | nil => exact (append_nil x).symm
    | cons d z =>
      rw [cons_append, cons.injEq] at hz
      exact absurd (mem_append_right _ (hz.1 ▸ mem_cons_self)) hy
  · cases z with
    | nil => exact append_nil y
    | cons d z =>
      rw [cons_append, cons.injEq] at hz
      exact absurd (mem_append_right _ (hz.1 ▸ mem_cons_self)) hx

/-- What ends in a character it does not have otherwise ends at the first one, or is behind it. -/
theorem infix_upto_iff (hneedle : c ∉ needle) (ha : c ∉ a) :
    needle ++ [c] <:+: a ++ c :: b ↔ needle <:+ a ∨ needle ++ [c] <:+: b := by
  constructor
  · rintro ⟨s, t, h⟩
    rw [append_assoc] at h
    rcases append_eq_append_iff.mp h with ⟨x, hx, hnt⟩ | ⟨x, hs, hcb⟩
    · left
      -- both end where the first `c` is
      have hsplit : needle ++ c :: t = x ++ c :: b := by simpa using hnt
      have hxc : c ∉ x := fun hmem => ha (hx ▸ mem_append_right _ hmem)
      exact ⟨s, by rw [eq_of_append_cons_eq hneedle hxc hsplit, ← hx]⟩
    · cases x with
      | nil =>
        left
        have hsplit : needle ++ c :: t = [] ++ c :: b := by simpa using hcb.symm
        rw [eq_of_append_cons_eq hneedle not_mem_nil hsplit]
        exact nil_suffix
      | cons d x =>
        right
        rw [cons_append, cons.injEq] at hcb
        exact ⟨x, t, by rw [append_assoc]; exact hcb.2.symm⟩
  · rintro (⟨s, rfl⟩ | h)
    · exact ⟨s, b, by simp⟩
    · exact h.trans ((suffix_cons c b).trans (suffix_append a _)).isInfix

end Occurrences

end ShitUndo
