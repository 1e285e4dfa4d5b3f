import Mathlib.Data.List.Chain
import ShitUndo.SqlSplit

/-!
# The words of a statement

What stands in a statement outside of its quotes and comments: `sqlTokens`. The lexer is that of
`split_statements`, so quotes, comments and dollar quotes begin and end where statements are split.

* `tokens_merge`: a reading that does not tell quotes and comments apart finds what is in them in
  between.
-/

namespace ShitUndo

open List

/-! ## Reading -/

/-- Every character, and whether it is outside of quotes and comments. -/
def marksFrom (mode : SplitMode) (skip : Nat) : List Char → List (Char × Bool)
  | [] => []
  | c :: rest =>
    match skip with
    | k + 1 => (c, false) :: marksFrom mode k rest
    | 0 =>
      match splitTurn mode c rest with
      | none => (c, true) :: marksFrom .plain 0 rest
      | some (n, mode') =>
        (c, decide (mode = .plain ∧ mode' = .plain)) :: marksFrom mode' n rest

/-- What is marked, with blanks for the rest. -/
def shown (marks : List (Char × Bool)) : List Char :=
  marks.map fun m => if m.2 then m.1 else ' '

/-- What is not marked, with blanks for the rest. -/
def hidden (marks : List (Char × Bool)) : List Char :=
  marks.map fun m => if m.2 then ' ' else m.1

/-- A text with everything inside quotes and comments blanked out. -/
def bareFrom (mode : SplitMode) (skip : Nat) (text : List Char) : List Char :=
  shown (marksFrom mode skip text)

/-- The word that starts with `c`, in upper case. -/
def wordAt (c : Char) (rest : List Char) : String :=
  String.ofList (asciiUpper (c :: rest.takeWhile isWordChar))

inductive SqlToken where
  | word (w : String)
  | opening
  | closing
  | other (c : Char)
deriving DecidableEq, Repr

/-- Words in upper case, and what stands between them; white space is left out. -/
def tokensFrom (skip : Nat) : List Char → List SqlToken
  | [] => []
  | c :: rest =>
    match skip with
    | k + 1 => tokensFrom k rest
    | 0 =>
      if isWordChar c = true then
        .word (wordAt c rest) :: tokensFrom (rest.takeWhile isWordChar).length rest
      else if isWhiteSpace c = true then tokensFrom 0 rest
      else if c = '(' then .opening :: tokensFrom 0 rest
      else if c = ')' then .closing :: tokensFrom 0 rest
      else .other c :: tokensFrom 0 rest

/-- The tokens of a statement outside of quotes and comments. -/
def sqlTokens (sql : String) : List SqlToken := tokensFrom 0 (bareFrom .plain 0 sql.toList)

/-! ## Merging -/

/-- The third list has the elements of the other two, each in their order. -/
inductive Merges {α : Type} : List α → List α → List α → Prop
  | nil : Merges [] [] []
  | left {xs ys zs : List α} (x : α) (h : Merges xs ys zs) : Merges (x :: xs) ys (x :: zs)
  | right {xs ys zs : List α} (y : α) (h : Merges xs ys zs) : Merges xs (y :: ys) (y :: zs)

namespace Merges

variable {α : Type} {xs ys zs : List α} {t : α}

theorem append_left (h : Merges xs ys zs) (l : List α) : Merges (l ++ xs) ys (l ++ zs) := by
  induction l with
  | nil => exact h
  | cons a l ih => exact .left a ih

theorem append_right (h : Merges xs ys zs) (l : List α) : Merges xs (l ++ ys) (l ++ zs) := by
  induction l with
  | nil => exact h
  | cons a l ih => exact .right a ih

theorem mem_iff (h : Merges xs ys zs) : t ∈ zs ↔ t ∈ xs ∨ t ∈ ys := by
  induction h with
  | nil => simp
  | left x _ ih => simp only [mem_cons, ih, or_assoc]
  | right y _ ih => simp only [mem_cons, ih, or_left_comm]

theorem filter_eq (h : Merges xs ys zs) {p : α → Bool} (hp : ∀ y ∈ ys, p y = false) :
    zs.filter p = xs.filter p := by
  induction h with
  | nil => rfl
  | left x _ ih => rw [filter_cons, filter_cons, ih hp]
  | right y _ ih =>
    obtain ⟨hy, hys⟩ := forall_mem_cons.mp hp
    rw [filter_cons_of_neg (by simp [hy]), ih hys]

end Merges

/-! ## Word by word -/

section Words

variable {c : Char} {w text rest : List Char} {k : Nat}

/-- The text does not go on with a word. -/
def EndsWord (rest : List Char) : Prop := ∀ c, rest.head? = some c → isWordChar c = false

theorem ne_of_isWordChar {d : Char} (hc : isWordChar c = true) (hd : isWordChar d = false) :
    c ≠ d := by
  rintro rfl
  exact Bool.noConfusion (hc.symm.trans hd)

theorem tokensFrom_skip (k : Nat) (text : List Char) :
    tokensFrom k text = tokensFrom 0 (text.drop k) := by
  induction text generalizing k with
  | nil => cases k <;> rfl
  | cons c rest ih =>
    cases k with
    | zero => rfl
    | succ k => exact ih k

theorem takeWhile_word (hw : ∀ c ∈ w, isWordChar c = true) (hrest : EndsWord rest) :
    (w ++ rest).takeWhile isWordChar = w := by
  rw [takeWhile_append_of_pos hw]
  cases rest with
  | nil => simp
  | cons d rest => simp [hrest d rfl]

theorem tokensFrom_word (hw : ∀ d ∈ c :: w, isWordChar d = true) (hrest : EndsWord rest) :
    tokensFrom 0 (c :: w ++ rest) =
      .word (String.ofList (asciiUpper (c :: w))) :: tokensFrom 0 rest := by
  obtain ⟨hc, hw⟩ := forall_mem_cons.mp hw
  rw [cons_append, tokensFrom, if_pos hc, wordAt, takeWhile_word hw hrest, tokensFrom_skip,
    drop_left]

theorem tokensFrom_blank (hc : isWhiteSpace c = true) :
    tokensFrom 0 (c :: rest) = tokensFrom 0 rest := by
  simp [tokensFrom, isWordChar_of_isWhiteSpace hc, hc]

theorem tokensFrom_blanks (n : Nat) (rest : List Char) :
    tokensFrom 0 (replicate n ' ' ++ rest) = tokensFrom 0 rest := by
  induction n with
  | zero => rfl
  | succ n ih => rw [replicate_succ, cons_append, tokensFrom_blank (by decide), ih]

/-- The token of a character that is no part of a word. -/
def symbolToken (c : Char) : List SqlToken :=
  if isWhiteSpace c = true then []
  else if c = '(' then [.opening]
  else if c = ')' then [.closing]
  else [.other c]

theorem tokensFrom_symbol (hc : isWordChar c = false) :
    tokensFrom 0 (c :: rest) = symbolToken c ++ tokensFrom 0 rest := by
  rw [tokensFrom, if_neg (by simp [hc]), symbolToken]
  split_ifs <;> rfl

/-- A text is over, goes on with a symbol, or with a whole word. -/
theorem word_cases {α : Type} (f : α → Char) {P : List α → Prop} (text : List α) (hnil : P [])
    (hsymbol : ∀ a rest, isWordChar (f a) = false → P rest → P (a :: rest))
    (hword : ∀ a w rest, (∀ d ∈ a :: w, isWordChar (f d) = true) → EndsWord (rest.map f) →
      P rest → P (a :: w ++ rest)) : P text := by
  induction hn : text.length using Nat.strong_induction_on generalizing text with
  | _ n ih =>
    cases text with
    | nil => exact hnil
    | cons a rest =>
      cases ha : isWordChar (f a) with
      | false => exact hsymbol a rest ha (ih rest.length (by simp [← hn]) rest rfl)
      | true =>
        have hsplit := takeWhile_append_dropWhile (p := fun d => isWordChar (f d)) (l := rest)
        rw [← hsplit]
        refine hword a _ _ ?_ ?_ (ih _ ?_ _ rfl)
        · rintro d (_ | ⟨_, hd⟩)
          · exact ha
          · exact mem_takeWhile_imp (p := fun d => isWordChar (f d)) hd
        · intro c hc
          rw [head?_map, Option.map_eq_some_iff] at hc
          obtain ⟨d, hd, rfl⟩ := hc
          have hnot := head?_dropWhile_not (fun d => isWordChar (f d)) rest
          rw [hd] at hnot
          simpa using hnot
        · have hle := (dropWhile_suffix (l := rest) fun d => isWordChar (f d)).length_le
          simp only [← hn, length_cons]
          omega

end Words

/-! ## What a reading without quotes finds -/

section Marks

variable {m : List (Char × Bool)}

/-- Neighbours in one word are marked alike. -/
def SameMark (a b : Char × Bool) : Prop :=
  isWordChar a.1 = true → isWordChar b.1 = true → a.2 = b.2

theorem marks_of_word {c : Char} {b : Bool} {w : List (Char × Bool)}
    (hw : ∀ d ∈ (c, b) :: w, isWordChar d.1 = true)
    (hchain : IsChain SameMark ((c, b) :: w)) : ∀ d ∈ (c, b) :: w, d.2 = b := by
  induction w generalizing c b with
  | nil => simp
  | cons d w ih =>
    rw [isChain_cons_cons] at hchain
    have hsame : b = d.2 := hchain.1 (hw (c, b) (by simp)) (hw d (by simp))
    have hrest := ih (c := d.1) (b := d.2) (fun e he => hw e (mem_cons_of_mem _ he)) hchain.2
    intro e he
    rcases mem_cons.mp he with rfl | he
    · rfl
    · rw [hsame]
      exact hrest e he

theorem endsWord_masked {f : Char × Bool → Char} (hf : ∀ a, f a = a.1 ∨ f a = ' ')
    (hrest : EndsWord (m.map Prod.fst)) : EndsWord (m.map f) := by
  intro c hc
  rw [head?_map, Option.map_eq_some_iff] at hc
  obtain ⟨a, ha, rfl⟩ := hc
  rcases hf a with hsame | hblank
  · rw [hsame]
    exact hrest a.1 (by rw [head?_map, ha]; rfl)
  · rw [hblank]
    decide

/-- **A reading of the whole text finds what is shown and what is hidden**, each in its order. -/
theorem tokens_merge (hchain : IsChain SameMark m) :
    Merges (tokensFrom 0 (shown m)) (tokensFrom 0 (hidden m)) (tokensFrom 0 (m.map Prod.fst)) := by
  have hshown : ∀ a : Char × Bool, (if a.2 then a.1 else ' ') = a.1 ∨
      (if a.2 then a.1 else ' ') = ' ' := by
    rintro ⟨c, _ | _⟩ <;> simp
  have hhidden : ∀ a : Char × Bool, (if a.2 then ' ' else a.1) = a.1 ∨
      (if a.2 then ' ' else a.1) = ' ' := by
    rintro ⟨c, _ | _⟩ <;> simp
  induction m using word_cases Prod.fst with
  | hnil => exact .nil
  | hsymbol a rest ha ih =>
    obtain ⟨c, b⟩ := a
    have hrest := ih hchain.tail
    rw [map_cons, tokensFrom_symbol ha]
    cases b with
    | true =>
      rw [show hidden ((c, true) :: rest) = ' ' :: hidden rest from rfl,
        show shown ((c, true) :: rest) = c :: shown rest from rfl,
        tokensFrom_symbol ha, tokensFrom_blank (by decide)]
      exact hrest.append_left _
    | false =>
      rw [show hidden ((c, false) :: rest) = c :: hidden rest from rfl,
        show shown ((c, false) :: rest) = ' ' :: shown rest from rfl,
        tokensFrom_blank (by decide), tokensFrom_symbol ha]
      exact hrest.append_right _
  | hword a w rest hw hrest ih =>
    obtain ⟨c, b⟩ := a
    have hmarks := marks_of_word hw hchain.left_of_append
    have hmerge := ih hchain.right_of_append
    have hletters : ∀ d ∈ c :: w.map Prod.fst, isWordChar d = true := by
      intro d hd
      obtain ⟨e, he, rfl⟩ := mem_map.mp (show d ∈ ((c, b) :: w).map Prod.fst from hd)
      exact hw e he
    -- the word is shown or hidden as a whole
    have hmask : ∀ (f : Char × Bool → Char) (g : Char → Char), (∀ d, f (d, b) = g d) →
        ((c, b) :: w ++ rest).map f = (c :: w.map Prod.fst).map g ++ rest.map f := by
      intro f g hfg
      rw [map_append]
      congr 1
      rw [show c :: w.map Prod.fst = ((c, b) :: w).map Prod.fst from rfl, map_map]
      refine map_congr_left fun d hd => ?_
      rw [← Prod.eta d, hmarks d hd]
      exact hfg d.1
    have hkeep : ∀ f : Char × Bool → Char, (∀ d, f (d, b) = d) → EndsWord (rest.map f) →
        tokensFrom 0 (((c, b) :: w ++ rest).map f) =
          .word (String.ofList (asciiUpper (c :: w.map Prod.fst))) ::
            tokensFrom 0 (rest.map f) := by
      intro f hf hends
      rw [hmask f id hf, map_id, tokensFrom_word hletters hends]
    have hblank : ∀ f : Char × Bool → Char, (∀ d, f (d, b) = ' ') →
        tokensFrom 0 (((c, b) :: w ++ rest).map f) = tokensFrom 0 (rest.map f) := by
      intro f hf
      rw [hmask f _ hf, map_const', tokensFrom_blanks]
    rw [shown, hidden, hkeep Prod.fst (fun _ => rfl) hrest]
    cases b with
    | true =>
      rw [hkeep _ (fun _ => rfl) (endsWord_masked hshown hrest), hblank _ fun _ => rfl]
      exact .left _ hmerge
    | false =>
      rw [hblank _ fun _ => rfl, hkeep _ (fun _ => rfl) (endsWord_masked hhidden hrest)]
      exact .right _ hmerge

end Marks

/-! ## Quotes and comments end between words -/

section Edges

variable {mode mode' : SplitMode} {n : Nat} {c : Char} {rest : List Char}

theorem splitTurn_plain_ordinary (hc : c ∉ ['$', '\'', '"', '-', '/', ';']) :
    splitTurn .plain c rest = some (0, .plain) := by
  simp only [mem_cons, not_mem_nil, or_false, not_or] at hc
  obtain ⟨h₁, h₂, h₃, h₄, h₅, h₆⟩ := hc
  simp [splitTurn, plainTurn, h₁, h₂, h₃, h₄, h₅, h₆]

/-- So is a character of any class that has none of those in it. -/
theorem splitTurn_plain_of_class {p : Char → Bool}
    (hp : ['$', '\'', '"', '-', '/', ';'].all (!p ·) = true) (hc : p c = true) :
    splitTurn .plain c rest = some (0, .plain) := by
  refine splitTurn_plain_ordinary fun hmem => ?_
  have hnot := List.all_eq_true.mp hp c hmem
  rw [hc] at hnot
  cases hnot

theorem splitTurn_plain_of_isWordChar (hc : isWordChar c = true) :
    splitTurn .plain c rest = some (0, .plain) := splitTurn_plain_of_class (by decide) hc

theorem splitTurn_plain_of_isWhiteSpace (hc : isWhiteSpace c = true) :
    splitTurn .plain c rest = some (0, .plain) := splitTurn_plain_of_class (by decide) hc

/-- A letter changes nothing. -/
theorem splitTurn_of_isWordChar (hc : isWordChar c = true) :
    splitTurn mode c rest = some (0, mode) := by
  have hne : ∀ d, isWordChar d = false → c ≠ d := fun d => ne_of_isWordChar hc
  cases mode with
  | plain => exact splitTurn_plain_of_isWordChar hc
  | lineComment => simp [splitTurn, hne '\n' (by decide)]
  | blockComment => simp [splitTurn, hne '*' (by decide)]
  | dollar tag => simp [splitTurn, hne '$' (by decide)]
  | single => simp [splitTurn, hne '\'' (by decide)]
  | double => simp [splitTurn, hne '"' (by decide)]

/-- What is skipped at the end of a quote or comment ends with no letter. -/
def SkipEnds (mode : SplitMode) (skip : Nat) (text : List Char) : Prop :=
  mode = .plain → ∀ k, skip = k + 1 → ∀ c, text[k]? = some c → isWordChar c = false

theorem plainTurn_ends (h : plainTurn c rest = some (n, .plain)) : n = 0 := by
  unfold plainTurn at h
  split_ifs at h <;> cases h
  rfl

theorem splitTurn_ends (h : splitTurn mode c rest = some (n, mode')) : SkipEnds mode' n rest := by
  rintro rfl k rfl d hd
  cases mode with
  | lineComment | double =>
    simp only [splitTurn, Option.some.injEq, Prod.mk.injEq] at h
    omega
  | blockComment =>
    simp only [splitTurn] at h
    split_ifs at h with hend
    · obtain ⟨hn, -⟩ := Prod.mk.inj (Option.some.inj h)
      obtain rfl : k = 0 := by omega
      rw [← head?_eq_getElem?, hend.2] at hd
      cases hd
      decide
    · cases h
  | dollar tag =>
    simp only [splitTurn] at h
    split_ifs at h with hend
    · obtain ⟨hn, -⟩ := Prod.mk.inj (Option.some.inj h)
      obtain rfl : tag.chars.length = k := by omega
      obtain ⟨tail, rfl⟩ := isPrefixOf_iff_prefix.mp hend.2
      rw [append_assoc, getElem?_append_right (le_refl _), Nat.sub_self] at hd
      cases hd
      decide
    · cases h
  | single =>
    simp only [splitTurn] at h
    split_ifs at h
    · cases h
    · cases h
    · cases h
  | plain =>
    simp only [splitTurn] at h
    split_ifs at h
    · cases hopen : readDollarOpen true rest with
      | none =>
        rw [hopen] at h
        cases plainTurn_ends h
      | some tag =>
        rw [hopen] at h
        cases h
    · cases plainTurn_ends h

theorem marksFrom_fst (mode : SplitMode) (skip : Nat) (text : List Char) :
    (marksFrom mode skip text).map Prod.fst = text := by
  induction text generalizing mode skip with
  | nil => rfl
  | cons c rest ih =>
    cases skip with
    | succ k => rw [marksFrom, map_cons, ih]
    | zero =>
      rw [marksFrom]
      cases splitTurn mode c rest with
      | none => simp only [map_cons, ih]
      | some r => simp only [map_cons, ih]

/-- The mark of the first character. -/
theorem head?_marksFrom (mode : SplitMode) (skip : Nat) (hc : isWordChar c = true) :
    (marksFrom mode skip (c :: rest)).head? =
      some (c, decide (skip = 0 ∧ mode = .plain)) := by
  cases skip with
  | succ k => simp [marksFrom]
  | zero => simp [marksFrom, splitTurn_of_isWordChar hc]

/-- **A word is inside or outside of quotes as a whole.** -/
theorem marksFrom_chain (text : List Char) (hends : SkipEnds mode n text) :
    IsChain SameMark (marksFrom mode n text) := by
  induction text generalizing mode n with
  | nil => exact .nil
  | cons c rest ih =>
    have hnext : ∀ {mode' : SplitMode} {k : Nat} {b : Bool}, SkipEnds mode' k rest →
        (isWordChar c = true → b = decide (k = 0 ∧ mode' = .plain)) →
        IsChain SameMark ((c, b) :: marksFrom mode' k rest) := by
      intro mode' k b hends' hmark
      refine isChain_cons.mpr ⟨?_, ih hends'⟩
      intro d hd hc hdword
      cases rest with
      | nil => cases hd
      | cons e rest =>
        have hfst : (marksFrom mode' k (e :: rest)).head?.map Prod.fst = some e := by
          rw [← head?_map, marksFrom_fst]
          rfl
        rw [hd] at hfst
        obtain rfl := Option.some.inj hfst
        rw [head?_marksFrom mode' k hdword] at hd
        rw [← Option.some.inj hd]
        exact hmark hc
    cases n with
    | succ k =>
      rw [marksFrom]
      refine hnext ?_ ?_
      · intro hplain j hj d hd
        subst hj
        exact hends hplain (j + 1) rfl d hd
      · intro hc
        by_contra hmark
        have hend : k = 0 ∧ mode = .plain := by simpa using hmark
        obtain ⟨rfl, hplain⟩ := hend
        exact Bool.noConfusion (hc.symm.trans (hends hplain 0 rfl c rfl))
    | zero =>
      rw [marksFrom]
      cases hturn : splitTurn mode c rest with
      | none =>
        refine hnext ?_ fun _ => rfl
        rintro - k hk
        cases hk
      | some r =>
        obtain ⟨k, mode'⟩ := r
        refine hnext (splitTurn_ends hturn) ?_
        intro hc
        rw [splitTurn_of_isWordChar hc] at hturn
        obtain ⟨rfl, rfl⟩ := Prod.mk.inj (Option.some.inj hturn)
        simp

end Edges

end ShitUndo
