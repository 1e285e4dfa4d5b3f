import ShitUndo.Lib.ShellReader

/-!
# Texts that are read as themselves

The converse of `reads_plainWord`: where a shell reads a text as a word with the same characters,
the text is a plain word. Quotes and backslashes are not part of the word they are written in, so
a text with one of them is read as a shorter word, or reaches beyond its end; what stands there
tells the two apart.

* `Tracks` compares the word read so far with the text it was read from.
-/

namespace ShellReader

open List Option ShellReader

variable {d : Dialect} {m m₁ : Mode} {xs w : List Char} {es : List Lexeme} {c : Char}
  {a ys v name : List Char} {cs : List Command}

/-! ## Everything that is read -/

/-- The words and operators of a text from a mode on. -/
def readAll (d : Dialect) (m : Mode) (text : List Char) : Option (List Lexeme) :=
  (run d m text).bind fun r => (finish r.2).map (r.1 ++ ·)

theorem readAll_cons (d : Dialect) (m : Mode) (c : Char) (xs : List Char) :
    readAll d m (c :: xs) = (turn d m c).bind fun r => (readAll d r.2 xs).map (r.1 ++ ·) := by
  rw [readAll, run]
  cases hturn : turn d m c with
  | none => rfl
  | some r =>
    obtain ⟨es, m'⟩ := r
    cases hrun : run d m' xs with
    | none => simp [readAll, hrun]
    | some s => cases hfin : finish s.2 <;> simp [readAll, hrun, hfin]

theorem readAll_of_reads (h : Reads d m xs es m₁) (ys : List Char) :
    readAll d m (xs ++ ys) = (readAll d m₁ ys).map (es ++ ·) := by
  rw [readAll, run_of_reads h, readAll]
  cases hrun : run d m₁ ys with
  | none => rfl
  | some r => cases hfin : finish r.2 <;> simp [hfin]

theorem Reads.single (hturn : turn d m c = some (es, m₁)) : Reads d m [c] es m₁ := by
  simp [Reads, run, hturn]

theorem turn_quoted (hquote : c ≠ '\'') (hslash : c ≠ '\\') :
    turn d (.quoted w) c = some ([], .quoted (w ++ [c])) := by
  simp [turn, hquote, hslash]

/-! ## The word read so far -/

/-- The word a mode is inside of. -/
def pending : Mode → List Char
  | .bare w | .quoted w | .quotedEscape w | .escaped w => w
  | _ => []

/-- **What a character does**: it ends nothing, and the word does not lose anything unless it was
the descriptor of a redirection; or it ends a word; or it ends an operator or a line. -/
theorem turn_cases {r : List Lexeme × Mode} (h : turn d m c = some r) :
    (r.1 = [] ∧ (pending m <+: pending r.2 ∨ ∃ t, r.2 = .operator t)) ∨
      (∃ w fs, m = .bare w ∧ r.1 = .word w :: fs) ∨ ∃ o fs, r.1 = .op o :: fs := by
  have hgap : ∀ {r : List Lexeme × Mode}, turnGap c = some r →
      r.1 = [] ∨ ∃ o fs, r.1 = .op o :: fs := by
    intro r h
    rw [turnGap] at h
    split_ifs at h <;> cases h <;> simp
  cases m with
  | gap =>
    rcases hgap h with hnil | hop
    · exact .inl ⟨hnil, .inl nil_prefix⟩
    · exact .inr (.inr hop)
  | bare w =>
    rw [turn, turnBare] at h
    split_ifs at h <;> cases h <;> simp [pending]
  | quoted w | comment =>
    rw [turn] at h
    split_ifs at h <;> cases h <;> simp [pending]
  | quotedEscape w =>
    rw [turn] at h
    cases h
    split_ifs <;> simp [pending]
  | escaped w =>
    rw [turn] at h
    split_ifs at h
    cases h
    simp [pending]
  | operator t =>
    rw [turn] at h
    split_ifs at h
    · cases h
      exact .inr (.inr ⟨_, _, rfl⟩)
    · obtain ⟨s, _, rfl⟩ := map_eq_some_iff.mp h
      exact .inr (.inr ⟨_, _, rfl⟩)

theorem readAll_ne_word_of_op (hm : m = .comment ∨ ∃ t, m = .operator t) :
    readAll d m xs ≠ some (.word w :: es) := by
  induction xs generalizing m with
  | nil => rcases hm with rfl | ⟨t, rfl⟩ <;> simp [readAll, run, finish]
  | cons c rest ih =>
    intro h
    rw [readAll_cons, bind_eq_some_iff] at h
    obtain ⟨r, hturn, hrest⟩ := h
    obtain ⟨fs, hfs, heq⟩ := map_eq_some_iff.mp hrest
    rcases turn_cases hturn with ⟨hnil, -⟩ | ⟨v, gs, rfl, -⟩ | ⟨o, gs, hop⟩
    · rw [hnil, nil_append] at heq
      -- nothing is ended only inside of the comment
      have hcomment : r.2 = .comment := by
        rcases hm with rfl | ⟨t, rfl⟩
        · rw [turn] at hturn
          split_ifs at hturn
          · cases hturn
            cases hnil
          · cases hturn
            rfl
        · rw [turn] at hturn
          split_ifs at hturn
          · cases hturn
            cases hnil
          · obtain ⟨s, _, rfl⟩ := map_eq_some_iff.mp hturn
            cases hnil
      exact ih (.inl hcomment) (heq ▸ hfs)
    · rcases hm with hm | ⟨t, hm⟩ <;> cases hm
    · rw [hop] at heq
      cases heq

theorem pending_isPrefix (h : readAll d m xs = some (.word w :: es)) : pending m <+: w := by
  induction xs generalizing m with
  | nil => cases m <;> simp_all [readAll, run, finish, pending]
  | cons c rest ih =>
    rw [readAll_cons, bind_eq_some_iff] at h
    obtain ⟨r, hturn, hrest⟩ := h
    obtain ⟨fs, hfs, heq⟩ := map_eq_some_iff.mp hrest
    rcases turn_cases hturn with ⟨hnil, hpre⟩ | ⟨v, gs, rfl, hword⟩ | ⟨o, gs, hop⟩
    · rw [hnil, nil_append] at heq
      subst heq
      rcases hpre with hpre | hop
      · exact hpre.trans (ih hfs)
      · exact absurd hfs (readAll_ne_word_of_op (.inr hop))
    · rw [hword] at heq
      obtain ⟨hvw, -⟩ := cons.inj heq
      obtain rfl := Lexeme.word.inj hvw
      exact prefix_refl v
    · rw [hop] at heq
      cases heq

/-! ## The word and its text -/

/-- How the word of a mode compares with the text `a` it was read from. -/
def Tracks (a : List Char) : Mode → Prop
  | .bare w => w.length ≤ a.length ∧ (w.length = a.length → isPlainWord a = true)
  | .quoted w => w.length + 1 ≤ a.length
  | .quotedEscape w => w.length + 2 ≤ a.length
  | .escaped w => w.length + 1 ≤ a.length ∧ a.getLast? = some '\\'
  | _ => True

theorem tracks_gap : Tracks [] .gap := trivial

theorem isPlainWord_append (ha : isPlainWord a = true) (hc : isOrdinary c = true) :
    isPlainWord (a ++ [c]) = true := by
  cases a with
  | nil => cases ha
  | cons b bs =>
    rw [isPlainWord, Bool.and_eq_true] at ha
    rw [cons_append, isPlainWord, Bool.and_eq_true, ← cons_append, all_append, ha.2]
    exact ⟨ha.1, by simp [hc]⟩

theorem Tracks.turn (h : Tracks a m) (hturn : turn d m c = some ([], m₁)) :
    Tracks (a ++ [c]) m₁ := by
  have hlen : (a ++ [c]).length = a.length + 1 := by simp
  cases m with
  | gap =>
    rw [turn, turnGap] at hturn
    split_ifs at hturn with hblank hnl hhash hquote hslash hop hspecial <;> cases hturn
    · trivial
    · trivial
    · simp [Tracks]
    · simp [Tracks, hslash]
    · trivial
    · refine ⟨by simp, fun hsame => ?_⟩
      have hnil : a = [] := by
        rw [hlen, length_singleton] at hsame
        exact length_eq_zero_iff.mp (by omega)
      rw [not_or] at hspecial
      simp [hnil, isPlainWord, isOrdinary, hblank, hnl, hquote, hslash, hop, hspecial]
  | bare w =>
    obtain ⟨hle, hplain⟩ := h
    rw [turn, turnBare] at hturn
    split_ifs at hturn with hblank hnl hquote hslash hop hdigits hspecial <;> cases hturn
    · show w.length + 1 ≤ (a ++ [c]).length
      omega
    · exact ⟨by omega, by simp [hslash]⟩
    · trivial
    · refine ⟨by simpa using hle, fun hsame => ?_⟩
      have hwa : w.length = a.length := by simpa using hsame
      exact isPlainWord_append (hplain hwa)
        (by simp [isOrdinary, hblank, hnl, hquote, hslash, hop, hspecial])
  | quoted w =>
    have hle : w.length + 1 ≤ a.length := h
    rw [turn] at hturn
    split_ifs at hturn <;> cases hturn
    · refine ⟨by omega, fun hsame => ?_⟩
      omega
    · show w.length + 2 ≤ (a ++ [c]).length
      omega
    · show (w ++ [c]).length + 1 ≤ (a ++ [c]).length
      simpa using hle
  | quotedEscape w =>
    have hle : w.length + 2 ≤ a.length := h
    rw [turn] at hturn
    cases hturn
    show (if c ∈ d.escapes then w ++ [c] else w ++ ['\\', c]).length + 1 ≤ (a ++ [c]).length
    split_ifs <;> simp <;> omega
  | escaped w =>
    obtain ⟨hle, -⟩ := h
    rw [turn] at hturn
    split_ifs at hturn
    cases hturn
    refine ⟨by simp; omega, fun hsame => ?_⟩
    simp only [length_append, length_singleton] at hsame
    omega
  | comment =>
    rw [turn] at hturn
    split_ifs at hturn
    · cases hturn
    · cases hturn
      trivial
  | operator t =>
    rw [turn] at hturn
    split_ifs at hturn
    · cases hturn
    · obtain ⟨s, _, heq⟩ := map_eq_some_iff.mp hturn
      cases heq

/-- **A long word is not over before its text is.** -/
theorem tracks_of_le {b : List Char} (h : Tracks a m)
    (hread : readAll d m (b ++ ys) = some (.word w :: es)) (hle : (a ++ b).length ≤ w.length) :
    ∃ m', Tracks (a ++ b) m' ∧ readAll d m' ys = some (.word w :: es) := by
  induction b generalizing a m with
  | nil => exact ⟨m, by rwa [append_nil], hread⟩
  | cons c rest ih =>
    rw [cons_append, readAll_cons, bind_eq_some_iff] at hread
    obtain ⟨r, hturn, hrest⟩ := hread
    obtain ⟨es', m'⟩ := r
    obtain ⟨fs, hfs, heq⟩ := map_eq_some_iff.mp hrest
    rcases turn_cases hturn with ⟨hnil, -⟩ | ⟨v, gs, rfl, hword⟩ | ⟨o, gs, hop⟩
    · obtain rfl : es' = [] := hnil
      rw [nil_append] at heq
      rw [append_cons] at hle ⊢
      exact ih (h.turn hturn) (heq ▸ hfs) hle
    · -- the word ends here, and is too short
      rw [show es' = .word v :: gs from hword] at heq
      obtain ⟨hvw, -⟩ := cons.inj heq
      rw [← Lexeme.word.inj hvw] at hle
      have hshort : v.length ≤ a.length := h.1
      simp only [length_append, length_cons] at hle
      omega
    · rw [show es' = .op o :: gs from hop] at heq
      cases heq

/-! ## The text of a word -/

theorem mem_of_isPrefix {p : List Char} {e : Char} (hp : p <+: a ++ v) (hle : p.length ≤ a.length)
    (he : e ∈ p) : e ∈ a :=
  (prefix_of_prefix_length_le hp (prefix_append a v) hle).mem he

/-- What the modes inside of quotes and after a backslash make of an ordinary character: part of
the word, which is then shorter than the text. -/
theorem not_mem_of_inside {e : Char} (hm : Tracks a m)
    (hinside : (∃ w, m = .quoted w) ∨ (∃ w, m = .quotedEscape w) ∨ ∃ w, m = .escaped w)
    (hquote : e ≠ '\'') (hslash : e ≠ '\\')
    (hread : readAll d m (e :: ys) = some (.word (a ++ v) :: es)) : e ∈ a := by
  rw [readAll_cons, bind_eq_some_iff] at hread
  obtain ⟨r, hturn, hrest⟩ := hread
  obtain ⟨fs, hfs, heq⟩ := map_eq_some_iff.mp hrest
  rcases hinside with ⟨w, rfl⟩ | ⟨w, rfl⟩ | ⟨w, rfl⟩
  · have hlong : w.length + 1 ≤ a.length := hm
    cases (turn_quoted hquote hslash).symm.trans hturn
    subst heq
    exact mem_of_isPrefix (pending_isPrefix hfs) (by simpa [pending] using hlong)
      (by simp [pending])
  · have hlong : w.length + 2 ≤ a.length := hm
    rw [turn] at hturn
    cases hturn
    subst heq
    refine mem_of_isPrefix (pending_isPrefix hfs) ?_ (by split_ifs <;> simp [pending])
    split_ifs <;> simp [pending] <;> omega
  · have hlong : w.length + 1 ≤ a.length := hm.1
    rw [turn] at hturn
    split_ifs at hturn
    cases hturn
    subst heq
    exact mem_of_isPrefix (pending_isPrefix hfs) (by simpa [pending] using hlong)
      (by simp [pending])

/-- The word is still open at a character that is not in the text before it, and no quotes are. -/
theorem gap_or_bare {e : Char} (hquote : e ≠ '\'') (hslash : e ≠ '\\') (he : e ∉ a)
    (hread : readAll d .gap (a ++ e :: ys) = some (.word (a ++ v) :: es)) :
    readAll d .gap (e :: ys) = some (.word (a ++ v) :: es) ∨ ∃ w, Tracks a (.bare w) ∧
      readAll d (.bare w) (e :: ys) = some (.word (a ++ v) :: es) := by
  obtain ⟨m, hm, hmread⟩ := tracks_of_le tracks_gap hread (by simp)
  rw [nil_append] at hm
  cases m with
  | gap => exact .inl hmread
  | bare w => exact .inr ⟨w, hm, hmread⟩
  | quoted w => exact absurd (not_mem_of_inside hm (.inl ⟨w, rfl⟩) hquote hslash hmread) he
  | quotedEscape w =>
    exact absurd (not_mem_of_inside hm (.inr (.inl ⟨w, rfl⟩)) hquote hslash hmread) he
  | escaped w =>
    exact absurd (not_mem_of_inside hm (.inr (.inr ⟨w, rfl⟩)) hquote hslash hmread) he
  | comment => exact absurd hmread (readAll_ne_word_of_op (.inl rfl))
  | operator t => exact absurd hmread (readAll_ne_word_of_op (.inr ⟨t, rfl⟩))

/-- **A text at the end of a line**, without a line break in it. -/
theorem plainWord_of_newline' (ha : '\n' ∉ a)
    (hread : readAll d .gap (a ++ '\n' :: ys) = some (.word (a ++ v) :: es)) :
    isPlainWord a = true ∧ v = [] := by
  rcases gap_or_bare (by decide) (by decide) ha hread with hgap | ⟨w, ⟨hle, hplain⟩, hbare⟩
  · simp [readAll_cons, turn, turnGap, isBlank] at hgap
  have hw : w = a ++ v := by
    simp [readAll_cons, turn, turnBare, isBlank] at hbare
    obtain ⟨fs, -, hsame, -⟩ := hbare
    exact hsame
  have hv : v = [] := by
    rw [hw, length_append] at hle
    exact length_eq_zero_iff.mp (by omega)
  refine ⟨hplain ?_, hv⟩
  rw [hw, hv, append_nil]

/-- **A text at the end of a line.** -/
theorem plainWord_of_newline
    (hread : readAll d .gap (name ++ '\n' :: ys) = some (.word name :: es)) :
    isPlainWord name = true := by
  by_cases hmem : '\n' ∈ name
  · -- the word would end at the first line break in it
    obtain ⟨a, b, rfl, ha⟩ := eq_append_cons_of_mem hmem
    rw [append_assoc, cons_append] at hread
    exact absurd (plainWord_of_newline' ha hread).2 (cons_ne_nil _ _)
  · have hread' : readAll d .gap (name ++ '\n' :: ys) = some (.word (name ++ []) :: es) := by
      rw [append_nil]
      exact hread
    exact (plainWord_of_newline' hmem hread').1

/-- **A text in front of an equals sign.** -/
theorem plainWord_of_equals (hname : '=' ∉ name)
    (hread : readAll d .gap (name ++ '=' :: ys) = some (.word (name ++ '=' :: v) :: es)) :
    isPlainWord name = true := by
  rcases gap_or_bare (by decide) (by decide) hname hread with hgap | ⟨w, ⟨hle, hplain⟩, hbare⟩
  · simp [readAll_cons, turn, turnGap, isBlank, isOperatorChar] at hgap
  by_cases hlen : w.length = name.length
  · exact hplain hlen
  have hmode : turn d (.bare w) '=' = some ([], .bare (w ++ ['='])) :=
    turnBare_ordinary (by decide)
  rw [readAll_cons, hmode] at hbare
  have hpre := pending_isPrefix (m := .bare (w ++ ['='])) (by simpa using hbare)
  refine absurd (mem_of_isPrefix hpre ?_ (by simp [pending])) hname
  simp only [pending, length_append, length_singleton]
  omega

theorem not_mem_redirect (ha : '>' ∉ a)
    (hread : readAll d .gap (a ++ '>' :: ys) = some (.word (a ++ '>' :: v) :: es)) : False := by
  rcases gap_or_bare (by decide) (by decide) ha hread with hgap | ⟨w, hm, hbare⟩
  · have hmode : turn d .gap '>' = some ([], .operator ['>']) := rfl
    rw [readAll_cons, hmode] at hgap
    exact readAll_ne_word_of_op (d := d) (.inr ⟨['>'], rfl⟩) (by simpa using hgap)
  by_cases hdigits : w.all Char.isDigit = true
  · have hmode : turn d (.bare w) '>' = some ([], .operator (w ++ ['>'])) := by
      simp [turn, turnBare, isBlank, isOperatorChar, hdigits]
    rw [readAll_cons, hmode] at hbare
    exact readAll_ne_word_of_op (d := d) (.inr ⟨w ++ ['>'], rfl⟩) (by simpa using hbare)
  · have hmode : turn d (.bare w) '>' = some ([.word w], .operator ['>']) := by
      simp [turn, turnBare, isBlank, isOperatorChar, hdigits]
    rw [readAll_cons, hmode, bind_some] at hbare
    obtain ⟨fs, -, heq⟩ := map_eq_some_iff.mp hbare
    have hw := Lexeme.word.inj (cons.inj heq).1
    have hle : w.length ≤ a.length := hm.1
    rw [hw, length_append, length_cons] at hle
    omega

/-- **A text in front of a redirection.** -/
theorem plainWord_of_redirect
    (hread : readAll d .gap (name ++ ' ' :: '2' :: '>' :: ys) = some (.word name :: es)) :
    isPlainWord name = true := by
  have hsign : '>' ∉ name := by
    intro hmem
    obtain ⟨a, b, rfl, ha⟩ := eq_append_cons_of_mem hmem
    rw [append_assoc, cons_append] at hread
    exact not_mem_redirect ha hread
  -- inside of quotes the sign would be part of the word
  have hquoted : ∀ w zs, readAll d (.quoted w) ('2' :: '>' :: zs) ≠ some (.word name :: es) := by
    intro w zs hin
    have hreads : Reads d (.quoted w) ['2', '>'] [] (.quoted (w ++ ['2'] ++ ['>'])) :=
      .step (turn_quoted (by decide) (by decide)) (.single (turn_quoted (by decide) (by decide)))
    have hafter := readAll_of_reads hreads zs
    rw [cons_append, cons_append, nil_append, hin] at hafter
    obtain ⟨fs, hfs, rfl⟩ := map_eq_some_iff.mp hafter.symm
    exact hsign ((pending_isPrefix hfs).mem (by simp [pending]))
  obtain ⟨m, hm, hmread⟩ := tracks_of_le tracks_gap hread (by simp)
  rw [nil_append] at hm
  rw [readAll_cons, bind_eq_some_iff] at hmread
  obtain ⟨r, hturn, hrest⟩ := hmread
  obtain ⟨fs, hfs, heq⟩ := map_eq_some_iff.mp hrest
  cases m with
  | gap =>
    cases hturn
    subst heq
    have hreads : Reads d .gap ['2', '>'] [] (.operator ['2', '>']) := rfl
    rw [show '2' :: '>' :: ys = ['2', '>'] ++ ys from rfl, readAll_of_reads hreads] at hfs
    exact absurd (by simpa using hfs) (readAll_ne_word_of_op (.inr ⟨['2', '>'], rfl⟩))
  | bare w =>
    have hmode : turn d (.bare w) ' ' = some ([.word w], .gap) := rfl
    cases hmode.symm.trans hturn
    have hw := Lexeme.word.inj (cons.inj heq).1
    exact hm.2 (by rw [hw])
  | quoted w =>
    have hmode : turn d (.quoted w) ' ' = some ([], .quoted (w ++ [' '])) :=
      turn_quoted (by decide) (by decide)
    cases hmode.symm.trans hturn
    subst heq
    exact absurd hfs (hquoted _ ys)
  | quotedEscape w =>
    cases hturn
    subst heq
    exact absurd hfs (hquoted _ ys)
  | escaped w =>
    have hmode : turn d (.escaped w) ' ' = some ([], .bare (w ++ [' '])) := by
      have hblank : Char.isAlphanum ' ' = false := by decide
      simp [turn, hblank]
    cases hmode.symm.trans hturn
    subst heq
    have hreads : Reads d (.bare (w ++ [' '])) ['2', '>'] [.word (w ++ [' '] ++ ['2'])]
        (.operator ['>']) := by
      refine .step (turnBare_ordinary (by decide)) (.single ?_)
      simp [turn, turnBare, isBlank, isOperatorChar]
    rw [show '2' :: '>' :: ys = ['2', '>'] ++ ys from rfl, readAll_of_reads hreads] at hfs
    obtain ⟨gs, -, heq⟩ := map_eq_some_iff.mp hfs
    have hname := Lexeme.word.inj (cons.inj heq).1
    -- the last character of the name would have to be a backslash
    have hlast := hm.2
    rw [← hname] at hlast
    simp at hlast
  | comment =>
    cases hturn
    subst heq
    exact absurd hfs (readAll_ne_word_of_op (.inl rfl))
  | operator t =>
    rcases turn_cases hturn with ⟨hnil, -⟩ | ⟨v, gs, hv, -⟩ | ⟨o, gs, hop⟩
    · rw [turn] at hturn
      split_ifs at hturn
      · cases hturn
        cases hnil
      · obtain ⟨s, _, rfl⟩ := map_eq_some_iff.mp hturn
        cases hnil
    · cases hv
    · rw [hop] at heq
      cases heq

/-! ## The first word of a command -/

theorem collect_first {redir : Option (List Char)} {cmd : Command}
    (h : collect redir cmd es = some cs) (hne : cmd.parts ≠ []) :
    ∃ c rest, cs = c :: rest ∧ cmd.parts <+: c.parts := by
  induction es generalizing redir cmd with
  | nil =>
    rw [collect] at h
    split_ifs at h
    cases h
    exact ⟨cmd, [], by simp [Command.emit, hne], prefix_refl _⟩
  | cons e rest ih =>
    cases e with
    | word w =>
      have hlonger : ∀ p : Part, collect none ⟨cmd.connector, cmd.parts ++ [p]⟩ rest = some cs →
          ∃ c rest, cs = c :: rest ∧ cmd.parts <+: c.parts := by
        intro p hp
        obtain ⟨c, cs', hcs, hpre⟩ := ih hp (by simp)
        exact ⟨c, cs', hcs, (prefix_append _ _).trans hpre⟩
      cases redir with
      | none | some o => exact hlonger _ h
    | op o =>
      rw [collect] at h
      split_ifs at h
      · exact ih h hne
      · obtain ⟨cs', -, rfl⟩ := map_eq_some_iff.mp h
        exact ⟨cmd, cs', by simp [Command.emit, hne], prefix_refl _⟩

/-- **The word after the words of a call.** -/
theorem readAll_of_commands {before text : List Char} {ws : List (List Char)} {more : List Part}
    (hws : ws ≠ []) (hbefore : Reads d .gap before (ws.map .word) .gap)
    (h : commands d (before ++ text) = some (⟨newline, ws.map .word ++ .word w :: more⟩ :: cs)) :
    ∃ es, readAll d .gap text = some (.word w :: es) := by
  have hlex : lexemes d (before ++ text) = (readAll d .gap text).map (ws.map .word ++ ·) :=
    readAll_of_reads hbefore text
  rw [commands, hlex] at h
  cases htext : readAll d .gap text with
  | none => simp [htext] at h
  | some es =>
    have hne : ws.map Part.word ≠ [] := by simpa using hws
    rw [htext, map_some, bind_some, Command.fresh, collect_words, nil_append] at h
    -- the command has these words, and then what the text begins with
    have hnext : ∀ (p : Part) (rest : List Lexeme),
        collect none ⟨newline, ws.map .word ++ [p]⟩ rest =
          some (⟨newline, ws.map .word ++ .word w :: more⟩ :: cs) → p = .word w := by
      intro p rest hp
      obtain ⟨c, cs', hcs, t, ht⟩ := collect_first hp (by simp)
      obtain ⟨rfl, -⟩ := cons.inj hcs
      rw [append_assoc, append_cancel_left_eq] at ht
      exact (cons.inj ht).1
    cases es with
    | nil =>
      rw [collect, if_pos rfl, Command.emit, if_neg hne] at h
      have hparts := congrArg Command.parts (cons.inj (some.inj h)).1
      simp at hparts
    | cons e rest =>
      cases e with
      | word w' =>
        exact ⟨rest, by rw [Part.word.inj (hnext (.word w') rest h)]⟩
      | op o =>
        exfalso
        rw [collect] at h
        split_ifs at h
        · cases rest with
          | nil => simp [collect] at h
          | cons e' rest' =>
            cases e' with
            | op o' => simp [collect] at h
            | word f => cases hnext (.redirect o f) rest' h
        · obtain ⟨cs', -, hcs⟩ := map_eq_some_iff.mp h
          rw [Command.emit, if_neg hne] at hcs
          have hparts := congrArg Command.parts (cons.inj hcs).1
          simp at hparts

end ShellReader
