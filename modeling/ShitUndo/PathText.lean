import ShitUndo.Shim

/-!
# Paths and their text

`PathBuf.ofString` reads a path, `PathBuf.display` writes one. A path that was read (`Proper`) and
written is read back as it was; a file name joined onto a directory is one more component, and so
is a whole relative path.
-/

namespace ShitUndo

open List Component

/-! ## Names -/

/-- A name an entry of a directory can have. -/
structure ValidName (name : String) : Prop where
  ne_empty : name ≠ ""
  no_slash : '/' ∉ name.toList
  ne_dot : name ≠ "."
  ne_dotdot : name ≠ ".."

/-- A component that may stand anywhere in a path. -/
def Component.Inner : Component → Prop
  | .parentDir => True
  | .normal name => ValidName name
  | _ => False

/-- The absolute path of a list of names. -/
def PathBuf.absolute (names : List String) : PathBuf := .rootDir :: names.map .normal

theorem PathBuf.absolute_inj {names names' : List String} :
    absolute names = absolute names' ↔ names = names' := by
  constructor
  · intro h
    exact map_injective_iff.mpr (fun _ _ => normal.inj) (cons.inj h).2
  · rintro rfl
    rfl

namespace PathBuf

/-- The component of a piece between two slashes, after the first. -/
def innerOf (piece : List Char) : Option Component :=
  if piece = [] then none
  else if piece = ['.'] then none
  else if piece = ['.', '.'] then some .parentDir
  else some (.normal (String.ofList piece))

/-- The component of the first piece of a relative path. -/
def firstOf (piece : List Char) : Option Component :=
  if piece = ['.'] then some .curDir else innerOf piece

variable {s : String} {pieces : List (List Char)}

theorem ofString_of_absolute (hs : s.toList.splitOn '/' = [] :: pieces) (hne : pieces ≠ []) :
    ofString s = .rootDir :: pieces.filterMap innerOf := by
  have hhead : s.toList.head? = some '/' := by
    have htext : ['/'].intercalate (s.toList.splitOn '/') = s.toList :=
      intercalate_splitOn '/'
    rw [hs] at htext
    cases pieces with
    | nil => exact absurd rfl hne
    | cons piece rest => exact htext ▸ rfl
  rw [splitOn] at hs
  simp only [ofString, hs, hhead]
  rfl

theorem ofString_of_relative {first : List Char} (hs : s.toList.splitOn '/' = first :: pieces)
    (hne : first ≠ []) :
    ofString s = (firstOf first).toList ++ pieces.filterMap innerOf := by
  have hhead : s.toList.head? ≠ some '/' := by
    intro hslash
    obtain ⟨rest, hrest⟩ := head?_eq_some_iff.mp hslash
    rw [hrest, splitOn, splitOnP_cons_eq_if_modifyHead] at hs
    exact hne (cons.inj hs).1.symm
  rw [splitOn] at hs
  have hrel : (s.toList.head? == some '/') = false := by simpa using hhead
  simp only [ofString, hs, hrel]
  by_cases hdot : first = ['.']
  · simp [firstOf, hdot]
    rfl
  · simp [firstOf, innerOf, hne, hdot]
    rfl

/-! ## Written and read back -/

variable {c : Component}

theorem innerOf_text (hc : c.Inner) : innerOf c.text.toList = some c := by
  cases c with
  | rootDir => cases hc
  | curDir => cases hc
  | parentDir => decide
  | normal name =>
    have hlist : ∀ l : List Char, name.toList = l → name = String.ofList l := by
      intro l hl
      rw [← hl, String.ofList_toList]
    have hempty : name.toList ≠ [] := fun hnil => hc.ne_empty (hlist [] hnil)
    have hdot : name.toList ≠ ['.'] := fun hdot => hc.ne_dot (hlist ['.'] hdot)
    have hdotdot : name.toList ≠ ['.', '.'] := fun hdots => hc.ne_dotdot (hlist ['.', '.'] hdots)
    simp [innerOf, text, hempty, hdot, hdotdot, String.ofList_toList]

theorem Inner.no_slash (hc : c.Inner) : '/' ∉ c.text.toList := by
  cases c with
  | rootDir => cases hc
  | curDir => cases hc
  | parentDir => decide
  | normal name => exact hc.no_slash

theorem filterMap_innerOf {comps : List Component} (hall : ∀ c ∈ comps, c.Inner) :
    (comps.map fun c => c.text.toList).filterMap innerOf = comps := by
  induction comps with
  | nil => rfl
  | cons c rest ih =>
    rw [map_cons, filterMap_cons_some (innerOf_text (hall c mem_cons_self)),
      ih fun c' hc' => hall c' (mem_cons_of_mem c hc')]

theorem filter_ne_curDir {comps : List Component} (hall : ∀ c ∈ comps, c.Inner) :
    comps.filter (fun c => c ≠ .curDir) = comps := by
  refine filter_eq_self.mpr fun c hc => ?_
  cases c with
  | curDir => exact absurd (hall _ hc) id
  | _ => rfl

/-- A path as it is read: the root or a dot only in front, and names that can be names. -/
inductive Proper : PathBuf → Prop
  | absolute {comps : List Component} (hall : ∀ c ∈ comps, c.Inner) : Proper (.rootDir :: comps)
  | dotted {comps : List Component} (hall : ∀ c ∈ comps, c.Inner) : Proper (.curDir :: comps)
  | relative {c : Component} {comps : List Component} (hall : ∀ c' ∈ c :: comps, c'.Inner) :
      Proper (c :: comps)

variable {p : PathBuf}

theorem Proper.validName (hp : Proper p) {name : String} (hname : .normal name ∈ p) :
    ValidName name := by
  cases hp with
  | absolute hall | dotted hall => exact hall _ ((mem_cons.mp hname).resolve_left (by simp))
  | relative hall => exact hall _ hname

theorem splitOn_display (hroot : p ≠ [.rootDir]) (hne : p ≠ [])
    (hslash : ∀ c ∈ p, '/' ∉ c.text.toList) :
    p.display.toList.splitOn '/' = p.map fun c => c.text.toList := by
  have hdisplay : p.display = "/".intercalate (p.map text) := by
    unfold display
    split
    · exact absurd rfl hroot
    · rfl
  rw [hdisplay, String.toList_intercalate, map_map]
  refine splitOn_intercalate '/' ?_ ?_
  · intro piece hpiece
    obtain ⟨c, hc, rfl⟩ := mem_map.mp hpiece
    exact hslash c hc
  · simpa using hne

/-- **A path that is written is read back.** -/
theorem ofString_display (hp : Proper p) : ofString p.display = p := by
  cases hp with
  | @absolute comps hall =>
    by_cases hnil : comps = []
    · subst hnil
      decide
    have hsplit : (display (.rootDir :: comps)).toList.splitOn '/' =
        [] :: comps.map fun c => c.text.toList := by
      refine splitOn_display (by simpa using hnil) (cons_ne_nil _ _) ?_
      intro c hc
      rcases mem_cons.mp hc with rfl | hc
      · exact not_mem_nil
      · exact Inner.no_slash (hall c hc)
    rw [ofString_of_absolute hsplit (by simpa using hnil), filterMap_innerOf hall]
  | @dotted comps hall =>
    have hsplit : (display (.curDir :: comps)).toList.splitOn '/' =
        ['.'] :: comps.map fun c => c.text.toList := by
      refine splitOn_display (by simp) (cons_ne_nil _ _) ?_
      intro c hc
      rcases mem_cons.mp hc with rfl | hc
      · decide
      · exact Inner.no_slash (hall c hc)
    rw [ofString_of_relative hsplit (cons_ne_nil _ _), filterMap_innerOf hall]
    rfl
  | @relative first comps hall =>
    have hinner := hall first mem_cons_self
    have hsplit : (display (first :: comps)).toList.splitOn '/' =
        first.text.toList :: comps.map fun c => c.text.toList := by
      refine splitOn_display ?_ (cons_ne_nil _ _) fun c hc => Inner.no_slash (hall c hc)
      rintro heq
      rw [(cons.inj heq).1] at hinner
      cases hinner
    have htext := innerOf_text hinner
    have hne : first.text.toList ≠ [] := by
      intro hnil
      rw [hnil] at htext
      cases htext
    have hfirst : firstOf first.text.toList = some first := by
      rw [firstOf, if_neg, htext]
      intro hdot
      rw [hdot] at htext
      cases htext
    rw [ofString_of_relative hsplit hne, hfirst,
      filterMap_innerOf fun c hc => hall c (mem_cons_of_mem first hc)]
    rfl

/-! ## What is read is proper -/

theorem no_slash_of_mem_splitOn {chars piece : List Char} (h : piece ∈ chars.splitOn '/') :
    '/' ∉ piece := by
  induction chars generalizing piece with
  | nil =>
    rw [splitOn_nil, mem_singleton] at h
    rw [h]
    exact not_mem_nil
  | cons c rest ih =>
    rw [splitOn_cons_eq_if_modifyHead] at h
    split_ifs at h with hc
    · rcases mem_cons.mp h with rfl | h
      · exact not_mem_nil
      · exact ih h
    cases hsplit : rest.splitOn '/' with
    | nil =>
      rw [hsplit] at h
      cases h
    | cons first pieces =>
      rw [hsplit] at h ih
      rcases mem_cons.mp h with rfl | h
      · intro hslash
        rcases mem_cons.mp hslash with heq | hslash
        · exact hc (by simp [← heq])
        · exact ih mem_cons_self hslash
      · exact ih (mem_cons_of_mem first h)

theorem inner_of_innerOf {piece : List Char} (hslash : '/' ∉ piece) (hc : innerOf piece = some c) :
    c.Inner := by
  unfold innerOf at hc
  split_ifs at hc with hempty hdot hdotdot
  · cases hc
    trivial
  cases hc
  have hne : ∀ text : String, piece ≠ text.toList → String.ofList piece ≠ text := by
    rintro text hne rfl
    exact hne String.toList_ofList.symm
  exact ⟨hne "" hempty, by rwa [String.toList_ofList], hne "." hdot, hne ".." hdotdot⟩

theorem inner_of_mem_filterMap (hslash : ∀ piece ∈ pieces, '/' ∉ piece) :
    ∀ c ∈ pieces.filterMap innerOf, c.Inner := by
  intro c hc
  obtain ⟨piece, hpiece, hinner⟩ := mem_filterMap.mp hc
  exact inner_of_innerOf (hslash piece hpiece) hinner

/-- What is read: nothing, an absolute path, or a relative one. -/
inductive ReadAs (s : String) : PathBuf → Prop
  | nothing (hs : s = "") : ReadAs s []
  | absolute {comps : List Component} (hs : s.toList.head? = some '/')
      (hall : ∀ c ∈ comps, c.Inner) : ReadAs s (.rootDir :: comps)
  | relative {first : Component} {comps : List Component} (hs : s.toList.head? ≠ some '/')
      (hfirst : first = .curDir ∨ first.Inner) (hall : ∀ c ∈ comps, c.Inner) :
      ReadAs s (first :: comps)

theorem readAs_ofString (s : String) : ReadAs s (ofString s) := by
  have hslash : ∀ piece ∈ s.toList.splitOn '/', '/' ∉ piece := fun _ => no_slash_of_mem_splitOn
  have htext : ['/'].intercalate (s.toList.splitOn '/') = s.toList :=
    intercalate_splitOn '/'
  cases hsplit : s.toList.splitOn '/' with
  | nil => exact absurd hsplit (splitOn_ne_nil _ _)
  | cons first pieces =>
    rw [hsplit] at hslash htext
    have hrest := inner_of_mem_filterMap fun piece hp =>
      hslash piece (mem_cons_of_mem first hp)
    by_cases hfirst : first = []
    · subst hfirst
      cases pieces with
      | nil =>
        have hs : s = "" := by rw [← String.ofList_toList (s := s), ← htext]; rfl
        rw [hs]
        exact .nothing rfl
      | cons piece pieces =>
        rw [ofString_of_absolute hsplit (cons_ne_nil _ _)]
        exact .absolute (htext ▸ rfl) hrest
    · have hhead : s.toList.head? ≠ some '/' := by
        rw [← htext]
        cases first with
        | nil => exact absurd rfl hfirst
        | cons c chars =>
          intro hc
          refine hslash _ mem_cons_self ?_
          cases pieces <;> cases hc <;> exact mem_cons_self
      rw [ofString_of_relative hsplit hfirst]
      by_cases hdot : first = ['.']
      · subst hdot
        exact .relative hhead (.inl rfl) hrest
      cases hinner : innerOf first with
      | none => simp [innerOf, hfirst, hdot] at hinner; split at hinner <;> cases hinner
      | some c =>
        rw [firstOf, if_neg hdot, hinner]
        exact .relative hhead (.inr (inner_of_innerOf (hslash first mem_cons_self) hinner)) hrest

/-- **What is read is proper.** -/
theorem proper_ofString (hne : ofString s ≠ []) : Proper (ofString s) := by
  have hread := readAs_ofString s
  generalize ofString s = p at hread hne
  cases hread with
  | nothing => exact absurd rfl hne
  | absolute _ hall => exact .absolute hall
  | relative _ hfirst hall =>
    rcases hfirst with rfl | hinner
    · exact .dotted hall
    · refine .relative fun c hc => ?_
      rcases mem_cons.mp hc with rfl | hc
      · exact hinner
      · exact hall c hc

theorem head?_ofString_iff : (ofString s).head? = some .rootDir ↔ s.toList.head? = some '/' := by
  have hread := readAs_ofString s
  generalize ofString s = p at hread
  cases hread with
  | nothing hs =>
    rw [hs]
    decide
  | absolute hs _ => exact ⟨fun _ => hs, fun _ => rfl⟩
  | relative hs hfirst _ =>
    refine ⟨fun hroot => ?_, fun hslash => absurd hslash hs⟩
    rw [Option.some.inj hroot] at hfirst
    rcases hfirst with hcur | hinner
    · cases hcur
    · cases hinner

theorem Proper.dropLast (hp : Proper p) (hne : p.dropLast ≠ []) : Proper p.dropLast := by
  cases hp with
  | @absolute comps hall =>
    cases comps with
    | nil => exact absurd rfl hne
    | cons c rest => exact .absolute fun c' hc' => hall c' (mem_of_mem_dropLast hc')
  | @dotted comps hall =>
    cases comps with
    | nil => exact absurd rfl hne
    | cons c rest => exact .dotted fun c' hc' => hall c' (mem_of_mem_dropLast hc')
  | @relative first comps hall =>
    cases comps with
    | nil => exact absurd rfl hne
    | cons c rest => exact .relative fun c' hc' => hall c' (mem_of_mem_dropLast hc')

/-! ## Joining -/

variable {names : List String}

theorem filterMap_splitOn {path : String} (hrel : path.toList.head? ≠ some '/') :
    (path.toList.splitOn '/').filterMap innerOf = (ofString path).filter fun c => c ≠ .curDir := by
  cases hsplit : path.toList.splitOn '/' with
  | nil => exact absurd hsplit (splitOn_ne_nil _ _)
  | cons first pieces =>
    have hinner : ∀ c ∈ pieces.filterMap innerOf, c.Inner := by
      refine inner_of_mem_filterMap fun piece hp => ?_
      exact no_slash_of_mem_splitOn (hsplit ▸ mem_cons_of_mem first hp)
    have hrest : (pieces.filterMap innerOf).filter (fun c => c ≠ .curDir) =
        pieces.filterMap innerOf := filter_ne_curDir hinner
    by_cases hfirst : first = []
    · subst hfirst
      have htext : ['/'].intercalate (path.toList.splitOn '/') = path.toList :=
        intercalate_splitOn '/'
      rw [hsplit] at htext
      cases pieces with
      | nil =>
        have hpath : path = "" := by rw [← String.ofList_toList (s := path), ← htext]; rfl
        rw [hpath]
        decide
      | cons piece pieces =>
        refine absurd ?_ hrel
        rw [← htext]
        rfl
    · rw [ofString_of_relative hsplit hfirst, filter_append, hrest]
      by_cases hdot : first = ['.']
      · subst hdot
        rfl
      rw [firstOf, if_neg hdot]
      cases hc : innerOf first with
      | none => rw [filterMap_cons_none hc]; rfl
      | some c =>
        have hslash : '/' ∉ first := no_slash_of_mem_splitOn (hsplit ▸ mem_cons_self)
        rw [filterMap_cons_some hc]
        cases c with
        | curDir => exact absurd (inner_of_innerOf hslash hc) id
        | _ => rfl

section

variable (hnames : ∀ name ∈ names, ValidName name)

include hnames

theorem proper_absolute : Proper (absolute names) := by
  refine .absolute ?_
  intro c hc
  obtain ⟨name, hname, rfl⟩ := mem_map.mp hc
  exact hnames name hname

theorem splitOn_joinName (path : String) :
    (joinName (absolute names).display path).toList.splitOn '/' =
      [] :: (names.map String.toList ++ path.toList.splitOn '/') := by
  by_cases hnil : names = []
  · -- the text of the root ends in a slash
    subst hnil
    have htext : (joinName (absolute []).display path).toList = [] ++ '/' :: path.toList := by
      have hjoin : joinName (absolute []).display path = "/" ++ path := if_pos (by decide)
      rw [hjoin, String.toList_append]
      rfl
    rw [htext, splitOn_append_cons_self]
    rfl
  · have hsplit : (absolute names).display.toList.splitOn '/' = [] :: names.map String.toList := by
      rw [splitOn_display]
      · simp [absolute, text, Function.comp_def]
      · simpa [absolute] using hnil
      · exact cons_ne_nil _ _
      · intro c hc
        rcases mem_cons.mp hc with rfl | hc
        · exact not_mem_nil
        · obtain ⟨name, hname, rfl⟩ := mem_map.mp hc
          exact (hnames name hname).no_slash
    have hlast : (absolute names).display.toList.getLast? ≠ some '/' := by
      intro hslash
      obtain ⟨init, hinit⟩ := getLast?_eq_some_iff.mp hslash
      rw [hinit, splitOn_append_cons_self, splitOn_nil] at hsplit
      -- then the last name would be empty
      have hend := congrArg getLast? hsplit
      rw [getLast?_concat, getLast?_cons_of_ne_nil (by simpa using hnil), getLast?_map] at hend
      obtain ⟨name, hname, hempty⟩ := Option.map_eq_some_iff.mp hend.symm
      refine (hnames name (mem_of_getLast? hname)).ne_empty ?_
      rw [← String.ofList_toList (s := name), hempty]
    rw [joinName, if_neg hlast, String.toList_append, String.toList_append, append_assoc]
    have hslash : "/".toList ++ path.toList = '/' :: path.toList := rfl
    rw [hslash, splitOn_append_cons_self, hsplit]
    rfl

/-- **A relative path joined onto a directory** continues it; a leading dot is lost. -/
theorem ofString_joinName {path : String} (hrel : path.toList.head? ≠ some '/') :
    ofString (joinName (absolute names).display path) =
      absolute names ++ (ofString path).filter fun c => c ≠ .curDir := by
  have hcomps : (names.map String.toList).filterMap innerOf = names.map .normal := by
    have hinner : ∀ c ∈ names.map normal, c.Inner := by
      intro c hc
      obtain ⟨name, hname, rfl⟩ := mem_map.mp hc
      exact hnames name hname
    have hall := filterMap_innerOf hinner
    rwa [map_map] at hall
  rw [ofString_of_absolute (splitOn_joinName hnames path) (by simp), filterMap_append, hcomps,
    filterMap_splitOn hrel]
  rfl

theorem joinName_display {name : String} (hname : ValidName name) :
    joinName (absolute names).display name = (absolute (names ++ [name])).display := by
  have hsplit := splitOn_joinName hnames name
  rw [splitOn_eq_singleton hname.no_slash] at hsplit
  have hother : (absolute (names ++ [name])).display.toList.splitOn '/' =
      [] :: (names.map String.toList ++ [name.toList]) := by
    rw [splitOn_display]
    · simp [absolute, text, Function.comp_def]
    · simp [absolute]
    · exact cons_ne_nil _ _
    · intro c hc
      rcases mem_cons.mp hc with rfl | hc
      · exact not_mem_nil
      obtain ⟨n, hn, rfl⟩ := mem_map.mp hc
      rcases mem_append.mp hn with hn | hn
      · exact (hnames n hn).no_slash
      · rw [mem_singleton.mp hn]
        exact hname.no_slash
  have htext : ∀ t : String, ['/'].intercalate (t.toList.splitOn '/') = t.toList := fun _ =>
    intercalate_splitOn '/'
  rw [← String.toList_inj, ← htext, hsplit, ← hother, htext]

end

theorem display_injective {q : PathBuf} (hp : Proper p) (hq : Proper q)
    (heq : p.display = q.display) : p = q := by
  rw [← ofString_display hp, heq, ofString_display hq]

end PathBuf

end ShitUndo
