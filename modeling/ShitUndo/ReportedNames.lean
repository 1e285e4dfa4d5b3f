import ShitUndo.ShimNames

/-!
# Under which name a call is reported

`unlink` and `rename` act on directory entries: the kernel resolves the parent of a path and takes
the last component as it is. The shim canonicalizes, and that follows a symlink in the last
component too.

* `NameCall.entries`: the entries the kernel acts on;
* `ReportsEntries`: the call is reported under the paths of these entries, unless it is one that the
  shim leaves out on purpose.
-/

namespace ShitUndo

open List Option Fs PathBuf Component PathWalk Process NameCall

open PathWalk (Settled settled_of_dir)

/-! ## The entries of a call -/

/-- The directory a relative path argument starts from. -/
def Process.baseOf (proc : Process) : DirFd → Option (List String)
  | .cwd => some proc.cwd
  | .fd n => proc.dirOf n

/-- The entry the kernel finds for a path argument, from the descriptor's directory. -/
def Process.entryAt (proc : Process) (fs : Fs) (dirfd : DirFd) (path : String) :
    Option (List String) :=
  if isAbsoluteText path then fs.entryFrom [] path
  else (proc.baseOf dirfd).bind fun base => fs.entryFrom base path

/-- The entries a call acts on, if the kernel takes it. -/
def NameCall.entries (proc : Process) (fs : Fs) : NameCall → Option (List (List String))
  | .unlink path => (proc.entryAt fs .cwd path).map fun e => [e]
  | .unlinkat dirfd path => (proc.entryAt fs dirfd path).map fun e => [e]
  | .rename src dst =>
    (proc.entryAt fs .cwd src).bind fun e => (proc.entryAt fs .cwd dst).map fun e' => [e, e']
  | .renameat srcfd src dstfd dst =>
    (proc.entryAt fs srcfd src).bind fun e => (proc.entryAt fs dstfd dst).map fun e' => [e, e']

/-- What the shim leaves out on purpose: names below the skipped directories, and a rename of an
entry onto itself, of which the kernel makes nothing. -/
def LeftOut : List (List String) → Prop
  | [e] => shouldSkipPath (absolute e).display = true
  | [e, e'] => e = e'
  | _ => False

/-- The report has the paths of these entries; without a report they are left out on purpose. -/
def NamesEntries (entries : List (List String)) : Option NameReport → Prop
  | some r => r.paths.map ofString = entries.map absolute
  | none => LeftOut entries

def ReportsEntries (proc : Process) (h : Host) (fs : Fs) (call : NameCall)
    (entries : List (List String)) : Prop :=
  NamesEntries entries (call.notify proc h fs)

/-- A tree as a file system has it: rooted, and every name can be one. -/
structure Fs.ValidTree (fs : Fs) : Prop where
  wellFormed : fs.WellFormed
  names : ∀ names, fs.kindAt (.absolute names) ≠ none → ∀ name ∈ names, ValidName name

/-! ## Resolution in a tree -/

variable {proc : Process} {h : Host} {path name : String} {fs : Fs} {dirfd : DirFd}

section Resolution

variable {base d e q : List String} {left : Nat}

theorem Fs.pathTree_ne_none_iff : fs.pathTree d ≠ none ↔ fs.kindAt (.absolute d) ≠ none := by
  simp [pathTree, kindAt]

theorem Fs.pathTree_eq_dir_iff :
    fs.pathTree d = some .dir ↔ fs.kindAt (.absolute d) = some .directory := by
  cases hn : fs.node (.absolute d) with
  | none => simp [pathTree, kindAt, hn]
  | some n => cases hk : n.kind <;> simp [pathTree, kindAt, hn, Inode.pathNode, hk]

theorem Fs.pathTree_link_iff :
    (∃ target, fs.pathTree d = some (.link target)) ↔ fs.kindAt (.absolute d) = some .symlink := by
  cases hn : fs.node (.absolute d) with
  | none => simp [pathTree, kindAt, hn]
  | some n => cases hk : n.kind <;> simp [pathTree, kindAt, hn, Inode.pathNode, hk]

theorem PathBuf.absolute_concat (d : List String) (name : String) :
    absolute (d ++ [name]) = absolute d ++ [.normal name] := by
  simp [absolute]

theorem Fs.WellFormed.grounded (hwf : fs.WellFormed) : PathWalk.Grounded fs.pathTree where
  root := pathTree_eq_dir_iff.mpr hwf.root
  inside := by
    intro place name hthere
    rw [pathTree_ne_none_iff, absolute_concat] at hthere
    obtain ⟨kind, hkind⟩ := ne_none_iff_exists'.mp hthere
    obtain ⟨k, hk, rfl⟩ := hwf.rooted (PathBuf.absolute place) (.normal name) kind
      (cons_ne_nil _ _) hkind
    exact pathTree_eq_dir_iff.mpr hk

theorem map_step_absolute (names : List String) :
    (absolute names).map step = .root :: names.map .down := by
  simp [absolute, step, Function.comp_def]

/-- An entry: a name in the directory its parent path leads to. -/
structure Fs.IsEntry (fs : Fs) (base : List String) (path : String) (d : List String)
    (name : String) (left : Nat) : Prop where
  last : (ofString path).getLast? = some (.normal name)
  parent : PathWalk.walk fs.pathTree maxSymlinks base ((ofString path).dropLast.map step)
    = .ok (d, left)
  dir : fs.pathTree d = some .dir

theorem Fs.entryFrom_eq_some_iff :
    fs.entryFrom base path = some e ↔
      ∃ d name left, fs.IsEntry base path d name left ∧ e = d ++ [name] := by
  constructor
  · intro hentry
    unfold entryFrom at hentry
    dsimp only at hentry
    split at hentry
    · rename_i name hlast
      split at hentry
      · rename_i d left hwalk
        split at hentry
        · rename_i hdir
          exact ⟨d, name, left, ⟨hlast, hwalk, hdir⟩, (some.inj hentry).symm⟩
        · cases hentry
      · cases hentry
    · cases hentry
  · rintro ⟨d, name, left, hentry, rfl⟩
    simp only [entryFrom, hentry.last, hentry.parent, hentry.dir]

section LastName

variable (hlast : (ofString path).getLast? = some (.normal name))

include hlast

theorem PathBuf.comps_eq : ofString path = (ofString path).dropLast ++ [.normal name] :=
  (dropLast_append_getLast? _ hlast).symm

theorem PathBuf.proper_of_last : (ofString path).Proper := by
  refine proper_ofString ?_
  rw [comps_eq hlast]
  simp

theorem PathBuf.validName_of_last : ValidName name :=
  (proper_of_last hlast).validName (mem_of_getLast? hlast)

theorem PathBuf.ne_empty_of_last : path ≠ "" := by
  rintro rfl
  have hnil : ofString "" = [] := by decide
  rw [hnil] at hlast
  cases hlast

end LastName

namespace Fs.IsEntry

variable (hentry : fs.IsEntry base path d name left)

include hentry

theorem stepsOf_eq : stepsOf path = (ofString path).dropLast.map step ++ [.down name] := by
  rw [stepsOf]
  conv_lhs => rw [comps_eq hentry.last]
  rw [map_append]
  rfl

theorem walkFrom_eq : fs.walkFrom base path = PathWalk.walk fs.pathTree left d [.down name] := by
  rw [walkFrom, hentry.stepsOf_eq, walk_append_of_ok hentry.parent]

theorem walkFrom_of_ne_symlink (hthere : fs.kindAt (.absolute (d ++ [name])) ≠ none)
    (hlink : fs.kindAt (.absolute (d ++ [name])) ≠ some .symlink) :
    fs.walkFrom base path = .ok (d ++ [name], left) := by
  rw [hentry.walkFrom_eq]
  refine walk_down_of_ne_link hentry.dir (pathTree_ne_none_iff.mpr hthere) ?_
  intro target htarget
  exact hlink (pathTree_link_iff.mp ⟨target, htarget⟩)

end Fs.IsEntry

/-! ## What the shim makes of a path -/

/-- The path to the directory of a path argument. -/
def parentSteps (path : String) : List (PathWalk.Step String) :=
  if (ofString path).dropLast = [] then [.here] else (ofString path).dropLast.map step

/-- Where a path leads: to a place if all of it resolves, and else to its last name at the place
its parent path leads to. -/
def Fs.leadsFrom (fs : Fs) (base : List String) (path : String) : Option (List String) :=
  match fs.walkFrom base path with
  | .ok (q, _) => some q
  | .error _ =>
    match (ofString path).fileName,
      PathWalk.walk fs.pathTree maxSymlinks base (parentSteps path) with
    | some name, .ok (d, _) => some (d ++ [name])
    | _, _ => none

/-- The text `canonicalize` makes of a walk. -/
def canonicalText : Except WalkError (List String × Nat) → Except String String
  | .ok (place, _) => .ok (absolute place).display
  | .error e => .error (walkErrorText e)

theorem Fs.canonicalize_eq (hne : path ≠ "") :
    canonicalize base fs path = canonicalText (fs.walkFrom base path) := by
  rw [canonicalize, if_neg hne]
  rfl

theorem Fs.canonicalize_parent (hlast : (ofString path).getLast? = some (.normal name)) :
    canonicalize base fs (if (ofString path).dropLast = [] then "."
      else display (ofString path).dropLast) =
      canonicalText (PathWalk.walk fs.pathTree maxSymlinks base (parentSteps path)) := by
  by_cases hnil : (ofString path).dropLast = []
  · have hdot : stepsOf "." = [.here] := by decide
    rw [if_pos hnil, canonicalize_eq (by decide), walkFrom, hdot, parentSteps, if_pos hnil]
  · have hread := ofString_display ((proper_of_last hlast).dropLast hnil)
    have hne : display (ofString path).dropLast ≠ "" := by
      intro hempty
      rw [hempty] at hread
      exact hnil (hread.symm.trans (by decide))
    rw [if_neg hnil, canonicalize_eq hne, walkFrom, stepsOf, hread, parentSteps, if_neg hnil]

theorem parentSteps_ne_nil (path : String) : parentSteps path ≠ [] := by
  unfold parentSteps
  split_ifs with hnil
  · exact cons_ne_nil _ _
  · rwa [Ne, map_eq_nil_iff]

theorem Fs.settled_of_walk (hwf : fs.WellFormed) {steps : List (PathWalk.Step String)}
    (hne : steps ≠ []) (hwalk : PathWalk.walk fs.pathTree maxSymlinks base steps = .ok (q, left)) :
    Settled fs.pathTree q := by
  obtain ⟨step, rest, rfl⟩ := exists_cons_of_ne_nil hne
  exact walk_settled_of_cons hwf.grounded hwalk

/-- Where the last component of a path leads: through a symlink that resolves, or nowhere. -/
def Fs.leadsTo (fs : Fs) (base : List String) (path : String) (e : List String) : List String :=
  match fs.walkFrom base path with
  | .ok (q, _) => q
  | .error _ => e

/-- The last component is a symlink, and it resolves. -/
def Fs.FollowsLink (fs : Fs) (base : List String) (path : String) (e : List String) : Prop :=
  fs.kindAt (.absolute e) = some .symlink ∧ ∃ r, fs.walkFrom base path = .ok r

theorem Fs.leadsTo_eq_iff (hwf : fs.WellFormed) (hentry : fs.entryFrom base path = some e) :
    fs.leadsTo base path e = e ↔ ¬ fs.FollowsLink base path e := by
  obtain ⟨d, name, left, hat, rfl⟩ := entryFrom_eq_some_iff.mp hentry
  cases hwalk : fs.walkFrom base path with
  | error err => simp [leadsTo, Fs.FollowsLink, hwalk]
  | ok r =>
    obtain ⟨q, left'⟩ := r
    rw [hat.walkFrom_eq] at hwalk
    have hlast := walk_down_eq_iff hwf.grounded hat.dir hwalk
    rw [← hat.walkFrom_eq] at hwalk
    simp only [leadsTo, Fs.FollowsLink, hwalk, Except.ok.injEq, exists_eq', and_true]
    rw [hlast, ← pathTree_link_iff, not_exists]

theorem Fs.ValidTree.settledNames (htree : fs.ValidTree) (hq : Settled fs.pathTree q) :
    ∀ name ∈ q, ValidName name :=
  htree.names q (pathTree_ne_none_iff.mp hq.1)

theorem Fs.ValidTree.names_concat (htree : fs.ValidTree) (hdir : fs.pathTree d = some .dir)
    (hname : ValidName name) : ∀ n ∈ d ++ [name], ValidName n :=
  forall_mem_append.mpr
    ⟨htree.settledNames (settled_of_dir hdir), forall_mem_singleton.mpr hname⟩

theorem Fs.entryFrom_names (htree : fs.ValidTree) (hentry : fs.entryFrom base path = some e) :
    ∀ name ∈ e, ValidName name := by
  obtain ⟨d, name, left, hat, rfl⟩ := entryFrom_eq_some_iff.mp hentry
  exact htree.names_concat hat.dir (validName_of_last hat.last)

theorem Fs.leadsFrom_names (htree : fs.ValidTree)
    (hlast : (ofString path).getLast? = some (.normal name))
    (hleads : fs.leadsFrom base path = some q) : ∀ n ∈ q, ValidName n := by
  have hname := validName_of_last hlast
  unfold leadsFrom at hleads
  split at hleads
  · rename_i r left hwalk
    cases hleads
    refine htree.settledNames (settled_of_walk htree.wellFormed ?_ hwalk)
    rw [stepsOf, comps_eq hlast]
    simp
  · rw [fileName, hlast] at hleads
    split at hleads
    · rename_i name' d left heq hwalk
      cases heq
      cases hleads
      exact forall_mem_append.mpr ⟨htree.settledNames
        (settled_of_walk htree.wellFormed (parentSteps_ne_nil path) hwalk),
        forall_mem_singleton.mpr hname⟩
    · cases hleads

theorem Fs.leadsFrom_of_entry (hentry : fs.entryFrom base path = some e) :
    fs.leadsFrom base path = some (fs.leadsTo base path e) := by
  obtain ⟨d, name, left, hat, rfl⟩ := entryFrom_eq_some_iff.mp hentry
  cases hwalk : fs.walkFrom base path with
  | ok r => simp only [leadsFrom, leadsTo, hwalk]
  | error err =>
    have hparent : PathWalk.walk fs.pathTree maxSymlinks base (parentSteps path) =
        .ok (d, left) := by
      have hwalk := hat.parent
      unfold parentSteps
      split_ifs with hnil
      · rw [hnil, map_nil, walk_nil] at hwalk
        cases hwalk
        rw [walk_here hat.dir, walk_nil]
      · exact hwalk
    simp only [leadsFrom, leadsTo, hwalk, hparent, fileName, hat.last]

theorem Fs.leadsTo_names (htree : fs.ValidTree) (hentry : fs.entryFrom base path = some e) :
    ∀ name ∈ fs.leadsTo base path e, ValidName name := by
  obtain ⟨d, name, left, hat, rfl⟩ := entryFrom_eq_some_iff.mp hentry
  exact leadsFrom_names htree hat.last (leadsFrom_of_entry hentry)

/-- **`canonical_path`** is where the path leads, if it leads anywhere. -/
theorem canonicalPath_spec (proc : Process) (htree : fs.ValidTree)
    (hlast : (ofString path).getLast? = some (.normal name)) :
    (∀ q, fs.leadsFrom proc.cwd path = some q →
        canonicalPath proc.env fs path = .ok (absolute q).display) ∧
      (fs.leadsFrom proc.cwd path = none → ∃ err, canonicalPath proc.env fs path = .error err) := by
  have hcanon : proc.env.canonicalize fs path = canonicalText (fs.walkFrom proc.cwd path) :=
    canonicalize_eq (ne_empty_of_last hlast)
  have hparent : proc.env.canonicalize fs _ = _ := canonicalize_parent hlast
  cases hwalk : fs.walkFrom proc.cwd path with
  | ok r => simp [canonicalPath, hcanon, hwalk, leadsFrom, canonicalText]
  | error err =>
    cases hup : PathWalk.walk fs.pathTree maxSymlinks proc.cwd (parentSteps path) with
    | error err' =>
      simp [canonicalPath, hcanon, hwalk, leadsFrom, canonicalText, hup, hparent, fileName, hlast,
        PathBuf.parent]
    | ok r =>
      have hd := htree.settledNames
        (settled_of_walk htree.wellFormed (parentSteps_ne_nil path) hup)
      simp [canonicalPath, hcanon, hwalk, leadsFrom, canonicalText, hup, hparent, fileName, hlast,
        PathBuf.parent, joinName_display hd (validName_of_last hlast)]

/-- **`canonical_path` of a path the kernel takes.** -/
theorem canonicalPath_of_entry (proc : Process) (htree : fs.ValidTree)
    (hentry : fs.entryFrom proc.cwd path = some e) :
    canonicalPath proc.env fs path = .ok (absolute (fs.leadsTo proc.cwd path e)).display := by
  obtain ⟨d, name, left, hat, rfl⟩ := entryFrom_eq_some_iff.mp hentry
  exact (canonicalPath_spec proc htree hat.last).1 _ (leadsFrom_of_entry hentry)

/-! ## Paths relative to a descriptor -/

theorem isAbsoluteText_iff :
    isAbsoluteText path = true ↔ (ofString path).head? = some .rootDir := by
  rw [head?_ofString_iff, isAbsoluteText, decide_eq_true_iff]

theorem Fs.walkFrom_of_absolute (habs : isAbsoluteText path = true) (base base' : List String) :
    fs.walkFrom base path = fs.walkFrom base' path := by
  obtain ⟨comps, hcomps⟩ := head?_eq_some_iff.mp (isAbsoluteText_iff.mp habs)
  rw [walkFrom, walkFrom, stepsOf, hcomps]
  exact (walk_root _ _ _ _).trans (walk_root _ _ _ _).symm

theorem Fs.entryFrom_of_absolute (habs : isAbsoluteText path = true) (base base' : List String) :
    fs.entryFrom base path = fs.entryFrom base' path := by
  obtain ⟨comps, hcomps⟩ := head?_eq_some_iff.mp (isAbsoluteText_iff.mp habs)
  rcases eq_nil_or_concat comps with rfl | ⟨init, last, rfl⟩
  · simp [entryFrom, hcomps]
  have hwalk : ∀ b, PathWalk.walk fs.pathTree maxSymlinks b ((ofString path).dropLast.map step) =
        PathWalk.walk fs.pathTree maxSymlinks [] (init.map step) := by
    intro b
    rw [hcomps, concat_eq_append, ← cons_append, dropLast_concat]
    exact walk_root _ _ _ _
  simp only [entryFrom, hwalk]

theorem Fs.dir_of_walk {comps : List Component} (hroot : .rootDir ∉ comps)
    (hwalk : PathWalk.walk fs.pathTree maxSymlinks base (comps.map step) = .ok (d, left))
    (hdir : fs.pathTree d = some .dir) : fs.pathTree base = some .dir := by
  cases comps with
  | nil =>
    rw [map_nil, walk_nil] at hwalk
    cases hwalk
    exact hdir
  | cons c rest =>
    refine dir_of_walk_cons ?_ hwalk
    intro hstep
    cases c with
    | rootDir => exact hroot mem_cons_self
    | _ => cases hstep

theorem Fs.IsEntry.undotted (hentry : fs.IsEntry base path d name left)
    (hrel : isAbsoluteText path = false) :
    fs.pathTree base = some .dir ∧
      ∃ init, (ofString path).filter (fun c => c ≠ .curDir) = init ++ [.normal name] ∧
        PathWalk.walk fs.pathTree maxSymlinks base (init.map step) = .ok (d, left) := by
  have hcomps := comps_eq hentry.last
  have hparent := hentry.parent
  have hread := readAs_ofString path
  generalize hp : ofString path = p at hread hcomps hparent
  cases hread with
  | nothing => simp at hcomps
  | absolute hslash =>
    rw [isAbsoluteText, hslash] at hrel
    cases hrel
  | @relative first comps _ hfirst hall =>
    have hroot : rootDir ∉ first :: comps := by
      intro hmem
      rcases mem_cons.mp hmem with rfl | hmem
      · rcases hfirst with hcur | hinner
        · cases hcur
        · cases hinner
      · exact absurd (hall _ hmem) id
    have hbase := dir_of_walk (fun hmem => hroot (mem_of_mem_dropLast hmem)) hparent hentry.dir
    refine ⟨hbase, ?_⟩
    rcases hfirst with rfl | hinner
    · -- a leading dot stays where it is
      cases comps with
      | nil => cases hcomps
      | cons c rest =>
        rw [dropLast_cons_of_ne_nil (cons_ne_nil c rest)] at hcomps hparent
        refine ⟨(c :: rest).dropLast, ?_, ?_⟩
        · rw [filter_cons_of_neg (by simp), filter_ne_curDir hall]
          exact (cons.inj hcomps).2
        · rwa [map_cons, step, walk_here hbase] at hparent
    · refine ⟨(first :: comps).dropLast, ?_, hparent⟩
      rw [filter_ne_curDir]
      · exact hcomps
      · intro c hc
        rcases mem_cons.mp hc with rfl | hc
        · exact hinner
        · exact hall c hc

theorem Fs.IsEntry.ofString_join (htree : fs.ValidTree)
    (hentry : fs.IsEntry base path d name left) (hrel : isAbsoluteText path = false) :
    ofString (joinName (absolute base).display path) =
      absolute base ++ (ofString path).filter fun c => c ≠ .curDir := by
  obtain ⟨hdir, -⟩ := hentry.undotted hrel
  refine ofString_joinName (htree.settledNames (settled_of_dir hdir)) ?_
  intro hslash
  rw [isAbsoluteText, hslash] at hrel
  cases hrel

theorem Fs.IsEntry.isAbsoluteText_join (htree : fs.ValidTree)
    (hentry : fs.IsEntry base path d name left) (hrel : isAbsoluteText path = false) :
    isAbsoluteText (joinName (absolute base).display path) = true := by
  rw [isAbsoluteText_iff, hentry.ofString_join htree hrel]
  rfl

/-- A path joined onto the directory it is relative to names the same entry, from everywhere. -/
theorem Fs.IsEntry.join (htree : fs.ValidTree) (hentry : fs.IsEntry base path d name left)
    (hrel : isAbsoluteText path = false) (cwd : List String) :
    fs.IsEntry cwd (joinName (absolute base).display path) d name left := by
  obtain ⟨hdir, init, hinit, hwalk⟩ := hentry.undotted hrel
  have hcomps := hentry.ofString_join htree hrel
  rw [hinit, ← append_assoc] at hcomps
  refine ⟨?_, ?_, hentry.dir⟩
  · rw [hcomps, getLast?_concat]
  · have hroot := walk_names htree.wellFormed.grounded (settled_of_dir hdir) maxSymlinks
    rw [hcomps, dropLast_concat, map_append, map_step_absolute, cons_append,
      walk_root, walk_append_of_ok hroot, hwalk]

/-- The directory a path argument starts from; an absolute path starts from the root. -/
def Process.startOf (proc : Process) (dirfd : DirFd) (path : String) : List String :=
  if isAbsoluteText path then [] else (proc.baseOf dirfd).getD []

/-- The shim can tell where the path argument starts from. -/
def Process.Knows (proc : Process) (dirfd : DirFd) (path : String) : Prop :=
  isAbsoluteText path = true ∨ dirfd = .cwd ∨ ∃ n, dirfd = .fd n ∧ proc.fdReadable n = true

theorem Process.entryFrom_startOf (hentry : proc.entryAt fs dirfd path = some e) :
    fs.entryFrom (proc.startOf dirfd path) path = some e := by
  unfold entryAt at hentry
  unfold startOf
  split_ifs at hentry ⊢ with habs
  · exact hentry
  · obtain ⟨base, hbase, hentry⟩ := bind_eq_some_iff.mp hentry
    rw [hbase]
    exact hentry

/-- From the working directory, a path argument means to the shim what it means to the kernel. -/
theorem Process.startOf_cwd (proc : Process) (fs : Fs) (path : String) :
    fs.entryFrom proc.cwd path = fs.entryFrom (proc.startOf .cwd path) path ∧
      fs.walkFrom proc.cwd path = fs.walkFrom (proc.startOf .cwd path) path := by
  unfold startOf
  split_ifs with habs
  · exact ⟨entryFrom_of_absolute habs _ _, walkFrom_of_absolute habs _ _⟩
  · exact ⟨rfl, rfl⟩

theorem Fs.leadsTo_congr {base' : List String} {path' : String}
    (hwalk : fs.walkFrom base path = fs.walkFrom base' path') :
    fs.leadsTo base path e = fs.leadsTo base' path' e := by
  rw [leadsTo, leadsTo, hwalk]

/-- **What the shared resolver of the `*at` calls finds**: where the path leads, if the directory
can be told. -/
theorem resolveAtForNotify_of_knows (htree : fs.ValidTree)
    (hentry : proc.entryAt fs dirfd path = some e) (hknows : proc.Knows dirfd path)
    (whichArg : String) :
    resolveAtForNotify proc fs dirfd path whichArg =
      .resolved (absolute (fs.leadsTo (proc.startOf dirfd path) path e)).display := by
  have hfrom := entryFrom_startOf hentry
  -- the joined path is absolute or relative to the working directory, and names the same entry
  have hjoined : ∃ joined, joinAtPath proc dirfd path = joined ∧
      (isAbsoluteText joined = true ∨ dirfd = .cwd) ∧ fs.entryFrom proc.cwd joined = some e ∧
      fs.walkFrom proc.cwd joined = fs.walkFrom (proc.startOf dirfd path) path := by
    by_cases habs : isAbsoluteText path = true
    · refine ⟨path, by unfold joinAtPath; rw [if_pos habs], .inl habs, ?_, ?_⟩
      · rw [entryFrom_of_absolute habs _ (proc.startOf dirfd path), hfrom]
      · exact walkFrom_of_absolute habs _ _
    rcases hknows with hyes | rfl | ⟨n, rfl, hread⟩
    · exact absurd hyes habs
    · obtain ⟨hsame, hwalk⟩ := proc.startOf_cwd fs path
      have hjoin : joinAtPath proc .cwd path = path := by
        unfold joinAtPath
        rw [if_neg habs]
      exact ⟨path, hjoin, .inr rfl, hsame.trans hfrom, hwalk⟩
    · obtain ⟨base, hbase, hfound⟩ := bind_eq_some_iff.mp
        ((if_neg habs).symm.trans hentry : (proc.baseOf (.fd n)).bind _ = some e)
      have hstart : proc.startOf (.fd n) path = base := by
        rw [startOf, if_neg habs, hbase]
        rfl
      obtain ⟨d, name, left, hat, rfl⟩ := entryFrom_eq_some_iff.mp hfound
      have hrel : isAbsoluteText path = false := Bool.not_eq_true _ ▸ habs
      have hat' := hat.join htree hrel proc.cwd
      have hjoin : joinAtPath proc (.fd n) path = joinName (absolute base).display path := by
        have hdir : proc.dirOf n = some base := hbase
        simp only [joinAtPath, hrel, hdir, hread]
        rfl
      refine ⟨_, hjoin, .inl ?_, entryFrom_eq_some_iff.mpr ⟨d, name, left, hat', rfl⟩, ?_⟩
      · exact hat.isAbsoluteText_join htree hrel
      · rw [hstart, hat'.walkFrom_eq, hat.walkFrom_eq]
  obtain ⟨joined, hjoin, hstart, hsame, hwalk⟩ := hjoined
  have hcond : (!isAbsoluteText joined && decide (dirfd ≠ .cwd)) = false := by
    rcases hstart with habs | hcwd
    · simp [habs]
    · simp [hcwd]
  simp only [resolveAtForNotify, hjoin, hcond, canonicalPath_of_entry proc htree hsame,
    leadsTo_congr hwalk]
  rfl

theorem isAbsoluteText_of_not_knows (hknows : ¬ proc.Knows dirfd path) :
    isAbsoluteText path = false := Bool.not_eq_true _ ▸ fun habs => hknows (.inl habs)

theorem resolveAtForNotify_of_not_knows (fs : Fs) (hknows : ¬ proc.Knows dirfd path)
    (whichArg : String) :
    ∃ failure, resolveAtForNotify proc fs dirfd path whichArg = .failed path failure := by
  have hrel := isAbsoluteText_of_not_knows hknows
  cases dirfd with
  | cwd => exact absurd (.inr (.inl rfl)) hknows
  | fd n =>
    have hread : proc.fdReadable n = false :=
      Bool.not_eq_true _ ▸ fun hread => hknows (.inr (.inr ⟨n, rfl, hread⟩))
    have hjoin : joinAtPath proc (.fd n) path = path := by
      unfold joinAtPath
      rw [hrel]
      cases hdir : proc.dirOf n with
      | none => simp [hdir]
      | some dir => simp [hdir, hread]
    have hcond : (!isAbsoluteText path && decide (DirFd.fd n ≠ .cwd)) = true := by simp [hrel]
    simp only [resolveAtForNotify, hjoin, hcond, if_true]
    exact ⟨_, rfl⟩

end Resolution

/-! ## Calls that look at the content first -/

section Content

variable {e : List String}

/-- A regular file the shim can read, and that fits into a notification. -/
def Capturable (h : Host) (fs : Fs) (p : PathBuf) : Prop :=
  ∃ i, fs.lookup p = some i ∧ (fs.inode i).kind = .regular ∧
    (fs.inode i).content.length ≤ shimInlinePreimageCap ∧ h.deny .openRead p fs = none

theorem capturable_iff {env : ShimEnv} (pathResolved : Bool) :
    Capturable h fs (env.entry fs path) ↔
      ∃ pre, capturePreImageResolved env h fs path pathResolved = some pre := by
  cases hi : fs.lookup (env.entry fs path) with
  | none => simp [Capturable, capturePreImageResolved, hi]
  | some i =>
    by_cases hreg : (fs.inode i).kind = .regular
    · have hstat : ((fs.inode i).stat h.os).size = (fs.inode i).content.length := by
        simp [Inode.stat, hreg]
      simp [Capturable, capturePreImageResolved, hi, hreg, hstat]
    · simp [Capturable, capturePreImageResolved, hi, hreg]

theorem canonicalOr_of_capturable (htree : fs.ValidTree)
    (hcap : Capturable h fs (proc.env.entry fs path)) :
    ∃ e', fs.entryFrom proc.cwd path = some e' ∧
      proc.env.canonicalOr fs path = (absolute e').display := by
  obtain ⟨i, hi, hreg, -⟩ := hcap
  cases hentry : fs.entryFrom proc.cwd path with
  | none =>
    -- the empty path is not in the tree
    simp only [env, hentry, map_none, getD_none] at hi
    exact absurd rfl (htree.wellFormed.absolute [] (kindAt_ne_none hi)).ne_nil
  | some e' =>
    simp only [env, hentry, map_some, getD_some] at hi
    refine ⟨e', rfl, ?_⟩
    obtain ⟨d, name, left, hat, rfl⟩ := entryFrom_eq_some_iff.mp hentry
    have hkind := kindAt_of_lookup hi
    rw [hreg] at hkind
    have hwalk := hat.walkFrom_of_ne_symlink (by rw [hkind]; decide) (by rw [hkind]; decide)
    simp only [ShimEnv.canonicalOr, env, Fs.canonicalize, if_neg (ne_empty_of_last hat.last), hwalk]

/-- A call that captures the content first is reported under the canonical path of a file that can
be captured, as seen from the working directory, and under its raw argument otherwise. -/
def Process.ContentRight (proc : Process) (h : Host) (fs : Fs) (path : String) (e : List String) :
    Prop :=
  if shouldSkipPath path then shouldSkipPath (absolute e).display = true
  else
    (Capturable h fs (proc.env.entry fs path) ∧ fs.entryFrom proc.cwd path = some e) ∨
      (¬ Capturable h fs (proc.env.entry fs path) ∧ ofString path = .absolute e)

theorem namesEntries_single_iff {note : ShimNotification} :
    NamesEntries [e] (some (NameReport.single note)) ↔ ofString note.arg = .absolute e := by
  simp [NamesEntries, NameReport.single]

theorem notifyPreMutationWithContent_arg (syscall : String) (hskip : shouldSkipPath path = false) :
    ∃ note, notifyPreMutationWithContent proc.env h fs syscall path = some note ∧
      note.arg = ((capturePreImageResolved proc.env h fs path false).map (·.path)).getD path := by
  simp only [notifyPreMutationWithContent, hskip, notifyInnerWithFailure, bind_some]
  cases capturePreImageResolved proc.env h fs path false with
  | none => exact ⟨_, rfl, rfl⟩
  | some pre => exact ⟨_, rfl, if_pos rfl⟩

theorem notifyPreMutationWithContent_iff (htree : fs.ValidTree) (syscall : String) :
    NamesEntries [e] ((notifyPreMutationWithContent proc.env h fs syscall path).map
        NameReport.single) ↔ proc.ContentRight h fs path e := by
  unfold Process.ContentRight
  cases hskip : shouldSkipPath path with
  | true =>
    rw [if_pos rfl, notifyPreMutationWithContent, if_pos hskip]
    rfl
  | false =>
    rw [if_neg Bool.false_ne_true]
    obtain ⟨note, hnote, harg⟩ := notifyPreMutationWithContent_arg syscall hskip
    rw [hnote, map_some, namesEntries_single_iff]
    by_cases hcap : Capturable h fs (proc.env.entry fs path)
    · obtain ⟨pre, hpre⟩ := (capturable_iff false).mp hcap
      obtain ⟨e', hentry, hcanon⟩ := canonicalOr_of_capturable htree hcap
      have hread : ofString note.arg = .absolute e' := by
        rw [harg, hpre, map_some, getD_some, (capturePreImageResolved_eq_some hpre).1, hcanon]
        exact ofString_display (proper_absolute (entryFrom_names htree hentry))
      simp only [hread, hcap, hentry, some.injEq, true_and, not_true, false_and, or_false,
        absolute_inj]
    · have hnone := (capturable_iff false).not.mp hcap
      rw [← isSome_iff_exists, not_isSome_iff_eq_none] at hnone
      rw [hnone] at harg
      simp only [harg, hcap, map_none, getD_none, false_and, false_or, not_false_iff, true_and]

end Content

/-! ## Calls that resolve first -/

section Resolved

variable {e e' base d : List String}

theorem ofString_ne_absolute (hrel : isAbsoluteText path = false) :
    ofString path ≠ .absolute e := by
  intro heq
  have habs : isAbsoluteText path = true := by
    rw [isAbsoluteText_iff, heq]
    rfl
  rw [hrel] at habs
  cases habs

theorem shouldSkipPath_of_relative (hrel : isAbsoluteText path = false) :
    shouldSkipPath path = false := by
  have hhead : path.toList.head? ≠ some '/' := by
    intro hslash
    rw [isAbsoluteText, hslash] at hrel
    cases hrel
  have hstart : ∀ dir : String, dir.toList.head? = some '/' → dir.isPrefixOf path = false := by
    intro dir hdir
    rw [String.isPrefixOf, String.startsWith_string_eq_false_iff]
    rintro ⟨rest, hrest⟩
    obtain ⟨chars, hchars⟩ := head?_eq_some_iff.mp hdir
    rw [hchars] at hrest
    exact hhead (hrest ▸ rfl)
  have hdev : (path == "/dev") = false := by
    rw [beq_eq_false_iff_ne]
    rintro rfl
    exact hhead (by decide)
  rw [shouldSkipPath, hstart "/dev/" (by decide), hstart "/proc/" (by decide),
    hstart "/sys/" (by decide), hdev]
  rfl

theorem capturePreImageResolved_resolved_path {env : ShimEnv} {abs : String} {pre : ShimPreImage}
    (hpre : capturePreImageResolved env h fs abs true = some pre) : pre.path = abs := by
  unfold capturePreImageResolved at hpre
  split at hpre
  · cases hpre
  · simp only [if_true] at hpre
    split_ifs at hpre
    cases hpre
    rfl

theorem notifyInnerWithFailure_resolved (proc : Process) (h : Host) (fs : Fs)
    (syscall abs : String) :
    ∃ note, notifyInnerWithFailure proc.env h fs syscall abs (some abs) none true = some note ∧
      note.arg = abs := by
  unfold notifyInnerWithFailure
  rw [bind_some]
  cases hpre : capturePreImageResolved proc.env h fs abs true with
  | none => exact ⟨_, rfl, rfl⟩
  | some pre =>
    refine ⟨_, rfl, ?_⟩
    exact (if_pos rfl).trans (capturePreImageResolved_resolved_path hpre)

variable (htree : fs.ValidTree)

include htree

theorem Fs.ofString_leadsTo (hentry : fs.entryFrom base path = some e) :
    ofString (absolute (fs.leadsTo base path e)).display = .absolute (fs.leadsTo base path e) :=
  ofString_display (proper_absolute (leadsTo_names htree hentry))

/-- The directory can be told, and the last component is no symlink that resolves, unless both it
and where it leads are below a skipped directory. -/
def Process.AtRight (proc : Process) (fs : Fs) (dirfd : DirFd) (path : String) (e : List String) :
    Prop :=
  proc.Knows dirfd path ∧
    (fs.FollowsLink (proc.startOf dirfd path) path e →
      shouldSkipPath (absolute (fs.leadsTo (proc.startOf dirfd path) path e)).display = true ∧
        shouldSkipPath (absolute e).display = true)

theorem notifyPreMutationWithContentAt_iff (syscall : String)
    (hentry : proc.entryAt fs dirfd path = some e) :
    NamesEntries [e] ((notifyPreMutationWithContentAt proc h fs syscall dirfd path).map
        NameReport.single) ↔ proc.AtRight fs dirfd path e := by
  by_cases hknows : proc.Knows dirfd path
  · have hfrom := entryFrom_startOf hentry
    have hright := leadsTo_eq_iff htree.wellFormed hfrom
    unfold notifyPreMutationWithContentAt
    rw [resolveAtForNotify_of_knows htree hentry hknows]
    dsimp only
    by_cases hskip : shouldSkipPath
        (absolute (fs.leadsTo (proc.startOf dirfd path) path e)).display = true
    · rw [if_pos hskip]
      constructor
      · intro hleft
        exact ⟨hknows, fun _ => ⟨hskip, hleft⟩⟩
      · intro hat
        by_cases hlink : fs.FollowsLink (proc.startOf dirfd path) path e
        · exact (hat.2 hlink).2
        · rwa [hright.mpr hlink] at hskip
    · obtain ⟨note, hnote, harg⟩ := notifyInnerWithFailure_resolved proc h fs syscall
        (absolute (fs.leadsTo (proc.startOf dirfd path) path e)).display
      rw [if_neg hskip, hnote, map_some, namesEntries_single_iff, harg,
        ofString_leadsTo htree hfrom, absolute_inj, hright]
      constructor
      · intro hlink
        exact ⟨hknows, fun hlink' => absurd hlink' hlink⟩
      · intro hat hlink
        exact hskip (hat.2 hlink).1
  · obtain ⟨failure, hfailed⟩ := resolveAtForNotify_of_not_knows fs hknows "path"
    have hrel := isAbsoluteText_of_not_knows hknows
    refine ⟨fun hreport => ?_, fun hright => absurd hright.1 hknows⟩
    unfold notifyPreMutationWithContentAt at hreport
    rw [hfailed] at hreport
    dsimp only at hreport
    rw [shouldSkipPath_of_relative hrel] at hreport
    exact absurd (namesEntries_single_iff.mp hreport) (ofString_ne_absolute hrel)

/-! ## Renames -/

theorem canonicalizeOrRaw_of_entry
    (hentry : fs.entryFrom proc.cwd path = some e) (whichArg : String) :
    (canonicalizeOrRaw proc.env fs path whichArg).1 =
      (absolute (fs.leadsTo proc.cwd path e)).display := by
  rw [canonicalizeOrRaw, canonicalPath_of_entry proc htree hentry]

theorem Fs.walkFrom_display {q : List String} (hq : Settled fs.pathTree q) (cwd : List String) :
    fs.walkFrom cwd (absolute q).display = .ok (q, maxSymlinks) := by
  rw [walkFrom, stepsOf, ofString_display (proper_absolute (htree.settledNames hq)),
    map_step_absolute, walk_root]
  exact walk_names htree.wellFormed.grounded hq maxSymlinks

omit htree in
theorem isAbsoluteText_display {names : List String} (hnames : ∀ name ∈ names, ValidName name) :
    isAbsoluteText (absolute names).display = true := by
  rw [isAbsoluteText_iff, ofString_display (proper_absolute hnames)]
  rfl

theorem Fs.isEntry_absolute (hdir : fs.pathTree d = some .dir)
    (hname : ValidName name) (cwd : List String) :
    fs.IsEntry cwd (absolute (d ++ [name])).display d name maxSymlinks := by
  have hread := ofString_display (proper_absolute (htree.names_concat hdir hname))
  rw [absolute_concat] at hread ⊢
  refine ⟨?_, ?_, hdir⟩
  · rw [hread, getLast?_concat]
  · rw [hread, dropLast_concat, map_step_absolute, walk_root]
    exact walk_names htree.wellFormed.grounded (settled_of_dir hdir) maxSymlinks

theorem Fs.IsEntry.display {left : Nat}
    (hat : fs.IsEntry base path d name left) (cwd : List String) :
    fs.IsEntry cwd (absolute (d ++ [name])).display d name maxSymlinks :=
  isEntry_absolute htree hat.dir (validName_of_last hat.last) cwd

theorem Fs.entryFrom_display (hentry : fs.entryFrom base path = some e) (cwd : List String) :
    fs.entryFrom cwd (absolute e).display = some e := by
  obtain ⟨d, name, left, hat, rfl⟩ := entryFrom_eq_some_iff.mp hentry
  exact entryFrom_eq_some_iff.mpr ⟨d, name, maxSymlinks, hat.display htree cwd, rfl⟩

theorem Fs.leadsTo_display {r : List String × Nat}
    (hentry : fs.entryFrom base path = some e) (hwalk : fs.walkFrom base path = .ok r)
    (cwd : List String) : fs.leadsTo cwd (absolute e).display e = r.1 := by
  obtain ⟨d, name, left, hat, rfl⟩ := entryFrom_eq_some_iff.mp hentry
  obtain ⟨q, left'⟩ := r
  rw [hat.walkFrom_eq] at hwalk
  have hmore := (walk_add hwalk (maxSymlinks - left)).2
  rw [Nat.add_sub_cancel' (walk_add hat.parent 0).1] at hmore
  rw [leadsTo, (hat.display htree cwd).walkFrom_eq, hmore]

/-- **Resolving twice**: the `*at` calls canonicalize what they have resolved, and end where the
canonical path of the entry leads. -/
theorem canonicalizeOrRaw_resolved
    (hentry : proc.entryAt fs dirfd path = some e) (whichArg : String) :
    (canonicalizeOrRaw proc.env fs
      (absolute (fs.leadsTo (proc.startOf dirfd path) path e)).display whichArg).1 =
      (absolute (fs.leadsTo [] (absolute e).display e)).display := by
  have hfrom := entryFrom_startOf hentry
  obtain ⟨d, name, left, hat, rfl⟩ := entryFrom_eq_some_iff.mp hfrom
  cases hwalk : fs.walkFrom (proc.startOf dirfd path) path with
  | ok r =>
    have hleads : fs.leadsTo (proc.startOf dirfd path) path (d ++ [name]) = r.1 := by
      rw [leadsTo, hwalk]
    rw [leadsTo_display htree hfrom hwalk, hleads]
    rw [hat.walkFrom_eq] at hwalk
    have hsettled := walk_settled htree.wellFormed.grounded (settled_of_dir hat.dir) hwalk
    have hne : (absolute r.1).display ≠ "" := by
      intro hempty
      have habs := isAbsoluteText_display (htree.settledNames hsettled)
      rw [hempty] at habs
      revert habs
      decide
    have hcanon : proc.env.canonicalize fs (absolute r.1).display = .ok (absolute r.1).display := by
      simp only [env, Fs.canonicalize, if_neg hne, walkFrom_display htree hsettled proc.cwd]
    rw [canonicalizeOrRaw, canonicalPath, hcanon]
  | error err =>
    have hleads : fs.leadsTo (proc.startOf dirfd path) path (d ++ [name]) = d ++ [name] := by
      rw [leadsTo, hwalk]
    rw [hleads, canonicalizeOrRaw_of_entry htree (entryFrom_display htree hfrom proc.cwd),
      leadsTo_congr (walkFrom_of_absolute
        (isAbsoluteText_display (entryFrom_names htree hfrom)) proc.cwd [])]

omit htree in
theorem notifyRenameWithDstPreimage_iff (syscall src dst : String) :
    NamesEntries [e, e'] (notifyRenameWithDstPreimage proc h fs syscall src dst) ↔
      if (canonicalizeOrRaw proc.env fs src "from").1 = (canonicalizeOrRaw proc.env fs dst "to").1
      then e = e'
      else ofString (canonicalizeOrRaw proc.env fs src "from").1 = .absolute e ∧
        ofString (canonicalizeOrRaw proc.env fs dst "to").1 = .absolute e' := by
  unfold notifyRenameWithDstPreimage
  dsimp only
  split_ifs with hsame
  · rfl
  · simp [NamesEntries, notifyRenameInnerWithRecursive, tryNotify, env]

omit htree in
theorem display_absolute_inj {names names' : List String}
    (hnames : ∀ name ∈ names, ValidName name) (hnames' : ∀ name ∈ names', ValidName name) :
    (absolute names).display = (absolute names').display ↔ names = names' := by
  constructor
  · intro heq
    exact absolute_inj.mp (display_injective (proper_absolute hnames)
      (proper_absolute hnames') heq)
  · rintro rfl
    rfl

omit htree in
theorem named_iff {q q' : List String} :
    (if q = q' then e = e' else q = e ∧ q' = e') ↔ (e = e' ∧ q = q') ∨ (q = e ∧ q' = e') := by
  split_ifs with hsame
  · subst hsame
    simp only [and_true, iff_self_or]
    rintro ⟨rfl, rfl⟩
    rfl
  · simp [hsame]

/-- The text a rename is reported with, of a path that names an entry from the descriptor. -/
theorem canonicalizeOrRaw_cases (hentry : proc.entryAt fs dirfd path = some e) (whichArg : String) :
    (∃ q, fs.leadsFrom proc.cwd path = some q ∧ (∀ n ∈ q, ValidName n) ∧
        (canonicalizeOrRaw proc.env fs path whichArg).1 = (absolute q).display) ∨
      (fs.leadsFrom proc.cwd path = none ∧ isAbsoluteText path = false ∧
        (canonicalizeOrRaw proc.env fs path whichArg).1 = path) := by
  obtain ⟨d, name, left, hat, -⟩ := entryFrom_eq_some_iff.mp (entryFrom_startOf hentry)
  obtain ⟨hsome, hnone⟩ := canonicalPath_spec proc htree hat.last
  cases hleads : fs.leadsFrom proc.cwd path with
  | some q =>
    refine .inl ⟨q, rfl, leadsFrom_names htree hat.last hleads, ?_⟩
    rw [canonicalizeOrRaw, hsome q hleads]
  | none =>
    obtain ⟨err, herr⟩ := hnone hleads
    refine .inr ⟨rfl, ?_, by rw [canonicalizeOrRaw, herr]⟩
    -- only a relative path can mean something else elsewhere
    rw [← Bool.not_eq_true]
    intro habs
    rw [entryAt, if_pos habs, entryFrom_of_absolute habs [] proc.cwd] at hentry
    rw [leadsFrom_of_entry hentry] at hleads
    cases hleads

/-- From the working directory both paths lead to their entries; or they are one entry, and one to
the shim as well. -/
def Process.CwdRight (proc : Process) (fs : Fs) (src dst : String) (e e' : List String) : Prop :=
  (e = e' ∧ (src = dst ∨
      ∃ q, fs.leadsFrom proc.cwd src = some q ∧ fs.leadsFrom proc.cwd dst = some q)) ∨
    (fs.leadsFrom proc.cwd src = some e ∧ fs.leadsFrom proc.cwd dst = some e')

theorem renameFromCwd_iff {srcfd dstfd : DirFd} {src dst : String}
    (hsrc : proc.entryAt fs srcfd src = some e) (hdst : proc.entryAt fs dstfd dst = some e')
    (syscall : String) :
    NamesEntries [e, e'] (notifyRenameWithDstPreimage proc h fs syscall src dst) ↔
      proc.CwdRight fs src dst e e' := by
  rw [notifyRenameWithDstPreimage_iff, Process.CwdRight]
  rcases canonicalizeOrRaw_cases htree hsrc "from" with
    ⟨q, hq, hnames, htext⟩ | ⟨hnone, hrel, htext⟩ <;>
  rcases canonicalizeOrRaw_cases htree hdst "to" with
    ⟨q', hq', hnames', htext'⟩ | ⟨hnone', hrel', htext'⟩
  · have hsame : src = dst → q = q' := by
      rintro rfl
      exact some.inj (hq.symm.trans hq')
    have hplace : (∃ r, q = r ∧ q' = r) ↔ q = q' := by simp [eq_comm]
    simp only [htext, htext', display_absolute_inj hnames hnames', hq, hq', some.injEq, hplace,
      ofString_display (proper_absolute hnames), ofString_display (proper_absolute hnames'),
      absolute_inj]
    rw [or_iff_right_of_imp hsame, named_iff]
  · -- a canonical text is not a relative path
    have hne : (absolute q).display ≠ dst := by
      rintro rfl
      rw [isAbsoluteText_display hnames] at hrel'
      cases hrel'
    have hother : src ≠ dst := by
      rintro rfl
      rw [hq] at hnone'
      cases hnone'
    simp [htext, htext', hne, hother, hnone', ofString_ne_absolute hrel']
  · have hne : src ≠ (absolute q').display := by
      rintro rfl
      rw [isAbsoluteText_display hnames'] at hrel
      cases hrel
    have hother : src ≠ dst := by
      rintro rfl
      rw [hq'] at hnone
      cases hnone
    simp [htext, htext', hne, hother, hnone, ofString_ne_absolute hrel]
  · simp [htext, htext', hnone, hnone', ofString_ne_absolute hrel, and_comm]

end Resolved

/-! ## The property -/

/-- When a call is reported under its entries.

* `unlink` goes by the content, `unlinkat` by the path.
* A rename with a symlink in a last component is reported wrongly if the symlink resolves, unless
  both paths are of one entry. `renameat` resolves what it has resolved.
* On macOS the `*at` calls start from the working directory, whatever the descriptor. -/
def NameCall.NamedRight (proc : Process) (h : Host) (fs : Fs) :
    NameCall → List (List String) → Prop
  | .unlink path, [e] => proc.ContentRight h fs path e
  | .unlinkat dirfd path, [e] =>
    if h.os = .macos then proc.ContentRight h fs path e else proc.AtRight fs dirfd path e
  | .rename src dst, [e, e'] =>
    (e = e' ∧ fs.leadsTo proc.cwd src e = fs.leadsTo proc.cwd dst e') ∨
      (¬ fs.FollowsLink proc.cwd src e ∧ ¬ fs.FollowsLink proc.cwd dst e')
  | .renameat srcfd src dstfd dst, [e, e'] =>
    if h.os = .macos then proc.CwdRight fs src dst e e'
    else
      proc.Knows srcfd src ∧ proc.Knows dstfd dst ∧
        (e = e' ∨ (¬ fs.FollowsLink [] (absolute e).display e ∧
          ¬ fs.FollowsLink [] (absolute e').display e'))
  | _, _ => False

section Property

variable {e e' : List String}

/-- A rename whose paths are taken for where two entries lead. -/
theorem notifyRenameWithDstPreimage_leads_iff (htree : fs.ValidTree) {b b' : List String}
    {src dst s t : String} (hsrc : fs.entryFrom b src = some e)
    (hdst : fs.entryFrom b' dst = some e')
    (hs : (canonicalizeOrRaw proc.env fs s "from").1 = (absolute (fs.leadsTo b src e)).display)
    (ht : (canonicalizeOrRaw proc.env fs t "to").1 = (absolute (fs.leadsTo b' dst e')).display)
    (syscall : String) :
    NamesEntries [e, e'] (notifyRenameWithDstPreimage proc h fs syscall s t) ↔
      (e = e' ∧ fs.leadsTo b src e = fs.leadsTo b' dst e') ∨
        (¬ fs.FollowsLink b src e ∧ ¬ fs.FollowsLink b' dst e') := by
  rw [notifyRenameWithDstPreimage_iff, hs, ht, ofString_leadsTo htree hsrc,
    ofString_leadsTo htree hdst, ← leadsTo_eq_iff htree.wellFormed hsrc,
    ← leadsTo_eq_iff htree.wellFormed hdst, absolute_inj, absolute_inj, ← named_iff]
  simp only [display_absolute_inj (leadsTo_names htree hsrc) (leadsTo_names htree hdst)]

theorem renameat_iff (htree : fs.ValidTree) {srcfd dstfd : DirFd} {src dst : String}
    (hsrc : proc.entryAt fs srcfd src = some e) (hdst : proc.entryAt fs dstfd dst = some e') :
    NamesEntries [e, e'] (notifyRenameAt proc h fs "renameat" srcfd src dstfd dst) ↔
      proc.Knows srcfd src ∧ proc.Knows dstfd dst ∧
        (e = e' ∨ (¬ fs.FollowsLink [] (absolute e).display e ∧
          ¬ fs.FollowsLink [] (absolute e').display e')) := by
  have hsame : e = e' → fs.leadsTo [] (absolute e).display e =
      fs.leadsTo [] (absolute e').display e' := by
    rintro rfl
    rfl
  by_cases hknows : proc.Knows srcfd src
  · by_cases hknows' : proc.Knows dstfd dst
    · have hnotify : notifyRenameAt proc h fs "renameat" srcfd src dstfd dst =
          notifyRenameWithDstPreimage proc h fs "renameat"
            (absolute (fs.leadsTo (proc.startOf srcfd src) src e)).display
            (absolute (fs.leadsTo (proc.startOf dstfd dst) dst e')).display := by
        unfold notifyRenameAt
        rw [resolveAtForNotify_of_knows htree hsrc hknows,
          resolveAtForNotify_of_knows htree hdst hknows']
      rw [hnotify, notifyRenameWithDstPreimage_leads_iff htree
        (entryFrom_display htree (entryFrom_startOf hsrc) [])
        (entryFrom_display htree (entryFrom_startOf hdst) [])
        (canonicalizeOrRaw_resolved htree hsrc _) (canonicalizeOrRaw_resolved htree hdst _),
        and_iff_left_of_imp hsame]
      simp only [hknows, hknows', true_and]
    · -- the destination is reported as it was given
      obtain ⟨failure, hfailed⟩ := resolveAtForNotify_of_not_knows fs hknows' "to"
      refine ⟨fun hreport => ?_, fun hright => absurd hright.2.1 hknows'⟩
      unfold notifyRenameAt at hreport
      rw [resolveAtForNotify_of_knows htree hsrc hknows, hfailed] at hreport
      have hpaths := (cons.inj hreport).2
      exact absurd (cons.inj hpaths).1
        (ofString_ne_absolute (isAbsoluteText_of_not_knows hknows'))
  · obtain ⟨failure, hfailed⟩ := resolveAtForNotify_of_not_knows fs hknows "from"
    refine ⟨fun hreport => ?_, fun hright => absurd hright.1 hknows⟩
    have hne := ofString_ne_absolute (e := e) (isAbsoluteText_of_not_knows hknows)
    unfold notifyRenameAt at hreport
    rw [hfailed] at hreport
    by_cases hknows' : proc.Knows dstfd dst
    · rw [resolveAtForNotify_of_knows htree hdst hknows'] at hreport
      exact absurd (cons.inj hreport).1 hne
    · obtain ⟨failure', hfailed'⟩ := resolveAtForNotify_of_not_knows fs hknows' "to"
      rw [hfailed'] at hreport
      exact absurd (cons.inj hreport).1 hne

theorem NameCall.notify_unlinkat (hos : h.os ≠ .macos) (dirfd : DirFd) (path : String) :
    (NameCall.unlinkat dirfd path).notify proc h fs =
      (notifyPreMutationWithContentAt proc h fs "unlinkat" dirfd path).map NameReport.single := by
  cases hos' : h.os with
  | macos => exact absurd hos' hos
  | linux | freebsd => simp only [notify, hos']

theorem NameCall.notify_renameat (hos : h.os ≠ .macos) (srcfd dstfd : DirFd) (src dst : String) :
    (NameCall.renameat srcfd src dstfd dst).notify proc h fs =
      notifyRenameAt proc h fs "renameat" srcfd src dstfd dst := by
  cases hos' : h.os with
  | macos => exact absurd hos' hos
  | linux | freebsd => simp only [notify, hos']

end Property

/-! ## A tree with symlinks -/

/-- Decides `ValidName`. -/
def checkName (name : String) : Bool :=
  decide (name ≠ "" ∧ '/' ∉ name.toList ∧ name ≠ "." ∧ name ≠ "..")

/-- Every component of every name in the tree can be one. -/
def Fs.checkNames (fs : Fs) : Bool :=
  fs.entries.all fun entry => entry.1.all fun c =>
    match c with
    | .normal name => checkName name
    | _ => true

theorem Fs.validTree_of_check {fs : Fs} (htree : fs.checkWellFormed = true)
    (hnames : fs.checkNames = true) : fs.ValidTree where
  wellFormed := wellFormed_of_check htree
  names := by
    intro names hthere name hname
    obtain ⟨kind, hkind⟩ := ne_none_iff_exists'.mp hthere
    obtain ⟨n, hn, -⟩ := kindAt_eq_some_iff.mp hkind
    obtain ⟨i, hi, -⟩ := node_eq_some_iff.mp hn
    have hentry := all_eq_true.mp hnames _ (mem_entries_of_lookup hi)
    have hcomp := all_eq_true.mp hentry (.normal name)
      (mem_cons_of_mem _ (mem_map_of_mem hname))
    obtain ⟨h₁, h₂, h₃, h₄⟩ := of_decide_eq_true hcomp
    exact ⟨h₁, h₂, h₃, h₄⟩

theorem not_reportsEntries {proc : Process} {h : Host} {fs : Fs} {call : NameCall}
    {entries : List (List String)} {paths : List String}
    (hnotify : (call.notify proc h fs).map NameReport.paths = some paths)
    (hother : paths.map ofString ≠ entries.map absolute) :
    ¬ ReportsEntries proc h fs call entries := by
  obtain ⟨r, hr, rfl⟩ := map_eq_some_iff.mp hnotify
  rw [ReportsEntries, hr]
  exact hother

/-- `/d/f`, a symlink `/d/l` to it, and a symlink `/s` to `/d`. -/
def linkedTree : Fs :=
  .ofList [("/d", .dir), ("/d/f", .file [1]), ("/d/l", Host.sample.newInode .symlink 0o777 [] "f"),
    ("/s", Host.sample.newInode .symlink 0o777 [] "d")]

theorem linkedTree_validTree : linkedTree.ValidTree :=
  validTree_of_check (by decide) (by decide)

/-- A process in `/d`, with that directory open as descriptor 3. -/
def linkedProcess : Process where
  pid := 1
  nowUnixNanos := 0
  cwd := ["d"]
  dirOf := fun n => if n = 3 then some ["d"] else none
  fdReadable := fun n => n = 3
  readDir := fun _ _ => []

end ShitUndo
