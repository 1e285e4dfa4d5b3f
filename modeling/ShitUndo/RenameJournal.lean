import ShitUndo.ReportedNames
import ShitUndo.ShimListener

/-!
# How a rename is journaled

The interposer of `rename` packs two paths into one argument with a tab between them, and the daemon
takes the argument apart at the first tab.

`JournalsRename`: the journal has the rename with these paths, behind the old bytes of the
destination if there was such a file.

Names in the tree are text. An argument that is not UTF-8 names something outside of it; what the
shim makes of such an argument (`lossy`) may be anything.
-/

namespace ShitUndo

open List Option PathBuf CaptureEvent Fs

open PathWalk (Settled)

/-! ## From the call to the journal -/

/-- `cstr_to_string`, by `CStr::to_string_lossy`. -/
def cstrToString (lossy : ByteArray → String) (arg : ByteArray) : String :=
  (String.fromUTF8? arg).getD (lossy arg)

/-- What the interposer of `rename` sends. -/
def interposeRename (lossy : ByteArray → String) (proc : Process) (h : Host) (fs : Fs)
    (src dst : ByteArray) : Option ShimNotification :=
  ((NameCall.rename (cstrToString lossy src) (cstrToString lossy dst)).notify proc h fs).map
    NameReport.note

/-- What the daemon journals of a `rename` by a process of the command. -/
def renameEvents (lossy : ByteArray → String) (proc : Process) (h : Host) (fs : Fs)
    (env : ListenerEnv) (command : CommandId) (ts : TimePoint) (src dst : ByteArray) :
    List CaptureEvent :=
  match interposeRename lossy proc h fs src dst with
  | none => []
  | some note => ingestNotification env note (some command) ts

/-! ## The property -/

/-- The path that the bytes are the text of. -/
def PathBuf.IsText (p : PathBuf) (arg : ByteArray) : Prop :=
  ∃ text : String, text.toByteArray = arg ∧ p = .ofString text

/-- A pre-image of the path. -/
def PreImageAt (p : PathBuf) (ev : CaptureEvent) : Prop :=
  ∃ inode blob fileMeta post source, ev.kind = .filePreImage inode p blob fileMeta post source

/-- A pre-image of the path with the blob these bytes are stored under. -/
def PreImageWith (env : ListenerEnv) (p : PathBuf) (bytes : Bytes) (ev : CaptureEvent) : Prop :=
  ∃ inode blob stored fileMeta post source, env.blobPut bytes = .ok (blob, stored) ∧
    ev.kind = .filePreImage inode p blob fileMeta post source

/-- The rename is in the journal, with these paths; a pre-image of the destination comes before it
if and only if there was a file, and it has the bytes of that file. -/
def JournalsRename (env : ListenerEnv) (fs : Fs) (src dst : ByteArray)
    (events : List CaptureEvent) : Prop :=
  ∃ p q before ev after inode, p.IsText src ∧ q.IsText dst ∧ events = before ++ ev :: after ∧
    ev.kind = .treeOp (.rename p q inode) ∧
    (∀ bytes, fs.fileAt q = some bytes → ∃ pre ∈ before, PreImageWith env q bytes pre) ∧
    (fs.fileAt q = none → ∀ pre ∈ before, ¬ PreImageAt q pre)

/-- A canonical path: nothing in it is a symlink; the last name may be free. -/
def Fs.Canonical (fs : Fs) (names : List String) : Prop :=
  Settled fs.pathTree names ∨ ∃ d name, names = d ++ [name] ∧ ValidName name ∧
      fs.kindAt (.absolute d) = some .directory ∧ fs.kindAt (.absolute names) = none

/-- Two canonical paths, the second of a regular file or free. -/
structure CanonicalRename (fs : Fs) (src dst : ByteArray) : Prop where
  ne : src ≠ dst
  source : ∀ text : String, text.toByteArray = src →
    ∃ names, text = (absolute names).display ∧ fs.Canonical names
  destination : ∀ text : String, text.toByteArray = dst →
    ∃ names, text = (absolute names).display ∧ fs.Canonical names ∧
      (fs.kindAt (.absolute names) = none ∨ fs.kindAt (.absolute names) = some .regular)

/-- Both paths are text, the first has no tab, and nothing is at the second. -/
def PacksRight (fs : Fs) (src dst : ByteArray) : Prop :=
  ∃ s t : String, s.toByteArray = src ∧ t.toByteArray = dst ∧ '\t' ∉ s.toList ∧
    fs.kindAt (.ofString t) = none

/-! ## Tabs -/

section Tabs

/-- The tabs in the names of a path. -/
def PathBuf.tabs (p : PathBuf) : Nat := (p.flatMap fun c => c.text.toList).count '\t'

theorem PathBuf.tabs_cons (c : Component) (p : PathBuf) :
    tabs (c :: p) = c.text.toList.count '\t' + tabs p := by
  simp [tabs]

theorem PathBuf.tabs_append (p q : PathBuf) : tabs (p ++ q) = tabs p + tabs q := by
  simp [tabs]

theorem tabs_innerOf (piece : List Char) : tabs (innerOf piece).toList = piece.count '\t' := by
  unfold innerOf
  split_ifs with hempty hdot hdots
  · rw [hempty]
    rfl
  · rw [hdot]
    decide
  · rw [hdots]
    decide
  · simp [tabs, Component.text]

theorem tabs_firstOf (piece : List Char) : tabs (firstOf piece).toList = piece.count '\t' := by
  unfold firstOf
  split_ifs with hdot
  · rw [hdot]
    decide
  · exact tabs_innerOf piece

theorem tabs_filterMap_innerOf (pieces : List (List Char)) :
    tabs (pieces.filterMap innerOf) = pieces.flatten.count '\t' := by
  induction pieces with
  | nil => rfl
  | cons piece rest ih =>
    have hcons : (piece :: rest).filterMap innerOf =
        (innerOf piece).toList ++ rest.filterMap innerOf := by
      cases hc : innerOf piece <;> simp [hc]
    rw [hcons, tabs_append, tabs_innerOf, ih, flatten_cons, count_append]

theorem count_intercalate_slash (pieces : List (List Char)) :
    (['/'].intercalate pieces).count '\t' = pieces.flatten.count '\t' := by
  induction pieces with
  | nil => rfl
  | cons piece rest ih =>
    cases rest with
    | nil => simp
    | cons piece' rest' =>
      rw [intercalate_cons_cons, count_append, count_append, ih, flatten_cons, count_append]
      simp

/-- **Reading a path loses no tab.** -/
theorem tabs_ofString (s : String) : (ofString s).tabs = s.toList.count '\t' := by
  have htext : ['/'].intercalate (s.toList.splitOn '/') = s.toList := intercalate_splitOn '/'
  rw [← htext, count_intercalate_slash]
  cases hsplit : s.toList.splitOn '/' with
  | nil => exact absurd hsplit (splitOn_ne_nil _ _)
  | cons first pieces =>
    by_cases hfirst : first = []
    · subst hfirst
      by_cases hpieces : pieces = []
      · rw [hsplit, hpieces] at htext
        have hs : s = "" := String.toList_inj.mp htext.symm
        rw [hpieces, hs]
        decide
      · rw [ofString_of_absolute hsplit hpieces, tabs_cons, tabs_filterMap_innerOf]
        simp [Component.text]
    · rw [ofString_of_relative hsplit hfirst, tabs_append, tabs_firstOf,
        tabs_filterMap_innerOf, flatten_cons, count_append]

theorem splitOnceTab_pack {a b : String} (ha : '\t' ∉ a.toList) :
    splitOnceTab (a ++ "\t" ++ b) = some (a, b) := by
  have hlist : (a ++ "\t" ++ b).toList = a.toList ++ '\t' :: b.toList := by simp
  have hall : ∀ c ∈ a.toList, decide (c ≠ '\t') = true := by
    intro c hc
    refine decide_eq_true ?_
    rintro rfl
    exact ha hc
  unfold splitOnceTab
  rw [hlist, if_pos (by simp), takeWhile_append_of_pos hall, dropWhile_append_of_pos hall]
  simp

theorem splitOnceTab_spec {arg a b : String} (hsplit : splitOnceTab arg = some (a, b)) :
    arg.toList = a.toList ++ '\t' :: b.toList ∧ '\t' ∉ a.toList := by
  by_cases htab : '\t' ∈ arg.toList
  · obtain ⟨as, bs, hlist, hno⟩ := eq_append_cons_of_mem htab
    have harg : arg = String.ofList as ++ "\t" ++ String.ofList bs := by
      rw [← String.toList_inj, hlist]
      simp
    rw [harg, splitOnceTab_pack (by rwa [String.toList_ofList])] at hsplit
    cases hsplit
    rw [String.toList_ofList, String.toList_ofList]
    exact ⟨hlist, hno⟩
  · unfold splitOnceTab at hsplit
    rw [if_neg htab] at hsplit
    cases hsplit

end Tabs

/-! ## Canonical arguments -/

variable {proc : Process} {h : Host} {fs : Fs} {env : ListenerEnv} {command : CommandId}
  {ts : TimePoint}

section Canonical

variable {names : List String}

theorem Fs.settled_of_regular (hkind : fs.kindAt (.absolute names) = some .regular) :
    Settled fs.pathTree names := by
  refine ⟨pathTree_ne_none_iff.mpr (hkind ▸ some_ne_none _), fun target hlink => ?_⟩
  have hother := pathTree_link_iff.mp ⟨target, hlink⟩
  rw [hkind] at hother
  cases hother

variable (htree : fs.ValidTree)

include htree

theorem Fs.Canonical.validName (hcan : fs.Canonical names) :
    ∀ name ∈ names, ValidName name := by
  rcases hcan with hsettled | ⟨d, name, rfl, hname, hdir, -⟩
  · exact htree.names names (pathTree_ne_none_iff.mp hsettled.1)
  · exact htree.names_concat (pathTree_eq_dir_iff.mpr hdir) hname

theorem Fs.Canonical.ofString_display (hcan : fs.Canonical names) :
    ofString (absolute names).display = .absolute names :=
  PathBuf.ofString_display (PathBuf.proper_absolute (hcan.validName htree))

theorem Fs.Canonical.entryFrom_display (hcan : fs.Canonical names)
    (hkind : fs.kindAt (.absolute names) ≠ some .directory) (cwd : List String) :
    fs.entryFrom cwd (absolute names).display = some names := by
  have hsplit : ∃ d name, names = d ++ [name] ∧ ValidName name ∧ fs.pathTree d = some .dir := by
    rcases hcan with hsettled | ⟨d, name, rfl, hname, hdir, -⟩
    · rcases eq_nil_or_concat names with rfl | ⟨d, name, rfl⟩
      · exact absurd htree.wellFormed.root hkind
      · rw [concat_eq_append] at hsettled ⊢
        have hnames := htree.names _ (pathTree_ne_none_iff.mp hsettled.1)
        exact ⟨d, name, rfl, hnames name (by simp),
          htree.wellFormed.grounded.inside d name hsettled.1⟩
    · exact ⟨d, name, rfl, hname, pathTree_eq_dir_iff.mpr hdir⟩
  obtain ⟨d, name, rfl, hname, hdir⟩ := hsplit
  exact entryFrom_eq_some_iff.mpr
    ⟨d, name, maxSymlinks, isEntry_absolute htree hdir hname cwd, rfl⟩

theorem Fs.Canonical.entry_display (proc : Process)
    (hcan : fs.Canonical names) (hkind : fs.kindAt (.absolute names) ≠ some .directory) :
    proc.env.entry fs (absolute names).display = .absolute names := by
  simp only [Process.env, hcan.entryFrom_display htree hkind, map_some, getD_some]

theorem Fs.Canonical.canonicalizeOrRaw_display (hcan : fs.Canonical names) (whichArg : String) :
    canonicalizeOrRaw proc.env fs (absolute names).display whichArg =
      ((absolute names).display, none) := by
  have hpath : canonicalPath proc.env fs (absolute names).display =
      .ok (absolute names).display := by
    rcases hcan with hsettled | hfree
    · have hne : (absolute names).display ≠ "" := by
        intro hempty
        have habs := isAbsoluteText_display (Fs.Canonical.validName htree (.inl hsettled))
        rw [hempty] at habs
        exact absurd habs (by decide)
      simp only [canonicalPath, Process.env, canonicalize, if_neg hne,
        walkFrom_display htree hsettled]
    · obtain ⟨-, -, -, -, -, hnone⟩ := id hfree
      have hentry := Fs.Canonical.entryFrom_display htree (.inr hfree) (by rw [hnone]; decide)
        proc.cwd
      have hleads : fs.leadsTo proc.cwd (absolute names).display names = names := by
        refine (leadsTo_eq_iff htree.wellFormed hentry).mpr ?_
        rintro ⟨hlink, -⟩
        rw [hnone] at hlink
        cases hlink
      rw [canonicalPath_of_entry proc htree hentry, hleads]
  rw [canonicalizeOrRaw, hpath]

end Canonical

/-! ## What the shim captures -/

section Capture

variable {c : Collection}

/-- Something the shim has captured: a file, under its path. -/
def Captured (proc : Process) (h : Host) (fs : Fs) (pre : ShimPreImage) : Prop :=
  ∃ path, capturePreImageResolved proc.env h fs path false = some pre

theorem Captured.capturable (htree : fs.ValidTree) {pre : ShimPreImage}
    (hpre : Captured proc h fs pre) : Capturable h fs (.ofString pre.path) := by
  obtain ⟨path, hpath⟩ := hpre
  have hcap := (capturable_iff false).mpr ⟨_, hpath⟩
  obtain ⟨e, hentry, hcanon⟩ := canonicalOr_of_capturable htree hcap
  rw [(capturePreImageResolved_eq_some hpath).1, hcanon,
    ofString_display (proper_absolute (entryFrom_names htree hentry))]
  simpa only [Process.env, hentry, map_some, getD_some] using hcap

theorem captured_collectEntry {dir : String} {depth : Nat}
    (hout : ∀ pre ∈ c.out, Captured proc h fs pre) (name : String) :
    ∀ pre ∈ (collectEntry proc h fs dir depth c name).out, Captured proc h fs pre := by
  fun_cases collectEntry proc h fs dir depth c name with
  | case8 hstop path n hnode hdir hreg hbytes hskip pre hpre =>
    intro pre' hmem
    rcases mem_append.mp hmem with hmem | hmem
    · exact hout pre' hmem
    · rw [mem_singleton.mp hmem]
      exact ⟨path, hpre⟩
  | _ => exact hout

theorem captured_collectLoop {rounds : Nat} (hout : ∀ pre ∈ c.out, Captured proc h fs pre) :
    ∀ pre ∈ collectLoop proc h fs rounds c, Captured proc h fs pre := by
  fun_induction collectLoop proc h fs rounds c with
  | case1 c => exact hout
  | case2 rounds c hstack => exact hout
  | case3 rounds c dir depth rest hstack c' hstop => exact hout
  | case4 rounds c dir depth rest hstack c' hstop hdepth ih => exact ih hout
  | case5 rounds c dir depth rest hstack c' hstop hdepth ih =>
    refine ih (foldlRecOn (motive := fun (c : Collection) =>
      ∀ pre ∈ c.out, Captured proc h fs pre) _ _ hout ?_)
    intro c'' hout'' name _
    exact captured_collectEntry hout'' name

theorem captured_collectRecursivePreImages {fromAbs : String} :
    ∀ pre ∈ collectRecursivePreImages proc h fs fromAbs, Captured proc h fs pre := by
  unfold collectRecursivePreImages
  split
  · simp
  · split_ifs
    · simp
    · exact captured_collectLoop (by simp)

/-- What the interposer says of a rename of canonical paths. -/
structure RenameNote (proc : Process) (h : Host) (fs : Fs) (src dst : String)
    (note : ShimNotification) : Prop where
  syscall : note.syscall = "rename"
  failure : note.failure = none
  preImage : note.preImage = capturePreImageResolved proc.env h fs dst false
  captured : ∀ pre ∈ note.preImage.toList ++ note.extraPreImages, Captured proc h fs pre
  -- with a pre-image the argument is the destination alone
  replaced : note.preImage ≠ none → note.arg = dst
  packed : note.preImage = none → note.arg = src ++ "\t" ++ dst

/-- **What is sent of a rename.** -/
theorem notify_rename_canonical (htree : fs.ValidTree) {names names' : List String}
    (hsrc : fs.Canonical names) (hdst : fs.Canonical names') (hne : names ≠ names')
    (hkind : fs.kindAt (.absolute names') ≠ some .directory) :
    ∃ r, (NameCall.rename (absolute names).display
        (absolute names').display).notify proc h fs = some r ∧
      RenameNote proc h fs (absolute names).display (absolute names').display
        r.note := by
  have htext : (absolute names).display ≠ (absolute names').display := fun heq =>
    hne ((display_absolute_inj (hsrc.validName htree) (hdst.validName htree)).mp heq)
  rw [NameCall.notify, notifyRenameWithDstPreimage, hsrc.canonicalizeOrRaw_display htree,
    hdst.canonicalizeOrRaw_display htree]
  dsimp only
  rw [if_neg htext]
  refine ⟨_, rfl, rfl, rfl, rfl, ?_, ?_, ?_⟩
  · intro pre hpre
    rcases mem_append.mp hpre with hpre | hpre
    · exact ⟨_, mem_toList.mp hpre⟩
    · exact captured_collectRecursivePreImages pre hpre
  · intro hsome
    obtain ⟨pre, hpre⟩ := ne_none_iff_exists'.mp hsome
    change capturePreImageResolved _ _ _ _ _ = some pre at hpre
    have hcap := (capturable_iff false).mpr ⟨_, hpre⟩
    obtain ⟨e, hentry, hcanon⟩ := canonicalOr_of_capturable htree hcap
    rw [hdst.entryFrom_display htree hkind] at hentry
    cases hentry
    have hpath := (capturePreImageResolved_eq_some hpre).1.trans hcanon
    dsimp only
    rw [hpre]
    dsimp only
    rw [if_pos hpath, hpath]
  · intro hnone
    change capturePreImageResolved _ _ _ _ _ = none at hnone
    dsimp only
    rw [hnone]

end Capture

/-! ## What the daemon journals -/

section Daemon

variable {note : ShimNotification} {src dst : String} {ev : CaptureEvent}

variable (hnote : RenameNote proc h fs src dst note)

include hnote

theorem RenameNote.ingest_eq (env : ListenerEnv) (command : CommandId) (ts : TimePoint) :
    ingestNotification env note (some command) ts =
      ((note.preImage.toList ++ note.extraPreImages).flatMap fun pre =>
        journaled (ingestPreImage env command pre ts)) ++ ingestTreeOp env command note ts := by
  have hmeta : note.syscall ∉ metadataSyscalls := by
    rw [hnote.syscall]
    decide
  have hopen : note.syscall ∉ ["open", "openat", "truncate"] := by
    rw [hnote.syscall]
    decide
  have hname : note.syscall ∈ ["rename", "renameat", "renameat2"] := by
    rw [hnote.syscall]
    decide
  rw [ingestNotification, hnote.failure, if_neg hmeta, if_neg hopen, ingestNamePreImages,
    if_pos hname, flatMap_append]
  rfl

theorem RenameNote.treeOp_eq :
    ingestTreeOp env command note ts =
      match splitOnceTab note.arg with
      | none => []
      | some (a, b) => journaled (env.journal (newEvent command ts
          (.treeOp (.rename (.ofString a) (.ofString b) (env.inodeOrZero b))))) := by
  rw [ingestTreeOp, hnote.syscall]
  cases hsplit : splitOnceTab note.arg with
  | none => simp [classifyTreeOp, hsplit]
  | some ab => simp [classifyTreeOp, hsplit, isRelativeCreate]

theorem RenameNote.mem_ingest (htree : fs.ValidTree)
    (hev : ev ∈ ingestNotification env note (some command) ts) :
    (∀ p, PreImageAt p ev → Capturable h fs p) ∧
      ∀ p q inode, ev.kind = .treeOp (.rename p q inode) →
        ∃ a b, splitOnceTab note.arg = some (a, b) ∧ p = .ofString a ∧ q = .ofString b := by
  rw [hnote.ingest_eq, mem_append, mem_flatMap] at hev
  rcases hev with ⟨pre, hmem, hev⟩ | hev
  · obtain ⟨-, blob, stored, fileMeta, -, hkind⟩ :=
      ingestPreImageWithSource_eq_ok (mem_journaled.mp hev)
    constructor
    · rintro p ⟨_, _, _, _, _, hpre⟩
      rw [hpre] at hkind
      cases hkind
      exact (hnote.captured pre hmem).capturable htree
    · intro p q inode hren
      rw [hren] at hkind
      cases hkind
  · rw [hnote.treeOp_eq] at hev
    split at hev
    · cases hev
    rename_i a b hsplit
    obtain ⟨id, rfl⟩ := ListenerEnv.journal_eq_ok (mem_journaled.mp hev)
    constructor
    · rintro p ⟨_, _, _, _, _, hpre⟩
      cases hpre
    · rintro p q inode hren
      cases hren
      exact ⟨a, b, hsplit, rfl, rfl⟩

end Daemon

/-! ## The law -/

section Law

variable {src dst : ByteArray} {s t : String}

theorem fromUTF8?_toByteArray (text : String) : String.fromUTF8? text.toByteArray = some text := by
  rw [String.fromUTF8?, dif_pos text.isValidUTF8]
  rfl

theorem cstrToString_toByteArray (lossy : ByteArray → String) (text : String) :
    cstrToString lossy text.toByteArray = text := by
  rw [cstrToString, fromUTF8?_toByteArray]
  rfl

theorem CanonicalRename.destination_ne_directory (hcan : CanonicalRename fs src t.toByteArray) :
    ∃ names, t = (absolute names).display ∧ fs.Canonical names ∧
      fs.kindAt (.absolute names) ≠ some .directory := by
  obtain ⟨names, htext, hdst, hkind | hkind⟩ := hcan.destination t rfl
  · exact ⟨names, htext, hdst, by rw [hkind]; decide⟩
  · exact ⟨names, htext, hdst, by rw [hkind]; decide⟩

theorem renameEvents_canonical (lossy : ByteArray → String) (proc : Process) (h : Host)
    (env : ListenerEnv) (command : CommandId) (ts : TimePoint) (htree : fs.ValidTree)
    (hcan : CanonicalRename fs s.toByteArray t.toByteArray) :
    ∃ note, RenameNote proc h fs s t note ∧
      renameEvents lossy proc h fs env command ts s.toByteArray t.toByteArray =
        ingestNotification env note (some command) ts := by
  obtain ⟨names, rfl, hsrc⟩ := hcan.source s rfl
  obtain ⟨names', rfl, hdst, hfile⟩ := hcan.destination_ne_directory
  have hne : names ≠ names' := fun heq => hcan.ne (by rw [heq])
  obtain ⟨r, hr, hnote⟩ := notify_rename_canonical htree hsrc hdst hne hfile
  refine ⟨r.note, hnote, ?_⟩
  rw [renameEvents, interposeRename, cstrToString_toByteArray, cstrToString_toByteArray, hr]
  rfl

theorem RenameNote.preImage_ne_none_iff {note : ShimNotification} (htree : fs.ValidTree)
    (hcan : CanonicalRename fs src t.toByteArray) (hnote : RenameNote proc h fs s t note) :
    note.preImage ≠ none ↔ Capturable h fs (.ofString t) := by
  obtain ⟨names', rfl, hdst, hfile⟩ := hcan.destination_ne_directory
  have hentry := hdst.entry_display htree proc hfile
  rw [hnote.preImage, hdst.ofString_display htree]
  constructor
  · intro hsome
    obtain ⟨pre, hpre⟩ := ne_none_iff_exists'.mp hsome
    have hcap := (capturable_iff false).mpr ⟨_, hpre⟩
    rwa [hentry] at hcap
  · intro hcap
    rw [← hentry] at hcap
    obtain ⟨pre, hpre⟩ := (capturable_iff false).mp hcap
    rw [hpre]
    exact some_ne_none pre

/-- **Renames in the journal, exactly.** For every tree and working directory, every pair of
canonical paths, and every index that takes events. -/
theorem journalsRename_iff (lossy : ByteArray → String) (htree : fs.ValidTree)
    (hput : ∀ event, ∃ id, env.putEvent event = .ok id) (hcan : CanonicalRename fs src dst) :
    JournalsRename env fs src dst (renameEvents lossy proc h fs env command ts src dst) ↔
      PacksRight fs src dst := by
  constructor
  · rintro ⟨p, q, before, ev, after, inode, ⟨s, rfl, rfl⟩, ⟨t, rfl, rfl⟩, hevents, hkind, hsome, -⟩
    obtain ⟨note, hnote, heq⟩ := renameEvents_canonical lossy proc h env command ts htree hcan
    rw [heq] at hevents
    have hmem : ∀ e ∈ before ++ [ev], e ∈ ingestNotification env note (some command) ts := by
      intro e he
      rw [hevents, append_cons]
      exact mem_append_left _ he
    obtain ⟨a, b, hsplit, ha, hb⟩ := (hnote.mem_ingest htree (hmem ev (by simp))).2 _ _ _ hkind
    obtain ⟨hlist, hno⟩ := splitOnceTab_spec hsplit
    -- a destination that exists takes the place of the argument, and loses a tab
    have hfree : ¬ Capturable h fs (.ofString t) := by
      intro hcap
      rw [hnote.replaced ((hnote.preImage_ne_none_iff htree hcan).mpr hcap)] at hlist
      have htabs := congrArg tabs hb
      rw [tabs_ofString, tabs_ofString, hlist, count_append, count_cons_self] at htabs
      omega
    refine ⟨s, t, rfl, rfl, ?_, ?_⟩
    · have htabs := congrArg tabs ha
      rw [tabs_ofString, tabs_ofString, count_eq_zero.mpr hno] at htabs
      exact count_eq_zero.mp htabs
    · obtain ⟨names', rfl, hdst, hnone | hfile⟩ := hcan.destination t rfl
      · rwa [hdst.ofString_display htree]
      · -- a file without a pre-image
        exfalso
        rw [← hdst.ofString_display htree] at hfile
        obtain ⟨n, hn, hreg⟩ := kindAt_eq_some_iff.mp hfile
        obtain ⟨pre, hpre, inode', blob, stored, fileMeta, post, source, -, hkind'⟩ :=
          hsome n.content (by simp [fileAt, hn, hreg])
        exact hfree ((hnote.mem_ingest htree (hmem pre (by simp [hpre]))).1 _
          ⟨inode', blob, fileMeta, post, source, hkind'⟩)
  · rintro ⟨s, t, rfl, rfl, hno, hfree⟩
    obtain ⟨note, hnote, heq⟩ := renameEvents_canonical lossy proc h env command ts htree hcan
    have hcap : ¬ Capturable h fs (.ofString t) := by
      rintro ⟨i, hi, -⟩
      exact kindAt_ne_none hi hfree
    have hnone : note.preImage = none := by
      by_contra hpre
      exact hcap ((hnote.preImage_ne_none_iff htree hcan).mp hpre)
    obtain ⟨id, hid⟩ := hput (newEvent command ts
      (.treeOp (.rename (.ofString s) (.ofString t) (env.inodeOrZero t))))
    have hevents := hnote.ingest_eq env command ts
    rw [hnote.treeOp_eq, hnote.packed hnone, splitOnceTab_pack hno] at hevents
    dsimp only at hevents
    rw [ListenerEnv.journal, hid] at hevents
    rw [heq]
    refine ⟨_, _, _, _, [], env.inodeOrZero t, ⟨s, rfl, rfl⟩, ⟨t, rfl, rfl⟩, hevents, rfl, ?_, ?_⟩
    · intro bytes hbytes
      rw [kindAt_of_fileAt hbytes] at hfree
      cases hfree
    · intro _ pre hpre hof
      exact hcap ((hnote.mem_ingest htree (by rw [hevents]; exact mem_append_left _ hpre)).1 _ hof)

end Law

/-! ## A tree with tabs -/

/-- The paths of the event, if it is a rename. -/
def CaptureEvent.renamed (ev : CaptureEvent) : Option (PathBuf × PathBuf) :=
  match ev.kind with
  | .treeOp (.rename p q _) => some (p, q)
  | _ => none

theorem not_journalsRename {env : ListenerEnv} {fs : Fs} {s t : String} {events : List CaptureEvent}
    (hnone : (ofString s, ofString t) ∉ events.filterMap renamed) :
    ¬ JournalsRename env fs s.toByteArray t.toByteArray events := by
  rintro ⟨p, q, before, ev, after, inode, ⟨s', hs, rfl⟩, ⟨t', ht, rfl⟩, rfl, hkind, -⟩
  rw [String.toByteArray_inj.mp hs, String.toByteArray_inj.mp ht] at hkind
  refine hnone (mem_filterMap.mpr ⟨ev, by simp, ?_⟩)
  rw [renamed, hkind]

theorem CanonicalRename.of_file {fs : Fs} (names names' : List String)
    (hne : (absolute names).display ≠ (absolute names').display)
    (hsrc : fs.kindAt (.absolute names) = some .regular) (hdst : fs.Canonical names')
    (hkind : fs.kindAt (.absolute names') = none ∨ fs.kindAt (.absolute names') = some .regular) :
    CanonicalRename fs (absolute names).display.toByteArray
      (absolute names').display.toByteArray where
  ne := fun heq => hne (String.toByteArray_inj.mp heq)
  source := by
    intro text htext
    exact ⟨names, String.toByteArray_inj.mp htext, .inl (settled_of_regular hsrc)⟩
  destination := by
    intro text htext
    exact ⟨names', String.toByteArray_inj.mp htext, hdst, hkind⟩

/-- Two files in `/d`, and one whose name has a tab. -/
def tabbedTree : Fs :=
  .ofList [("/d", .dir), ("/d/a", .file [1]), ("/d/b", .file [2]), ("/d/x\ty", .file [3])]

theorem tabbedTree_validTree : tabbedTree.ValidTree :=
  validTree_of_check (by decide) (by decide)

/-- The events of a rename there. -/
def tabbedEvents (src dst : String) : List CaptureEvent :=
  renameEvents (fun _ => "?") linkedProcess .sample tabbedTree .sample ⟨1, 1⟩ ⟨5, 7⟩
    src.toByteArray dst.toByteArray

/-- A tab in the new name does no harm. -/
theorem rename_to_tabbed_name_journaled :
    CanonicalRename tabbedTree "/d/a".toByteArray "/d/m\tn".toByteArray ∧
      JournalsRename .sample tabbedTree "/d/a".toByteArray "/d/m\tn".toByteArray
        (tabbedEvents "/d/a" "/d/m\tn") := by
  have hfree : tabbedTree.Canonical ["d", "m\tn"] :=
    .inr ⟨["d"], "m\tn", rfl, ⟨by decide, by decide, by decide, by decide⟩, by decide, by decide⟩
  have hcan : CanonicalRename tabbedTree "/d/a".toByteArray "/d/m\tn".toByteArray :=
    CanonicalRename.of_file ["d", "a"] ["d", "m\tn"] (by decide) (by decide) hfree
      (.inl (by decide))
  refine ⟨hcan, (journalsRename_iff _ tabbedTree_validTree (fun _ => ⟨_, rfl⟩) hcan).mpr ?_⟩
  exact ⟨"/d/a", "/d/m\tn", rfl, rfl, by decide, by decide⟩

/-- A rename onto a file is not journaled at all; a tab in the old name ends up in the new one; and
no path in the journal has a name that is not UTF-8. -/
theorem rename_lost_or_torn :
    (CanonicalRename tabbedTree "/d/a".toByteArray "/d/b".toByteArray ∧
      (tabbedEvents "/d/a" "/d/b").filterMap renamed = [] ∧
      ¬ JournalsRename .sample tabbedTree "/d/a".toByteArray "/d/b".toByteArray
        (tabbedEvents "/d/a" "/d/b")) ∧
    (CanonicalRename tabbedTree "/d/x\ty".toByteArray "/d/n".toByteArray ∧
      (tabbedEvents "/d/x\ty" "/d/n").filterMap renamed =
        [(.ofString "/d/x", .ofString "y\t/d/n")] ∧
      ¬ JournalsRename .sample tabbedTree "/d/x\ty".toByteArray "/d/n".toByteArray
        (tabbedEvents "/d/x\ty" "/d/n")) ∧
    (CanonicalRename tabbedTree ⟨#[47, 255]⟩ "/d/n".toByteArray ∧
      ∀ events, ¬ JournalsRename .sample tabbedTree ⟨#[47, 255]⟩ "/d/n".toByteArray events) := by
  have hfree : tabbedTree.Canonical ["d", "n"] :=
    .inr ⟨["d"], "n", rfl, ⟨by decide, by decide, by decide, by decide⟩, by decide, by decide⟩
  have hlost : (tabbedEvents "/d/a" "/d/b").filterMap renamed = [] := by
    decide +kernel
  have htorn : (tabbedEvents "/d/x\ty" "/d/n").filterMap renamed =
      [(.ofString "/d/x", .ofString "y\t/d/n")] := by
    decide +kernel
  have hraw : ∀ text : String, text.toByteArray ≠ ⟨#[47, 255]⟩ := by
    intro text htext
    have hvalid := htext ▸ text.isValidUTF8
    exact absurd hvalid (by decide)
  refine ⟨⟨?_, hlost, ?_⟩, ⟨?_, htorn, ?_⟩, ?_, ?_⟩
  · exact CanonicalRename.of_file ["d", "a"] ["d", "b"] (by decide) (by decide)
      (.inl (settled_of_regular (by decide))) (.inr (by decide))
  · exact not_journalsRename (by rw [hlost]; exact not_mem_nil)
  · exact CanonicalRename.of_file ["d", "x\ty"] ["d", "n"] (by decide) (by decide) hfree
      (.inl (by decide))
  · exact not_journalsRename (by rw [htorn]; decide)
  · refine ⟨fun heq => hraw "/d/n" heq.symm, fun text htext => absurd htext (hraw text), ?_⟩
    intro text htext
    exact ⟨["d", "n"], String.toByteArray_inj.mp htext, hfree, .inl (by decide)⟩
  · rintro events ⟨p, q, before, ev, after, inode, ⟨text, htext, -⟩, -⟩
    exact hraw text htext

end ShitUndo
