import ShitUndo.SymlinkScan

/-!
# Undoing changes of symlinks

A command removes, retargets and makes symlinks in one directory, and each change is seen by a scan
(`SymlinkScan`). Its undo removes what was created and makes what was removed, the last change
first.

* `undone`: what this comes to for one name, from what the scans found under it.
-/

namespace ShitUndo

open List Option Function TreeOp Fs Conflict

open KeyedRun (runOne)

/-! ## Operations on links -/

/-- The inverses of what the scans tell of. -/
inductive LinkOp where
  | remove (path : PathBuf)
  | make (target : String) (path : PathBuf)
deriving DecidableEq, Repr

def LinkOp.path : LinkOp → PathBuf
  | .remove path | .make _ path => path

def LinkOp.inverse : LinkOp → InverseOp
  | .remove path => .unlink path
  | .make target path => .createSymlink target path

/-- Removing what is not there does nothing; a link is made only where there is none. -/
def LinkOp.act : LinkOp → Option String → Option (Option String)
  | .remove _, _ => some none
  | .make target _, none => some (some target)
  | .make _ _, some _ => none

/-- The inverse of an event of the scans. -/
def TreeOp.linkOp : TreeOp → Option LinkOp
  | .create _ path _ _ => some (.remove path)
  | .symlinkRemoved target path => some (.make target path)
  | _ => none

/-! ## One name -/

/-- The target that comes back when an entry has become another one. -/
def replacedTarget (prev cur : Option DirEntryBaseline) : Option String :=
  match prev.bind DirEntryBaseline.symlinkTarget with
  | none => none
  | some target =>
    if cur.bind DirEntryBaseline.symlinkTarget = some target then none else some target

/-- **The link under a name after everything the scans found under it is undone.** `base` is the
link that is there at the end. Only the first change matters. -/
def undone (base : Option String) :
    Option DirEntryBaseline → List (Option DirEntryBaseline) → Option String
  | _, [] => base
  | prev, cur :: rest => if prev = cur then undone base cur rest else replacedTarget prev cur

variable {h : Host} {r : Renderers} {order : HashOrder} {command : CommandRecord}
  {store : PlannerStore} {p dir : PathBuf} {fs : Fs} {states : List Fs} {events : List CaptureEvent}
  {base : Option String}

section OneName

variable {prev cur : Option DirEntryBaseline} {rest : List (Option DirEntryBaseline)}

theorem undone_none (hbase : rest.getLastD none = none → base = none) :
    undone base none rest = none := by
  induction rest with
  | nil => exact hbase rfl
  | cons cur rest ih =>
    rw [undone]
    split_ifs with hsame
    · subst hsame
      exact ih (by rwa [getLastD_cons] at hbase)
    · rfl

theorem runOne_nameScan {v : Option String} (hv : cur = none → v = none) :
    runOne LinkOp.act ((nameScan p fs prev cur).reverse.filterMap linkOp) v =
      some (if prev = cur then v else replacedTarget prev cur) := by
  unfold nameScan
  split_ifs with hsame
  · rfl
  cases cur with
  | none =>
    obtain rfl : v = none := hv rfl
    cases prev with
    | none => exact absurd rfl hsame
    | some e =>
      cases htarget : e.symlinkTarget with
      | none => simp [targetRemoved, htarget, replacedTarget, runOne]
      | some target =>
        simp [targetRemoved, htarget, replacedTarget, runOne, linkOp, LinkOp.act]
  | some new =>
    cases prev with
    | none => simp [replacedTarget, runOne, linkOp, LinkOp.act]
    | some e =>
      cases htarget : e.symlinkTarget with
      | none => simp [targetRemoved, htarget, replacedTarget, runOne, linkOp, LinkOp.act]
      | some target =>
        by_cases hkept : new.symlinkTarget = some target
        · simp [targetRemoved, htarget, replacedTarget, runOne, linkOp, LinkOp.act, hkept]
        · simp [targetRemoved, htarget, replacedTarget, runOne, linkOp, LinkOp.act, hkept,
            Ne.symm hkept]

/-- **Undoing all of them.** -/
theorem runOne_nameScans {states : List Fs}
    (hbase : (states.map fun s => s.entryAt p).getLastD prev = none → base = none) :
    runOne LinkOp.act ((nameScans p prev states).reverse.filterMap linkOp) base =
      some (undone base prev (states.map fun s => s.entryAt p)) := by
  induction states generalizing prev with
  | nil => rfl
  | cons next rest ih =>
    have hrest : (rest.map fun s => s.entryAt p).getLastD (next.entryAt p) = none →
        base = none := by
      rwa [map_cons, getLastD_cons] at hbase
    rw [nameScans, reverse_append, filterMap_append, KeyedRun.runOne_append, ih hrest,
      bind_some, map_cons, undone]
    refine runOne_nameScan fun hnone => ?_
    rw [hnone] at hrest ⊢
    exact undone_none hrest

end OneName

/-! ## The file system -/

/-- The target of the symlink at a path. -/
def Fs.linkAt (fs : Fs) (p : PathBuf) : Option String :=
  (fs.node p).bind fun n => if n.kind = .symlink then some n.target else none

/-- Nothing but a symlink is at the path. -/
def Fs.LinkOrFree (fs : Fs) (p : PathBuf) : Prop := fs.kindAt p = none ∨ fs.kindAt p = some .symlink

/-- **A file system read as a table of links.** `slot` says which names hold symlinks or nothing;
everything else is as in `others`. -/
structure ShowsLinks (dir : PathBuf) (slot : PathBuf → Prop) (others : PathBuf → Option Inode)
    (fs : Fs) (links : PathBuf → Option String) : Prop where
  wellFormed : fs.WellFormed
  isDir : fs.IsDir dir
  slots : ∀ p, slot p → fs.LinkOrFree p
  others_eq : ∀ p, ¬ slot p → fs.node p = others p
  links_eq : ∀ p, fs.linkAt p = links p

section World

variable {slot : PathBuf → Prop} {others : PathBuf → Option Inode} {u : Fs}
  {links : PathBuf → Option String} {name : String} {c : Option Conflict} {n : Option Inode}

theorem Fs.LinkOrFree.isLink {n : Inode} (hfree : fs.LinkOrFree p) (hnode : fs.node p = some n) :
    n.kind = .symlink := by
  rw [Fs.LinkOrFree, kindAt_of_node hnode] at hfree
  rcases hfree with hnone | hlink
  · cases hnone
  · exact some.inj hlink

theorem linkAt_eq_none_iff (hfree : fs.LinkOrFree p) : fs.linkAt p = none ↔ fs.node p = none := by
  unfold linkAt
  cases hnode : fs.node p with
  | none => simp
  | some n => simp [hfree.isLink hnode]

theorem ShowsLinks.update {target : Option String} (hshow : ShowsLinks dir slot others fs links)
    (hslot : slot (childPath dir name))
    (hnode : u.node = update fs.node (childPath dir name) n) (hwf : u.WellFormed)
    (hkind : ∀ m, n = some m → m.kind = .symlink) (htarget : n.map Inode.target = target) :
    ShowsLinks dir slot others u (update links (childPath dir name) target) := by
  have hne : dir ≠ childPath dir name := by
    intro heq
    simpa [childPath] using congrArg length heq
  have hself : u.node (childPath dir name) = n := by rw [hnode, update_self]
  have hother : ∀ q, q ≠ childPath dir name → u.node q = fs.node q := fun q hq => by
    rw [hnode, update_of_ne hq]
  refine ⟨hwf, ?_, fun q hq => ?_, fun q hq => ?_, fun q => ?_⟩
  · rw [Fs.IsDir, kindAt, hother dir hne]
    exact hshow.isDir
  · by_cases hqp : q = childPath dir name
    · subst hqp
      rw [Fs.LinkOrFree, kindAt, hself]
      cases n with
      | none => exact .inl rfl
      | some m => exact .inr (by rw [map_some, hkind m rfl])
    · rw [Fs.LinkOrFree, kindAt, hother q hqp]
      exact hshow.slots q hq
  · have hqp : q ≠ childPath dir name := by
      rintro rfl
      exact hq hslot
    rw [hother q hqp]
    exact hshow.others_eq q hq
  · by_cases hqp : q = childPath dir name
    · subst hqp
      rw [update_self, linkAt, hself, ← htarget]
      cases n with
      | none => rfl
      | some m => simp [hkind m rfl]
    · rw [update_of_ne hqp, linkAt, hother q hqp]
      exact hshow.links_eq q

theorem absolutePath_child (habs : AbsolutePath dir) (name : String) :
    AbsolutePath (childPath dir name) := by
  obtain ⟨names, rfl⟩ := habs
  exact ⟨names ++ [name], by simp [childPath]⟩

theorem ShowsLinks.absolute (hshow : ShowsLinks dir slot others fs links) : AbsolutePath dir := by
  refine hshow.wellFormed.absolute dir ?_
  rw [show fs.kindAt dir = some .directory from hshow.isDir]
  exact some_ne_none _

theorem kindAt_of_node_update (hnode : u.node = update fs.node p n) :
    u.kindAt = update fs.kindAt p (n.map Inode.kind) := by
  funext q
  by_cases hq : q = p
  · subst hq
    rw [update_self, kindAt, hnode, update_self]
  · rw [update_of_ne hq, kindAt, hnode, update_of_ne hq]
    rfl

section Steps

variable (hp : h.Permissive) (hc : c.any isHard = false)
  (hshow : ShowsLinks dir slot others fs links) (hslot : slot (childPath dir name))

include hp hc hshow hslot

theorem ShowsLinks.remove :
    ∃ u, RunsThrough (fileRuntime h) OutcomeKind.IsSettled [.fresh (.unlink (childPath dir name)) c]
        fs u ∧
      ShowsLinks dir slot others u (Function.update links (childPath dir name) none) := by
  cases hnode : fs.node (childPath dir name) with
  | none =>
    -- nothing is there: the op is passed over, and the table has nothing there either
    have hlink : links (childPath dir name) = none := by
      rw [← hshow.links_eq, linkAt_eq_none_iff (hshow.slots _ hslot), hnode]
    have hpre : preconditionConflict (fs.probe h) (.unlink (childPath dir name)) =
        some (.missing ((childPath dir name).debug ++ " no longer exists")) := by
      simp [preconditionConflict, probe_pathExists, hnode]
    refine ⟨fs, through_missing (.inr rfl) hc rfl hpre, ?_⟩
    rwa [update_eq_self_iff.mpr hlink.symm]
  | some n =>
    have hkind := (hshow.slots _ hslot).isLink hnode
    have habs := absolutePath_child hshow.absolute name
    have hbelow : ∀ q, childPath dir name <+: q → q ≠ childPath dir name → fs.kindAt q = none :=
      fun q hpq hne => hshow.wellFormed.rooted.none_below_leaf habs.ne_nil
        (kindAt_of_node hnode) (by rw [hkind]; decide) hpq hne
    obtain ⟨u, hrun, hcut⟩ :=
      through_unlink hp OutcomeKind.isSettled_applied hc hshow.wellFormed hnode
    have hu : u.node = Function.update fs.node (childPath dir name) none := by
      rw [hcut, PathTree.cut_eq_update fun q hpq hne => kindAt_eq_none_iff.mp (hbelow q hpq hne)]
    have hroot : childPath dir name ≠ [.rootDir] := by
      intro hroot
      simpa [childPath] using congrArg getLast? hroot
    have hwf : u.WellFormed :=
      hshow.wellFormed.erase (kindAt_of_node_update hu) hroot hbelow
    exact ⟨u, hrun, hshow.update hslot hu hwf (fun m hm => by cases hm) rfl⟩

theorem ShowsLinks.make (target : String) (hfree : links (childPath dir name) = none) :
    ∃ u, RunsThrough (fileRuntime h) OutcomeKind.IsSettled
        [.fresh (.createSymlink target (childPath dir name)) c] fs u ∧
      ShowsLinks dir slot others u (Function.update links (childPath dir name) (some target)) := by
  have hnode : fs.node (childPath dir name) = none := by
    rw [← linkAt_eq_none_iff (hshow.slots _ hslot), hshow.links_eq, hfree]
  have habs := absolutePath_child hshow.absolute name
  have hparent : (childPath dir name).parent = some dir := PathBuf.parent_concat_normal dir name
  have hdropLast : (childPath dir name).dropLast = dir := dropLast_concat
  have happly : applyFileOp h (.createSymlink target (childPath dir name)) fs =
      (.applied, fs.create h (childPath dir name) (h.newInode .symlink 0o777 [] target)) := by
    simp only [applyFileOp, applyCreateSymlink, hp.attempt, node_eq_none_iff.mp hnode,
      parentIsDir_of_isDir hparent hshow.isDir]
  have hpre : preconditionConflict (fs.probe h) (.createSymlink target (childPath dir name)) =
      none := by
    simp [preconditionConflict, probe_pathExists, hnode]
  have hu := node_create h (childPath dir name) (h.newInode .symlink 0o777 [] target) fs
  have hwf := hshow.wellFormed.put (kindAt_of_node_update hu) habs
    (by rw [hdropLast]; exact hshow.isDir)
    fun hdir => absurd hdir (not_isDir_of_free (kindAt_eq_none_iff.mpr hnode))
  refine ⟨_, through_op OutcomeKind.isSettled_applied hc rfl hpre happly,
    hshow.update hslot hu hwf ?_ rfl⟩
  intro m hm
  cases hm
  rfl

end Steps

/-- The node is the inverse of the operation. -/
def NodeFor (op : LinkOp) (node : PlanNode) : Prop :=
  ∃ c : Option Conflict, c.any isHard = false ∧ node = .fresh op.inverse c

/-- **The orchestrator runs the inverses as operations on a table of links.** -/
theorem ShowsLinks.run (hp : h.Permissive) {ops : List LinkOp} {nodes : List PlanNode}
    {links' : PathBuf → Option String} (hnodes : List.Forall₂ NodeFor ops nodes)
    (hops : ∀ op ∈ ops, slot op.path ∧ ∃ name, op.path = childPath dir name)
    (hshow : ShowsLinks dir slot others fs links)
    (hrun : KeyedRun.run LinkOp.act LinkOp.path ops links = some links') :
    ∃ u, RunsThrough (fileRuntime h) OutcomeKind.IsSettled nodes fs u ∧
      ShowsLinks dir slot others u links' := by
  induction hnodes generalizing fs links with
  | nil =>
    cases hrun
    exact ⟨fs, .nil fs, hshow⟩
  | cons hnode hrest ih =>
    rename_i op node ops nodes
    obtain ⟨c, hc, rfl⟩ := hnode
    obtain ⟨hslot, name, hpath⟩ := hops op mem_cons_self
    rw [KeyedRun.run, bind_eq_some_iff] at hrun
    obtain ⟨target, hact, hrun⟩ := hrun
    have hstep : ∃ u, RunsThrough (fileRuntime h) OutcomeKind.IsSettled [.fresh op.inverse c] fs u ∧
        ShowsLinks dir slot others u (Function.update links op.path target) := by
      rw [hpath] at hact hslot ⊢
      cases op with
      | remove path =>
        cases hact
        obtain rfl : path = childPath dir name := hpath
        exact hshow.remove hp hc hslot
      | make text path =>
        obtain rfl : path = childPath dir name := hpath
        cases hfree : links (childPath dir name) with
        | some other =>
          rw [hfree] at hact
          cases hact
        | none =>
          rw [hfree] at hact
          cases hact
          exact hshow.make hp hc hslot text hfree
    obtain ⟨u, hone, hshow'⟩ := hstep
    obtain ⟨u', hall, hend⟩ := ih (fun o ho => hops o (mem_cons_of_mem op ho)) hshow' hrun
    exact ⟨u', hone.append hall, hend⟩

end World

/-! ## The journal and its plan -/

/-- The events of a command, in order. -/
structure Journaled (ops : List TreeOp) (events : List CaptureEvent) : Prop where
  kinds : events.map CaptureEvent.kind = ops.map CaptureEventKind.treeOp
  complete : ∀ ev ∈ events, ev.isPartial = false
  ordered : events.Pairwise CaptureEvent.keyLt

/-- Only what the scans tell of symlinks. -/
def LinkEvents (ops : List TreeOp) : Prop := ∀ op ∈ ops, op.linkOp ≠ none

/-- The operations of the journal, but for those at transient paths. -/
def undoOps (transient : List PathBuf) (ops : List TreeOp) : List LinkOp :=
  (ops.reverse.filterMap linkOp).filter fun link => decide (link.path ∉ transient)

section Planning

variable {probe : StateProbe} {cls : EventClassification} {ops : List TreeOp} {ev : CaptureEvent}

theorem Journaled.live_eq (hj : Journaled ops events) :
    liveEvents events = events.reverse := liveEvents_eq_reverse hj.complete hj.ordered

theorem Journaled.mem_live (hj : Journaled ops events) (hev : ev ∈ liveEvents events) :
    ∃ op ∈ ops, ev.kind = .treeOp op := by
  have hkind : ev.kind ∈ ops.map CaptureEventKind.treeOp := by
    rw [← hj.kinds]
    exact mem_map_of_mem (mem_liveEvents.mp hev).1
  obtain ⟨op, hop, hkind⟩ := mem_map.mp hkind
  exact ⟨op, hop, hkind.symm⟩

theorem Journaled.mem_creates_iff (hj : Journaled ops events) :
    p ∈ creates (liveEvents events) ↔ ∃ i kind mode, TreeOp.create i p kind mode ∈ ops := by
  rw [mem_creates]
  constructor
  · rintro ⟨ev, hev, i, kind, mode, hkind⟩
    obtain ⟨op, hop, hop'⟩ := hj.mem_live hev
    rw [hkind] at hop'
    cases hop'
    exact ⟨i, kind, mode, hop⟩
  · rintro ⟨i, kind, mode, hop⟩
    have hmem : CaptureEventKind.treeOp (.create i p kind mode) ∈ events.map CaptureEvent.kind := by
      rw [hj.kinds]
      exact mem_map_of_mem hop
    obtain ⟨ev, hev, hkind⟩ := mem_map.mp hmem
    exact ⟨ev, mem_liveEvents.mpr ⟨hev, hj.complete ev hev⟩, i, kind, mode, hkind⟩

variable (hj : Journaled ops events) (hlinks : LinkEvents ops)

include hj hlinks

theorem Journaled.not_mem_unlinks (p : PathBuf) : p ∉ unlinks (liveEvents events) := by
  intro hp
  obtain ⟨ev, hev, _, _, _, hkind⟩ := mem_unlinks.mp hp
  obtain ⟨op, hop, hop'⟩ := hj.mem_live hev
  rw [hkind] at hop'
  cases hop'
  exact hlinks _ hop rfl

theorem Journaled.not_mem_renameDestinations (p : PathBuf) :
    p ∉ renameDestinations (liveEvents events) := by
  intro hp
  obtain ⟨ev, hev, _, _, hkind⟩ := mem_renameDestinations.mp hp
  obtain ⟨op, hop, hop'⟩ := hj.mem_live hev
  rw [hkind] at hop'
  cases hop'
  exact hlinks _ hop rfl

omit hlinks in
theorem Journaled.not_mem_preImages (p : PathBuf) : p ∉ preImages (liveEvents events) := by
  intro hp
  obtain ⟨ev, hev, _, _, _, _, _, hkind, -⟩ := mem_preImages.mp hp
  obtain ⟨op, -, hop'⟩ := hj.mem_live hev
  rw [hkind] at hop'
  cases hop'

theorem Journaled.transient_iff :
    p ∈ (classify order events probe).transientPaths ↔
      (∃ i kind mode, TreeOp.create i p kind mode ∈ ops) ∧ probe.stat p = none := by
  have hmem : p ∈ (classify order events probe).transientPaths ↔ _ := mem_transientPaths
  rw [hmem, hj.mem_creates_iff]
  simp [hj.not_mem_unlinks hlinks p]

theorem Journaled.noAliases : NoAliases (classify order events probe) := by
  refine SingleUnlinks.noAliases ?_
  intro i p q hp
  obtain ⟨ev, hev, _, _, hkind, -⟩ := mem_unlinkedInodes.mp hp
  exact absurd (mem_unlinks.mpr ⟨ev, hev, _, _, _, hkind⟩) (hj.not_mem_unlinks hlinks _)

omit hlinks in
theorem Journaled.not_atomic (p : PathBuf) :
    p ∉ (classify order events probe).atomicReplacePaths := fun hp =>
  hj.not_mem_preImages p (mem_atomicReplacePaths.mp hp).1

theorem Journaled.not_subsumed (p : PathBuf) :
    p ∉ (classify order events probe).renameSubsumedCreates := by
  intro hp
  have hp : p ∈ renameSubsumedCreates (liveEvents events) := hp
  have hdst : renameDestinations (liveEvents events) = [] :=
    eq_nil_iff_forall_not_mem.mpr (hj.not_mem_renameDestinations hlinks)
  simp [renameSubsumedCreates, hdst] at hp

omit hlinks in
theorem Journaled.not_spurious (p : PathBuf) :
    p ∉ (classify order events probe).spuriousCreatesWithPreimage := by
  intro hp
  have hp : p ∈ spuriousCreatesWithPreimage (liveEvents events) probe := hp
  have hpre : p ∈ preCommandPreImages (liveEvents events) :=
    (of_decide_eq_true (mem_filter.mp hp).2).2.1
  exact hj.not_mem_preImages p (mem_preImages_of_preCommand hpre)

theorem Journaled.emit {op : TreeOp} {link : LinkOp} (hkind : ev.kind = .treeOp op)
    (hlink : op.linkOp = some link)
    (htrans : link.path ∉ (classify order events probe).transientPaths) :
    ∃ node, NodeFor link node ∧
      (emitUnlessSkipped r probe store (classify order events probe) ev).nodes = [node] := by
  have hna : NoAliases (classify order events probe) := hj.noAliases hlinks
  cases op with
  | create i path kind mode =>
    cases hlink
    obtain ⟨c, hc, hnodes⟩ : ∃ c : Option Conflict, c.any isHard = false ∧
        (emitUnlessSkipped r probe store (classify order events probe) ev).nodes =
          [.fresh (.unlink path) c] :=
      emit_create hna hkind htrans (hj.not_atomic path) (hj.not_subsumed hlinks path)
        (hj.not_spurious path)
    exact ⟨_, ⟨c, hc, rfl⟩, hnodes⟩
  | symlinkRemoved target path =>
    cases hlink
    have hskip : skipsEvent (classify order events probe) ev = false :=
      skipsEvent_of_noAliases hna (by simp [eventPath, hkind]; rfl) htrans
    refine ⟨_, ⟨none, rfl, rfl⟩, ?_⟩
    rw [emitUnlessSkipped, hskip]
    simp [emitForEvent, hkind, emitForTreeOp, LinkOp.inverse]
  | unlink | rename | link | symlink => cases hlink

/-- **The plan has one node for each.** -/
theorem Journaled.nodes :
    List.Forall₂ NodeFor (undoOps (classify order events probe).transientPaths ops)
      (planNodes r order events probe store) := by
  have hboth : ∀ (rest : List TreeOp) (evs : List CaptureEvent),
      evs.map CaptureEvent.kind = rest.map CaptureEventKind.treeOp → (∀ op ∈ rest, op ∈ ops) →
      List.Forall₂ NodeFor ((rest.filterMap linkOp).filter fun link =>
          decide (link.path ∉ (classify order events probe).transientPaths))
        (evs.flatMap fun ev =>
          (emitUnlessSkipped r probe store (classify order events probe) ev).nodes) := by
    intro rest
    induction rest with
    | nil =>
      intro evs hkinds _
      rw [map_eq_nil_iff.mp hkinds]
      exact .nil
    | cons op rest ih =>
      intro evs hkinds hsub
      obtain ⟨ev, evs, rfl, hkind, hkinds⟩ := map_eq_cons_iff.mp hkinds
      have htail := ih evs hkinds fun o ho => hsub o (mem_cons_of_mem op ho)
      obtain ⟨link, hlink⟩ :=
        ne_none_iff_exists'.mp (hlinks op (hsub op mem_cons_self))
      rw [flatMap_cons, filterMap_cons_some hlink]
      by_cases htrans : link.path ∈ (classify order events probe).transientPaths
      · have hpath : eventPath ev = some link.path := by
          cases op <;> cases hlink <;> simp [eventPath, hkind, LinkOp.path]
        rw [filter_cons_of_neg (by simpa using htrans), emit_of_transient hpath htrans]
        exact htail
      · obtain ⟨node, hnode, hnodes⟩ := hj.emit (r := r) hlinks hkind hlink htrans
        rw [filter_cons_of_pos (by simpa using htrans), hnodes]
        exact .cons hnode htail
  rw [planNodes, hj.live_eq, undoOps]
  refine hboth ops.reverse events.reverse ?_ fun op hop => mem_reverse.mp hop
  rw [map_reverse, map_reverse, hj.kinds]

end Planning

/-! ## The command -/

/-- A name in the directory that holds a symlink or nothing. -/
def LinkSlot (dir : PathBuf) (fs : Fs) (p : PathBuf) : Prop :=
  (∃ name, p = childPath dir name) ∧ fs.LinkOrFree p

/-- Nothing has changed at a path. -/
def SameAt (fs fs' : Fs) (p : PathBuf) : Prop := fs'.lookup p = fs.lookup p ∧ fs'.node p = fs.node p

/-- **From one scan to the next only symlinks in the directory have changed.** -/
def TouchesLinks (dir : PathBuf) (fs fs' : Fs) : Prop :=
  ∀ p, SameAt fs fs' p ∨ LinkSlot dir fs p ∧ fs'.LinkOrFree p

/-- Something was found under the name that was not found there before. -/
def everCreated : Option DirEntryBaseline → List (Option DirEntryBaseline) → Bool
  | _, [] => false
  | prev, cur :: rest => (cur.isSome && decide (prev ≠ cur)) || everCreated cur rest

/-- **A name whose changes can be undone.** There was nothing before; or the scans always found the
same; or they first found the target replaced, by another one or by nothing, and there is something
at the end unless nothing was ever created there. -/
def Undoable (prev : Option DirEntryBaseline) (found : List (Option DirEntryBaseline)) : Prop :=
  prev = none ∨ (∀ cur ∈ found, cur = prev) ∨
    ∃ target cur, prev.bind DirEntryBaseline.symlinkTarget = some target ∧
      found.find? (fun cur => decide (cur ≠ prev)) = some cur ∧
      cur.bind DirEntryBaseline.symlinkTarget ≠ some target ∧
      (found.getLastD prev = none → everCreated prev found = false)

/-- The symlinks of the one are the symlinks of the other. -/
def SameLinks (fs fs' : Fs) : Prop := ∀ p, fs'.linkAt p = fs.linkAt p

/-- **A command whose symlinks come back.** One on the refuse list has left them as they were; for
any other the changes at every name can be undone. -/
def LinksUndoable (command : CommandRecord) (dir : PathBuf) (fs : Fs) (states : List Fs) : Prop :=
  match command.refusal with
  | some _ => SameLinks fs (states.getLastD fs)
  | none =>
    ∀ name, Undoable (fs.entryAt (childPath dir name))
      (states.map fun s => s.entryAt (childPath dir name))

section Command

variable {fs' : Fs}

theorem SameAt.linkOrFree (hsame : SameAt fs fs' p) : fs'.LinkOrFree p ↔ fs.LinkOrFree p := by
  rw [Fs.LinkOrFree, Fs.LinkOrFree, kindAt, kindAt, hsame.2]

theorem SameAt.linkAt (hsame : SameAt fs fs' p) : fs'.linkAt p = fs.linkAt p := by
  rw [Fs.linkAt, Fs.linkAt, hsame.2]

theorem SameAt.entryAt (hsame : SameAt fs fs' p) : fs'.entryAt p = fs.entryAt p := by
  rw [Fs.entryAt, Fs.entryAt, hsame.1]
  cases hlookup : fs.lookup p with
  | none => rfl
  | some i =>
    have hinode : fs'.inode i = fs.inode i := by
      have hnode := hsame.2
      rw [node, node, hsame.1, hlookup] at hnode
      exact some.inj hnode
    rw [map_some, map_some, dirEntry, dirEntry, hinode]

/-- **A slot stays a slot, and nothing else changes.** -/
theorem slot_or_same (hchain : List.IsChain (TouchesLinks dir) (fs :: states)) (p : PathBuf) :
    (LinkSlot dir fs p → ∀ s ∈ states, s.LinkOrFree p) ∧
      (¬ LinkSlot dir fs p → ∀ s ∈ states, SameAt fs s p) := by
  induction states generalizing fs with
  | nil =>
    exact ⟨fun _ _ hs => absurd hs not_mem_nil, fun _ _ hs => absurd hs not_mem_nil⟩
  | cons next rest ih =>
    rw [isChain_cons_cons] at hchain
    obtain ⟨hslots, hothers⟩ := ih hchain.2
    constructor
    · rintro ⟨hname, hfree⟩
      have hnext : next.LinkOrFree p := by
        rcases hchain.1 p with hsame | ⟨-, hnext⟩
        · exact hsame.linkOrFree.mpr hfree
        · exact hnext
      intro s hs
      rcases mem_cons.mp hs with rfl | hs
      · exact hnext
      · exact hslots ⟨hname, hnext⟩ s hs
    · intro hslot
      have hsame : SameAt fs next p := by
        rcases hchain.1 p with hsame | ⟨hslot', -⟩
        · exact hsame
        · exact absurd hslot' hslot
      have hslot' : ¬ LinkSlot dir next p := fun h => hslot ⟨h.1, hsame.linkOrFree.mp h.2⟩
      intro s hs
      rcases mem_cons.mp hs with rfl | hs
      · exact hsame
      · have hrest := hothers hslot' s hs
        exact ⟨hrest.1.trans hsame.1, hrest.2.trans hsame.2⟩

theorem entryAt_cases (hfree : fs.LinkOrFree p) :
    (fs.entryAt p = none ∧ fs.linkAt p = none) ∨
      ∃ i target, fs.entryAt p = some ⟨i, if target = "" then none else some target⟩ ∧
        fs.linkAt p = some target := by
  cases hlookup : fs.lookup p with
  | none =>
    refine .inl ⟨by rw [entryAt, hlookup]; rfl, ?_⟩
    rw [linkAt_eq_none_iff hfree, node, hlookup]
    rfl
  | some i =>
    have hkind := hfree.isLink (node_of_lookup hlookup)
    refine .inr ⟨i, (fs.inode i).target, ?_, ?_⟩
    · rw [entryAt, hlookup, map_some, dirEntry, if_pos hkind, readlinkAt]
    · rw [linkAt, node_of_lookup hlookup, bind_some, if_pos hkind]

theorem linkAt_of_entryAt (hfree : fs.LinkOrFree p) (hfree' : fs'.LinkOrFree p)
    (hentry : fs'.entryAt p = fs.entryAt p) : fs'.linkAt p = fs.linkAt p := by
  rcases entryAt_cases hfree with ⟨he, hl⟩ | ⟨i, target, he, hl⟩ <;>
    rcases entryAt_cases hfree' with ⟨he', hl'⟩ | ⟨i', target', he', hl'⟩ <;>
    rw [he, he'] at hentry
  · rw [hl, hl']
  · cases hentry
  · cases hentry
  · have hsame := (DirEntryBaseline.mk.inj (some.inj hentry)).2
    have htarget : target' = target := by
      split_ifs at hsame with h' h
      · rw [h', h]
      · exact some.inj hsame
    rw [hl, hl', htarget]

/-! ### The first change -/

variable {prev cur : Option DirEntryBaseline} {found : List (Option DirEntryBaseline)}

theorem undone_of_same (hsame : ∀ cur ∈ found, cur = prev) : undone base prev found = base := by
  induction found with
  | nil => rfl
  | cons cur rest ih =>
    obtain rfl : cur = prev := hsame cur mem_cons_self
    rw [undone, if_pos rfl]
    exact ih fun c hc => hsame c (mem_cons_of_mem cur hc)

theorem undone_of_change (hfirst : found.find? (fun cur => decide (cur ≠ prev)) = some cur) :
    undone base prev found = replacedTarget prev cur := by
  induction found with
  | nil => cases hfirst
  | cons next rest ih =>
    rw [undone]
    by_cases hsame : prev = next
    · subst hsame
      rw [find?_cons_of_neg (by simp)] at hfirst
      rw [if_pos rfl]
      exact ih hfirst
    · rw [find?_cons_of_pos (by simpa using Ne.symm hsame)] at hfirst
      rw [if_neg hsame, some.inj hfirst]

theorem exists_change (hchange : ¬ ∀ cur ∈ found, cur = prev) :
    ∃ cur, found.find? (fun cur => decide (cur ≠ prev)) = some cur := by
  rw [← isSome_iff_exists, find?_isSome]
  push Not at hchange
  obtain ⟨cur, hcur, hne⟩ := hchange
  exact ⟨cur, hcur, by simpa using hne⟩

theorem replacedTarget_eq_some_iff {target : String} :
    replacedTarget prev cur = some target ↔ prev.bind DirEntryBaseline.symlinkTarget = some target ∧
      cur.bind DirEntryBaseline.symlinkTarget ≠ some target := by
  unfold replacedTarget
  cases prev.bind DirEntryBaseline.symlinkTarget with
  | none => simp
  | some old =>
    dsimp only
    split_ifs with hkept
    · simp only [false_iff, not_and, not_not]
      rintro ⟨⟩
      exact hkept
    · refine ⟨?_, And.left⟩
      rintro ⟨⟩
      exact ⟨rfl, hkept⟩

/-- **The link under a name is the one that was there before exactly when its changes can be
undone.** A transient name is left as it is, which is empty. -/
theorem undone_eq_iff {final : Fs} {T : Prop} [Decidable T] (hfree : fs.LinkOrFree p)
    (hfree' : final.LinkOrFree p) (hlast : found.getLastD (fs.entryAt p) = final.entryAt p)
    (htrans : T ↔ everCreated (fs.entryAt p) found = true ∧ final.entryAt p = none) :
    (if T then final.linkAt p else undone (final.linkAt p) (fs.entryAt p) found) = fs.linkAt p ↔
      Undoable (fs.entryAt p) found := by
  have hgone : final.entryAt p = none → final.linkAt p = none := by
    intro hnone
    rcases entryAt_cases hfree' with ⟨-, hl⟩ | ⟨i, target, he, -⟩
    · exact hl
    · rw [he] at hnone
      cases hnone
  rcases entryAt_cases hfree with ⟨he, hl⟩ | ⟨i, target, he, hl⟩
  · -- there was nothing, and there is nothing
    refine iff_of_true ?_ (.inl he)
    rw [he] at hlast
    rw [hl]
    split_ifs with hT
    · exact hgone (htrans.mp hT).2
    · rw [he]
      exact undone_none fun hnone => hgone (hlast.symm.trans hnone)
  · by_cases hsame : ∀ cur ∈ found, cur = fs.entryAt p
    · have hkept : final.entryAt p = fs.entryAt p := by
        rw [← hlast]
        rcases mem_cons.mp (getLastD_mem_cons (l := found)) with hmem | hmem
        · exact hmem
        · exact hsame _ hmem
      have hT : ¬ T := fun hT => by
        rw [htrans, hkept, he] at hT
        cases hT.2
      rw [if_neg hT, undone_of_same hsame]
      exact iff_of_true (linkAt_of_entryAt hfree hfree' hkept) (.inr (.inl hsame))
    · obtain ⟨cur, hfirst⟩ := exists_change hsame
      rw [undone_of_change hfirst, hl]
      constructor
      · intro hback
        split_ifs at hback with hT
        · rw [hgone (htrans.mp hT).2] at hback
          cases hback
        · obtain ⟨htarget, hne⟩ := replacedTarget_eq_some_iff.mp hback
          refine .inr (.inr ⟨target, cur, htarget, hfirst, hne, fun hnone => ?_⟩)
          rw [hlast] at hnone
          exact Bool.eq_false_iff.mpr fun hcreated => hT (htrans.mpr ⟨hcreated, hnone⟩)
      · rintro (hnone | hall | ⟨target', cur', htarget, hfirst', hne, hcreated⟩)
        · rw [he] at hnone
          cases hnone
        · exact absurd hall hsame
        · rw [hfirst] at hfirst'
          cases hfirst'
          have hT : ¬ T := fun hT => by
            obtain ⟨hyes, hnone⟩ := htrans.mp hT
            rw [hcreated (hlast.trans hnone)] at hyes
            cases hyes
          rw [if_neg hT, replacedTarget_eq_some_iff]
          -- a target that was read is the target of the link
          have hsame : target' = target := by
            rw [he, bind_some] at htarget
            simp only at htarget
            split_ifs at htarget
            exact (some.inj htarget).symm
          rw [hsame] at htarget hne
          exact ⟨htarget, hne⟩

/-! ### Creations -/

theorem create_mem_nameScan (p : PathBuf) (fs : Fs) :
    (∃ i kind mode, TreeOp.create i p kind mode ∈ nameScan p fs prev cur) ↔
      cur.isSome = true ∧ prev ≠ cur := by
  have hremoved : ∀ (e : DirEntryBaseline) (t : Option String) (i : InodeRef) (kind : FileKind)
      (mode : Nat), TreeOp.create i p kind mode ∉ targetRemoved p e t := by
    intro e t i kind mode hmem
    obtain ⟨target, htarget⟩ := mem_targetRemoved hmem
    cases htarget
  unfold nameScan
  by_cases hsame : prev = cur
  · simp [hsame]
  · rw [if_neg hsame]
    cases cur with
    | none => cases prev <;> simp [hremoved]
    | some e => cases prev <;> simp_all

theorem create_mem_nameScans :
    (∃ i kind mode, TreeOp.create i p kind mode ∈ nameScans p prev states) ↔
      everCreated prev (states.map fun s => s.entryAt p) = true := by
  induction states generalizing prev with
  | nil => simp [nameScans, everCreated]
  | cons next rest ih =>
    rw [map_cons, everCreated, Bool.or_eq_true, Bool.and_eq_true, decide_eq_true_eq, ← ih,
      ← create_mem_nameScan p next]
    simp only [nameScans, mem_append, exists_or]

theorem create_mem_scans (dir : PathBuf) (name : String) (fs : Fs) (states : List Fs) :
    (∃ i kind mode, TreeOp.create i (childPath dir name) kind mode ∈
        scans dir (readDirEntries dir fs) states) ↔
      everCreated (fs.entryAt (childPath dir name))
        (states.map fun s => s.entryAt (childPath dir name)) = true := by
  rw [← create_mem_nameScans, ← filter_scans]
  simp [mem_filter, isAt]

theorem linkEvents_scans (dir : PathBuf) (baseline : SortedMap String DirEntryBaseline)
    (states : List Fs) : LinkEvents (scans dir baseline states) := by
  intro op hop hnone
  obtain ⟨name, ⟨i, kind, mode, rfl⟩ | ⟨target, rfl⟩⟩ := mem_scans hop <;> cases hnone

end Command

/-! ## The law -/

section Law

theorem filter_filterMap_linkOp (ops : List TreeOp) (p : PathBuf) :
    (ops.filterMap linkOp).filter (fun link => link.path = p) =
      (ops.filter (isAt p)).filterMap TreeOp.linkOp := by
  induction ops with
  | nil => rfl
  | cons op rest ih =>
    cases op with
    | create i path kind mode | symlinkRemoved target path =>
      by_cases hp : path = p <;> simp_all [linkOp, isAt, LinkOp.path]
    | unlink | rename | link | symlink => exact ih

theorem map_getLastD (p : PathBuf) (fs : Fs) (states : List Fs) :
    (states.map fun s => s.entryAt p).getLastD (fs.entryAt p) = (states.getLastD fs).entryAt p := by
  induction states generalizing fs with
  | nil => rfl
  | cons next rest ih => rw [map_cons, getLastD_cons, getLastD_cons, ih]

/-- The table at the end: a transient path is left alone, and every other one is undone. -/
def linksAfter (transient : List PathBuf) (fs : Fs) (states : List Fs) (p : PathBuf) :
    Option String :=
  if p ∈ transient then (states.getLastD fs).linkAt p
  else undone ((states.getLastD fs).linkAt p) (fs.entryAt p) (states.map fun s => s.entryAt p)

section Chain

variable (hchain : List.IsChain (TouchesLinks dir) (fs :: states))

include hchain

theorem same_of_not_slot (hslot : ¬ LinkSlot dir fs p) :
    SameAt fs (states.getLastD fs) p ∧ ∀ cur ∈ states.map (fun s => s.entryAt p),
      cur = fs.entryAt p := by
  have hsame := (slot_or_same hchain p).2 hslot
  constructor
  · rcases mem_cons.mp (getLastD_mem_cons (l := states) (a := fs)) with heq | hmem
    · rw [heq]
      exact ⟨rfl, rfl⟩
    · exact hsame _ hmem
  · intro cur hcur
    obtain ⟨s, hs, rfl⟩ := mem_map.mp hcur
    exact (hsame s hs).entryAt

theorem final_linkOrFree (hslot : LinkSlot dir fs p) : (states.getLastD fs).LinkOrFree p := by
  rcases mem_cons.mp (getLastD_mem_cons (l := states) (a := fs)) with heq | hmem
  · rw [heq]
    exact hslot.2
  · exact (slot_or_same hchain p).1 hslot _ hmem

theorem nameScans_of_not_slot (hslot : ¬ LinkSlot dir fs p) :
    nameScans p (fs.entryAt p) states = [] := by
  have hsame := (same_of_not_slot hchain hslot).2
  clear hchain hslot
  generalize fs.entryAt p = prev at hsame
  induction states with
  | nil => rfl
  | cons next rest ih =>
    rw [map_cons, forall_mem_cons] at hsame
    rw [nameScans, nameScan, hsame.1, if_pos rfl]
    exact ih hsame.2

theorem slot_of_mem_scans {op : TreeOp} {link : LinkOp}
    (hop : op ∈ scans dir (readDirEntries dir fs) states) (hlink : op.linkOp = some link) :
    LinkSlot dir fs link.path ∧ ∃ name, link.path = childPath dir name := by
  obtain ⟨name, hname⟩ := mem_scans hop
  have hpath : link.path = childPath dir name ∧ op.isAt (childPath dir name) = true := by
    refine ⟨?_, hname.isAt.trans (decide_eq_true rfl)⟩
    rcases hname with ⟨i, kind, mode, rfl⟩ | ⟨target, rfl⟩ <;> cases hlink <;> rfl
  refine ⟨?_, name, hpath.1⟩
  rw [hpath.1]
  by_contra hslot
  have hmem := mem_filter.mpr ⟨hop, hpath.2⟩
  rw [filter_scans, nameScans_of_not_slot hchain hslot] at hmem
  cases hmem

/-- **The operations of the journal make the table.** -/
theorem run_undoOps (transient : List PathBuf) :
    KeyedRun.run LinkOp.act LinkOp.path
        (undoOps transient (scans dir (readDirEntries dir fs) states)) (states.getLastD fs).linkAt =
      some (linksAfter transient fs states) := by
  refine KeyedRun.run_eq_of_keys fun p => ?_
  have hgone : (states.map fun s => s.entryAt p).getLastD (fs.entryAt p) = none →
      (states.getLastD fs).linkAt p = none := by
    intro hnone
    rw [map_getLastD, entryAt, map_eq_none_iff] at hnone
    rw [linkAt, node, hnone]
    rfl
  rw [undoOps, List.filter_filter, linksAfter]
  by_cases htrans : p ∈ transient
  · have hnil : ((scans dir (readDirEntries dir fs) states).reverse.filterMap linkOp).filter
        (fun link => decide (link.path = p) && decide (link.path ∉ transient)) = [] := by
      rw [filter_eq_nil_iff]
      intro link _ hboth
      rw [Bool.and_eq_true, decide_eq_true_eq, decide_eq_true_eq] at hboth
      exact hboth.2 (hboth.1 ▸ htrans)
    rw [hnil, if_pos htrans]
    rfl
  · have hkeep : ((scans dir (readDirEntries dir fs) states).reverse.filterMap linkOp).filter
        (fun link => decide (link.path = p) && decide (link.path ∉ transient)) =
        ((scans dir (readDirEntries dir fs) states).filter (isAt p)).reverse.filterMap
          TreeOp.linkOp := by
      rw [filter_congr (q := fun link => decide (link.path = p)), filter_filterMap_linkOp,
        filter_reverse]
      intro link _
      by_cases hpath : link.path = p
      · simp [hpath, htrans]
      · simp [hpath]
    rw [hkeep, if_neg htrans]
    by_cases hname : ∃ name, p = childPath dir name
    · obtain ⟨name, rfl⟩ := hname
      rw [filter_scans]
      exact runOne_nameScans hgone
    -- no event is about a path elsewhere, and nothing has changed there
    have hslot : ¬ LinkSlot dir fs p := fun hslot => hname hslot.1
    have hnil : (scans dir (readDirEntries dir fs) states).filter (isAt p) = [] := by
      rw [filter_eq_nil_iff]
      intro op hop hat
      obtain ⟨name, hscan⟩ := mem_scans hop
      rw [hscan.isAt] at hat
      exact hname ⟨name, (of_decide_eq_true hat).symm⟩
    rw [hnil, undone_of_same (same_of_not_slot hchain hslot).2]
    rfl

end Chain

theorem entryAt_eq_none_iff {p : PathBuf} : fs.entryAt p = none ↔ fs.node p = none := by
  rw [entryAt, map_eq_none_iff, node_eq_none_iff]

theorem linksAfter_eq_iff (h : Host) (order : HashOrder)
    (hchain : List.IsChain (TouchesLinks dir) (fs :: states))
    (hj : Journaled (scans dir (readDirEntries dir fs) states) events) {name : String}
    (hslot : LinkSlot dir fs (childPath dir name)) :
    linksAfter (classify order events ((states.getLastD fs).probe h)).transientPaths fs states
        (childPath dir name) = fs.linkAt (childPath dir name) ↔
      Undoable (fs.entryAt (childPath dir name))
        (states.map fun s => s.entryAt (childPath dir name)) := by
  refine undone_eq_iff hslot.2 (final_linkOrFree hchain hslot) (map_getLastD _ _ _) ?_
  rw [hj.transient_iff (linkEvents_scans _ _ _), create_mem_scans, probe_stat_eq_none_iff,
    entryAt_eq_none_iff]

/-- The symlinks are what they were before a command that is not refused exactly when each name in
the directory is undoable. -/
theorem sameLinks_undo_iff (hp : h.Permissive) (href : command.refusal = none)
    (hdir : fs.IsDir dir) (hwf : ∀ s ∈ fs :: states, s.WellFormed)
    (hchain : List.IsChain (TouchesLinks dir) (fs :: states))
    (hj : Journaled (scans dir (readDirEntries dir fs) states) events) :
    SameLinks fs (undo h r order command events store (states.getLastD fs)).2 ↔
      ∀ name, Undoable (fs.entryAt (childPath dir name))
        (states.map fun s => s.entryAt (childPath dir name)) := by
  have hlinks := linkEvents_scans dir (readDirEntries dir fs) states
  have hdirSlot : ¬ LinkSlot dir fs dir := by
    rintro ⟨-, hnone | hlink⟩
    · exact not_isDir_of_free hnone hdir
    · rw [show fs.kindAt dir = some .directory from hdir] at hlink
      cases hlink
  have hshow : ShowsLinks dir (LinkSlot dir fs) (states.getLastD fs).node (states.getLastD fs)
      (states.getLastD fs).linkAt := by
    refine ⟨hwf _ getLastD_mem_cons, ?_, fun p hp => final_linkOrFree hchain hp,
      fun _ _ => rfl, fun _ => rfl⟩
    rw [Fs.IsDir, kindAt, (same_of_not_slot hchain hdirSlot).1.2]
    exact hdir
  have hops : ∀ link ∈ undoOps (classify order events ((states.getLastD fs).probe h)).transientPaths
      (scans dir (readDirEntries dir fs) states),
      LinkSlot dir fs link.path ∧ ∃ name, link.path = childPath dir name := by
    intro link hlink
    obtain ⟨op, hop, hlink⟩ := mem_filterMap.mp (mem_filter.mp hlink).1
    exact slot_of_mem_scans hchain (mem_reverse.mp hop) hlink
  obtain ⟨u, hthrough, hend⟩ := hshow.run hp (hj.nodes (r := r) hlinks) hops (run_undoOps hchain _)
  have hundo : (undo h r order command events store (states.getLastD fs)).2 = u := by
    rw [undo, run, plan_nodes_of_not_refused href, runFrom_assignCohorts]
    exact (hthrough.runFrom_eq 0).1
  rw [hundo]
  constructor
  · intro hsame name
    by_cases hslot : LinkSlot dir fs (childPath dir name)
    · rw [← linksAfter_eq_iff h order hchain hj hslot, ← hend.links_eq]
      exact hsame _
    · exact .inr (.inl (same_of_not_slot hchain hslot).2)
  · intro hundoable p
    rw [hend.links_eq]
    by_cases hslot : LinkSlot dir fs p
    · obtain ⟨name, rfl⟩ := hslot.1
      exact (linksAfter_eq_iff h order hchain hj hslot).mpr (hundoable name)
    · obtain ⟨hsame, hfound⟩ := same_of_not_slot hchain hslot
      rw [linksAfter, undone_of_same hfound, ite_self, hsame.linkAt]

/-- **The symlinks are what they were before the command exactly when it is one whose symlinks come
back.** -/
theorem symlinks_restored_iff (hp : h.Permissive) (hdir : fs.IsDir dir)
    (hwf : ∀ s ∈ fs :: states, s.WellFormed)
    (hchain : List.IsChain (TouchesLinks dir) (fs :: states))
    (hj : Journaled (scans dir (readDirEntries dir fs) states) events) :
    SameLinks fs (undo h r order command events store (states.getLastD fs)).2 ↔
      LinksUndoable command dir fs states := by
  unfold LinksUndoable
  cases href : command.refusal with
  | some entry =>
    -- a refusal leaves the tree of the command
    rw [undo_of_refused (by simp [href])]
  | none => exact sameLinks_undo_iff hp href hdir hwf hchain hj

end Law

/-! ## Two links that are lost -/

def workDir : PathBuf := [.rootDir, .normal "w"]

def linkPath : PathBuf := childPath workDir "l"

/-- The directory `/w`, with a symlink `/w/l` of this number and target. -/
def linkTree (link : Option (Nat × String)) : Fs where
  entries := [([.rootDir], ⟨1, 1⟩), (workDir, ⟨1, 2⟩)] ++
    (link.map fun l => (linkPath, ⟨1, l.1 + 3⟩)).toList
  inode := fun ref =>
    if ref.inode ≤ 2 then .dir
    else { Inode.dir with kind := .symlink, target := (link.map Prod.snd).getD "" }

theorem linkOrFree_linkTree (link : Option (Nat × String)) :
    (linkTree link).LinkOrFree linkPath := by
  have hlookup : (linkTree link).lookup linkPath = link.map (fun l => ⟨1, l.1 + 3⟩) := by
    cases link <;> rfl
  cases link with
  | none => exact .inl (by rw [kindAt, node, hlookup]; rfl)
  | some l =>
    refine .inr ?_
    rw [kindAt, node, hlookup, map_some, map_some, map_some]
    simp [linkTree]

theorem sameAt_linkTree (a b : Option (Nat × String)) {p : PathBuf} (hp : p ≠ linkPath) :
    SameAt (linkTree a) (linkTree b) p := by
  have hlookup : ∀ link, (linkTree link).lookup p =
      [([.rootDir], (⟨1, 1⟩ : InodeRef)), (workDir, ⟨1, 2⟩)].lookup p := by
    intro link
    have hnone : ((link.map fun l => (linkPath, (⟨1, l.1 + 3⟩ : InodeRef))).toList).lookup p =
        none := by
      cases link with
      | none => rfl
      | some l =>
        rw [map_some, toList_some, lookup_cons, beq_false_of_ne hp]
        rfl
    rw [Fs.lookup, PathTree.Entries.get, linkTree, lookup_append, hnone, or_none]
  have hsmall : ∀ i, [([.rootDir], (⟨1, 1⟩ : InodeRef)), (workDir, ⟨1, 2⟩)].lookup p = some i →
      i.inode ≤ 2 := by
    intro i hi
    obtain ⟨l₁, l₂, hl, -⟩ := lookup_eq_some_iff.mp hi
    have hmem : (p, i) ∈ [([.rootDir], (⟨1, 1⟩ : InodeRef)), (workDir, ⟨1, 2⟩)] := by
      rw [hl]
      exact mem_append_right _ mem_cons_self
    simp only [mem_cons, Prod.mk.injEq, not_mem_nil, or_false] at hmem
    rcases hmem with ⟨-, rfl⟩ | ⟨-, rfl⟩ <;> decide
  refine ⟨by rw [hlookup, hlookup], ?_⟩
  rw [node, node, hlookup, hlookup]
  refine map_congr fun i hi => ?_
  simp [linkTree, hsmall i hi]

theorem touches_linkTree (a b : Option (Nat × String)) :
    TouchesLinks workDir (linkTree a) (linkTree b) := by
  intro p
  by_cases hp : p = linkPath
  · subst hp
    exact .inr ⟨⟨⟨"l", rfl⟩, linkOrFree_linkTree a⟩, linkOrFree_linkTree b⟩
  · exact .inl (sameAt_linkTree a b hp)

theorem journaled_journalOf (ops : List TreeOp) : Journaled ops (journalOf (ops.map .treeOp)) := by
  refine ⟨?_, ?_, ?_⟩
  · refine ext_getElem (by simp [journalOf]) fun i h₁ h₂ => ?_
    simp [journalOf]
  · intro ev hev
    obtain ⟨i, -, rfl⟩ := mem_mapIdx.mp hev
    rfl
  · rw [pairwise_iff_getElem]
    intro i j hi hj hij
    simp only [journalOf, getElem_mapIdx]
    exact .inl (.inl hij)

/-- The tree after the undo of a command whose scans found these links. -/
def linkTreeUndone (before : Option (Nat × String)) (found : List (Option (Nat × String))) : Fs :=
  (undo .sample .silent .insertion plainCommand
    (journalOf ((scans workDir (readDirEntries workDir (linkTree before))
      (found.map linkTree)).map .treeOp)) fullStore
    ((found.map linkTree).getLastD (linkTree before))).2

/-- `ln -sf b l` where `l` pointed to `a`. -/
theorem symlinks_restored_retarget :
    SameLinks (linkTree (some (1, "a"))) (linkTreeUndone (some (1, "a")) [some (2, "b")]) := by
  have hwf : ∀ s ∈ [linkTree (some (1, "a")), linkTree (some (2, "b"))], s.WellFormed := by
    intro s hs
    refine wellFormed_of_check ?_
    rcases mem_pair.mp hs with rfl | rfl <;> decide
  refine (symlinks_restored_iff Host.sample_permissive (by decide) hwf
    (.cons_cons (touches_linkTree _ _) (.singleton _)) (journaled_journalOf _)).mpr fun name => ?_
  by_cases hname : childPath workDir name = linkPath
  · rw [hname]
    exact .inr (.inr ⟨"a", (linkTree (some (2, "b"))).entryAt linkPath,
      by decide, by decide, by decide, by decide⟩)
  · refine .inr (.inl fun cur hcur => ?_)
    rw [mem_singleton.mp hcur, (sameAt_linkTree _ _ hname).entryAt]

/-- `rm l; ln -s b l; rm l`, and `ln -sf a l`, where `l` pointed to `a`: there is no link after the
undo. In the first the path created and gone is passed over, with what was removed from it; the
second looks like a creation. -/
theorem symlinks_lost :
    (linkTree (some (1, "a"))).linkAt linkPath = some "a" ∧
      (linkTreeUndone (some (1, "a")) [none, some (2, "b"), none]).linkAt linkPath = none ∧
      (linkTreeUndone (some (1, "a")) [some (2, "a")]).linkAt linkPath = none := by
  refine ⟨by decide, ?_, ?_⟩
  · decide +kernel
  · decide +kernel

end ShitUndo
