import ShitUndo.Probe
import Mathlib.Data.List.Dedup

/-!
# Classifying the paths of a command

`classify_replace_paths` (`plan.rs`) looks at a command's events as sets of paths, without their
order, and at which paths exist now. From these it decides which inverses to suppress:

* *atomic replace*: a path replaced as a whole; only its content is restored;
* *transient*: a path that came and went within the command; nothing is restored;
* *rename-subsumed* and *spurious* creates: the create is not undone by an unlink;
* *hardlink aliases*: a live alias is left alone, a dead one is linked back to it.

Hash sets are lists read for membership only. The one place where the iteration order of a
hash map can be seen is the last insertion into `hardlink_dead_to_source`; it is a parameter
(`HashOrder`).
-/

namespace ShitUndo

open List Prod

/-! ## The scan -/

/-- Paths with a `TreeOp::Create`. -/
def creates (events : List CaptureEvent) : List PathBuf :=
  events.filterMap fun ev => match ev.kind with
    | .treeOp (.create _ path _ _) => some path
    | _ => none

/-- Paths with a `TreeOp::Unlink`. -/
def unlinks (events : List CaptureEvent) : List PathBuf :=
  events.filterMap fun ev => match ev.kind with
    | .treeOp (.unlink _ path _ _) => some path
    | _ => none

/-- Paths with a `FilePreImage` that is not a flags snapshot. -/
def preImages (events : List CaptureEvent) : List PathBuf :=
  events.filterMap fun ev => match ev.kind with
    | .filePreImage _ path _ _ _ source =>
      if source = .shimFlagsPreMutation then none else some path
    | _ => none

/-- Paths with a `FilePreImage` from a trusted pre-mutation source. -/
def preCommandPreImages (events : List CaptureEvent) : List PathBuf :=
  events.filterMap fun ev => match ev.kind with
    | .filePreImage _ path _ _ _ source =>
      if source.isTrustedPreMutation then some path else none
    | _ => none

/-- Destinations of `TreeOp::Rename`. -/
def renameDestinations (events : List CaptureEvent) : List PathBuf :=
  events.filterMap fun ev => match ev.kind with
    | .treeOp (.rename _ dst _) => some dst
    | _ => none

/-- Unlinks that recorded a real inode, in the order of the scan. -/
def unlinkedInodes (events : List CaptureEvent) : List (InodeRef × PathBuf) :=
  events.filterMap fun ev => match ev.kind with
    | .treeOp (.unlink inode path _ _) =>
      if inode.dev ≠ 0 ∨ inode.inode ≠ 0 then some (inode, path) else none
    | _ => none

/-- `paths_by_inode[inode]`: the distinct paths unlinked as names of `inode`. -/
def pathsByInode (events : List CaptureEvent) (inode : InodeRef) : List PathBuf :=
  (((unlinkedInodes events).filter (fun ip => ip.1 = inode)).map snd).dedup

/-- `unlinks_with_inode[path]`: each insertion overwrites the one before. -/
def unlinksWithInode (events : List CaptureEvent) (path : PathBuf) : Option InodeRef :=
  (((unlinkedInodes events).filter (fun ip => ip.2 = path)).map fst).getLast?

variable {events : List CaptureEvent} {p : PathBuf} {probe : StateProbe}

section Scan

theorem mem_creates : p ∈ creates events ↔
    ∃ ev ∈ events, ∃ inode kind mode, ev.kind = .treeOp (.create inode p kind mode) := by
  simp only [creates, mem_filterMap]
  constructor
  · rintro ⟨ev, hev, hp⟩
    split at hp
    · cases hp
      exact ⟨ev, hev, _, _, _, ‹_›⟩
    · cases hp
  · rintro ⟨ev, hev, inode, kind, mode, hkind⟩
    exact ⟨ev, hev, by simp [hkind]⟩

theorem mem_unlinks : p ∈ unlinks events ↔
    ∃ ev ∈ events, ∃ inode kind mode, ev.kind = .treeOp (.unlink inode p kind mode) := by
  simp only [unlinks, mem_filterMap]
  constructor
  · rintro ⟨ev, hev, hp⟩
    split at hp
    · cases hp
      exact ⟨ev, hev, _, _, _, ‹_›⟩
    · cases hp
  · rintro ⟨ev, hev, inode, kind, mode, hkind⟩
    exact ⟨ev, hev, by simp [hkind]⟩

theorem mem_preImages : p ∈ preImages events ↔ ∃ ev ∈ events, ∃ inode blob fileMeta post source,
      ev.kind = .filePreImage inode p blob fileMeta post source ∧
        source ≠ .shimFlagsPreMutation := by
  simp only [preImages, mem_filterMap]
  constructor
  · rintro ⟨ev, hev, hp⟩
    split at hp
    · split_ifs at hp with hsrc
      cases hp
      exact ⟨ev, hev, _, _, _, _, _, ‹_›, hsrc⟩
    · cases hp
  · rintro ⟨ev, hev, inode, blob, fileMeta, post, source, hkind, hsrc⟩
    exact ⟨ev, hev, by simp [hkind, hsrc]⟩

theorem mem_preImages_of_preCommand (hp : p ∈ preCommandPreImages events) :
    p ∈ preImages events := by
  obtain ⟨ev, hev, hp⟩ := mem_filterMap.mp hp
  refine mem_filterMap.mpr ⟨ev, hev, ?_⟩
  split at hp
  · rename_i source hkind
    cases source <;> simp_all [FilePreImageSource.isTrustedPreMutation]
  · cases hp

theorem mem_renameDestinations : p ∈ renameDestinations events ↔
    ∃ ev ∈ events, ∃ src inode, ev.kind = .treeOp (.rename src p inode) := by
  simp only [renameDestinations, mem_filterMap]
  constructor
  · rintro ⟨ev, hev, hp⟩
    split at hp
    · cases hp
      exact ⟨ev, hev, _, _, ‹_›⟩
    · cases hp
  · rintro ⟨ev, hev, src, inode, hkind⟩
    exact ⟨ev, hev, by simp [hkind]⟩

end Scan

/-! ## Replaced and transient paths -/

/-- Outcome of the first loop for a created path or rename destination. -/
inductive ReplaceFlavor where
  | atomic
  | transient
deriving DecidableEq, Repr

/-- Body of the first loop of `classify_replace_paths`. -/
def replaceFlavor (events : List CaptureEvent) (probe : StateProbe) (p : PathBuf) :
    Option ReplaceFlavor :=
  if p ∉ unlinks events then none
  else if p ∉ preImages events then some .transient
  else if (probe.stat p).isSome then some .atomic
  else
    let isRenameDestination := p ∈ renameDestinations events
    let hasPreCommandSnapshot := p ∈ preCommandPreImages events
    if (isRenameDestination ∨ hasPreCommandSnapshot) ∧ probe.parentAlive p then some .atomic
    else some .transient

/-- A rename destination that was neither unlinked nor lost, with a pre-image: the clobber of a
`vim`-style save on Linux. -/
def isClobberedDestination (events : List CaptureEvent) (probe : StateProbe) (p : PathBuf) : Bool :=
  decide (p ∉ unlinks events ∧ p ∈ preImages events ∧ (probe.stat p).isSome)

/-- An unlink of `p` whose inode was also unlinked under another name. -/
def isHardlinkDead (events : List CaptureEvent) (p : PathBuf) : Bool :=
  match unlinksWithInode events p with
  | none => false
  | some inode => decide (1 < (pathsByInode events inode).length)

/-- A plain deletion with a pre-image: restoring the content recreates the path. -/
def isPlainDeletion (events : List CaptureEvent) (p : PathBuf) : Bool :=
  decide (p ∈ preImages events ∧ ¬ (p ∈ creates events ∨ p ∈ renameDestinations events)
    ∧ isHardlinkDead events p = false)

def atomicReplacePaths (events : List CaptureEvent) (probe : StateProbe) : List PathBuf :=
  (creates events ++ renameDestinations events).filter
      (fun p => replaceFlavor events probe p = some .atomic)
    ++ (renameDestinations events).filter (isClobberedDestination events probe)
    ++ (unlinks events).filter (isPlainDeletion events)

/-- `transient_paths`: the first loop's verdict, and created paths that are simply gone. -/
def transientPaths (events : List CaptureEvent) (probe : StateProbe) : List PathBuf :=
  (creates events ++ renameDestinations events).filter
      (fun p => replaceFlavor events probe p = some .transient)
    ++ (creates events).filter (fun p => decide (p ∉ unlinks events ∧ (probe.stat p).isNone))

def spuriousCreatesWithPreimage (events : List CaptureEvent) (probe : StateProbe) : List PathBuf :=
  (creates events).filter fun p =>
    decide (p ∉ unlinks events ∧ p ∈ preCommandPreImages events ∧ (probe.stat p).isSome)

/-- `rename_subsumed_creates`: a created path at or below a rename destination. -/
def renameSubsumedCreates (events : List CaptureEvent) : List PathBuf :=
  (creates events).filter fun p =>
    decide (p ∉ unlinks events)
      && (decide (p ∈ renameDestinations events)
        || (renameDestinations events).any (fun d => p.startsWith d && decide (p ≠ d)))

section Flavors

/-- A path that is gone but has somewhere to be restored into. -/
def GoneRestorable (events : List CaptureEvent) (probe : StateProbe) (p : PathBuf) : Prop :=
  (p ∈ renameDestinations events ∨ p ∈ preCommandPreImages events) ∧ probe.parentAlive p = true

theorem replaceFlavor_eq_atomic_iff :
    replaceFlavor events probe p = some .atomic ↔ p ∈ unlinks events ∧ p ∈ preImages events ∧
      (probe.stat p ≠ none ∨ GoneRestorable events probe p) := by
  unfold replaceFlavor GoneRestorable
  by_cases hu : p ∈ unlinks events <;> by_cases hi : p ∈ preImages events <;>
    cases hs : probe.stat p <;> simp [hu, hi]

theorem replaceFlavor_eq_transient_iff :
    replaceFlavor events probe p = some .transient ↔ p ∈ unlinks events ∧
      (p ∈ preImages events → probe.stat p = none ∧ ¬ GoneRestorable events probe p) := by
  unfold replaceFlavor GoneRestorable
  by_cases hu : p ∈ unlinks events <;> by_cases hi : p ∈ preImages events <;>
    cases hs : probe.stat p <;> simp [hu, hi]

theorem mem_atomicReplacePaths :
    p ∈ atomicReplacePaths events probe ↔ p ∈ preImages events ∧
      ((p ∈ creates events ∨ p ∈ renameDestinations events) ∧ p ∈ unlinks events ∧
          (probe.stat p ≠ none ∨ GoneRestorable events probe p) ∨
        p ∈ renameDestinations events ∧ p ∉ unlinks events ∧ probe.stat p ≠ none ∨
        p ∈ unlinks events ∧ ¬ (p ∈ creates events ∨ p ∈ renameDestinations events) ∧
          isHardlinkDead events p = false) := by
  simp only [atomicReplacePaths, mem_append, mem_filter, decide_eq_true_eq,
    replaceFlavor_eq_atomic_iff, isClobberedDestination, isPlainDeletion,
    ← Option.ne_none_iff_isSome]
  tauto

theorem mem_transientPaths :
    p ∈ transientPaths events probe ↔
      (p ∈ creates events ∨ p ∈ renameDestinations events) ∧ p ∈ unlinks events ∧
          (p ∈ preImages events → probe.stat p = none ∧ ¬ GoneRestorable events probe p) ∨
        p ∈ creates events ∧ p ∉ unlinks events ∧ probe.stat p = none := by
  simp only [transientPaths, mem_append, mem_filter, decide_eq_true_eq,
    replaceFlavor_eq_transient_iff, Option.isNone_iff_eq_none]

end Flavors

/-! ## Hardlink aliases -/

/-- The order in which a `HashMap` keyed by inode is iterated: some order of its keys. -/
structure HashOrder where
  arrange : List InodeRef → List InodeRef
  arrange_perm : ∀ l, (arrange l).Perm l

/-- Insertion order, one of the possible iteration orders. -/
def HashOrder.insertion : HashOrder where
  arrange := id
  arrange_perm := fun _ => List.Perm.refl _

/-- One entry of `paths_by_inode` sorted into live aliases and dead aliases with their source. -/
structure HardlinkGroup where
  live : List PathBuf
  dead : List (PathBuf × PathBuf)
deriving DecidableEq, Repr

/-- Body of the hardlink loop for one captured inode. -/
def hardlinkGroup (probe : StateProbe) (capturedInode : InodeRef) (paths : List PathBuf) :
    HardlinkGroup :=
  if paths.length < 2 then ⟨[], []⟩
  else
    match (paths.filter (fun p => probe.hasInode p capturedInode)).insertionSort
        (fun a b => PathBuf.le a b = true) with
    | [] => ⟨[], []⟩
    | source :: others =>
      ⟨source :: others,
        (paths.filter (fun p => !probe.hasInode p capturedInode)).map (fun p => (p, source))⟩

/-- All groups, in the iteration order of the map. -/
def hardlinkGroups (order : HashOrder) (events : List CaptureEvent) (probe : StateProbe) :
    List HardlinkGroup :=
  (order.arrange ((unlinkedInodes events).map fst).dedup).map fun inode =>
    hardlinkGroup probe inode (pathsByInode events inode)

/-! ## Flags snapshots seen twice -/

/-- Loop of `paired_flags_shim_events` over events in chronological order. `pending` holds the
shim snapshots not yet paired, newest first, by inode and flags value. -/
def pairedFlagsFrom : List ((InodeRef × Nat) × EventId) → List CaptureEvent → List EventId
  | _, [] => []
  | pending, ev :: rest =>
    match ev.kind with
    | .filePreImage inode _ _ fileMeta _ .shimFlagsPreMutation =>
      pairedFlagsFrom (((inode, fileMeta.flags), ev.id) :: pending) rest
    | .metadataChange inode _ before after =>
      if before.onlyFlagsChanged after then
        match pending.find? (fun e => e.1 = (inode, before.flags)) with
        | some e => e.2 :: pairedFlagsFrom (pending.erase e) rest
        | none => pairedFlagsFrom pending rest
      else pairedFlagsFrom pending rest
    | _ => pairedFlagsFrom pending rest

def pairedFlagsShimEvents (chronological : List CaptureEvent) : List EventId :=
  pairedFlagsFrom [] chronological

/-! ## The classification -/

/-- `EventClassification`. `hardlinkDeadToSource` has the last insertion first. -/
structure EventClassification where
  atomicReplacePaths : List PathBuf
  transientPaths : List PathBuf
  renameSubsumedCreates : List PathBuf
  spuriousCreatesWithPreimage : List PathBuf
  hardlinkLivePaths : List PathBuf
  hardlinkDeadToSource : List (PathBuf × PathBuf)
  pairedFlagsShims : List EventId

/-- `class.hardlink_dead_to_source.get(path)`. -/
def EventClassification.deadSource (cls : EventClassification) (path : PathBuf) : Option PathBuf :=
  cls.hardlinkDeadToSource.lookup path

/-- `classify_replace_paths`; the flags pairing is filled in by `plan`. -/
def classifyReplacePaths (order : HashOrder) (events : List CaptureEvent) (probe : StateProbe) :
    EventClassification :=
  let groups := hardlinkGroups order events probe
  { atomicReplacePaths := atomicReplacePaths events probe
    transientPaths := transientPaths events probe
    renameSubsumedCreates := renameSubsumedCreates events
    spuriousCreatesWithPreimage := spuriousCreatesWithPreimage events probe
    hardlinkLivePaths := groups.flatMap HardlinkGroup.live
    hardlinkDeadToSource := (groups.flatMap HardlinkGroup.dead).reverse
    pairedFlagsShims := [] }

/-! ## What the aliases say -/

section Aliases

variable {order : HashOrder} {inode : InodeRef} {source : PathBuf}

theorem mem_unlinkedInodes :
    (inode, p) ∈ unlinkedInodes events ↔
      ∃ ev ∈ events, ∃ kind mode, ev.kind = .treeOp (.unlink inode p kind mode) ∧
        (inode.dev ≠ 0 ∨ inode.inode ≠ 0) := by
  simp only [unlinkedInodes, mem_filterMap]
  constructor
  · rintro ⟨ev, hev, h⟩
    split at h
    · split_ifs at h with hreal
      cases h
      exact ⟨ev, hev, _, _, ‹_›, hreal⟩
    · cases h
  · rintro ⟨ev, hev, kind, mode, hkind, hreal⟩
    exact ⟨ev, hev, by simp [hkind, hreal]⟩

theorem mem_pathsByInode : p ∈ pathsByInode events inode ↔ (inode, p) ∈ unlinkedInodes events := by
  simp [pathsByInode, mem_dedup]

/-- A group's dead entries are its paths that do not hold the inode, each with a source that
does. -/
theorem mem_hardlinkGroup_dead {paths : List PathBuf}
    (h : (p, source) ∈ (hardlinkGroup probe inode paths).dead) :
    p ∈ paths ∧ probe.hasInode p inode = false ∧ probe.hasInode source inode = true := by
  unfold hardlinkGroup at h
  split_ifs at h with hlen
  · cases h
  split at h
  · cases h
  rename_i src others hsort
  simp only [mem_map, mem_filter, mk.injEq] at h
  obtain ⟨q, ⟨hq, hnot⟩, rfl, rfl⟩ := h
  have hmem : src ∈ (paths.filter (fun p => probe.hasInode p inode)).insertionSort
      (fun a b => PathBuf.le a b = true) := by rw [hsort]; exact mem_cons_self
  rw [mem_insertionSort, mem_filter] at hmem
  exact ⟨hq, by simpa using hnot, hmem.2⟩

theorem deadSource_spec (h : (classifyReplacePaths order events probe).deadSource p = some source) :
    ∃ inode, (inode, p) ∈ unlinkedInodes events ∧ probe.hasInode p inode = false ∧
      probe.hasInode source inode = true := by
  have hmem : (p, source) ∈ (classifyReplacePaths order events probe).hardlinkDeadToSource := by
    obtain ⟨l₁, l₂, hl, _⟩ := lookup_eq_some_iff.mp h
    rw [hl]
    exact mem_append_right _ mem_cons_self
  simp only [classifyReplacePaths, mem_reverse, mem_flatMap, hardlinkGroups, mem_map] at hmem
  obtain ⟨group, ⟨inode, _, rfl⟩, hdead⟩ := hmem
  obtain ⟨hp, hnot, hsrc⟩ := mem_hardlinkGroup_dead hdead
  exact ⟨inode, mem_pathsByInode.mp hp, hnot, hsrc⟩

/-- No inode is unlinked under two names. -/
def SingleUnlinks (events : List CaptureEvent) : Prop :=
  ∀ inode p q, (inode, p) ∈ unlinkedInodes events → (inode, q) ∈ unlinkedInodes events → p = q

variable (hsingle : SingleUnlinks events)

include hsingle

theorem SingleUnlinks.length_pathsByInode (inode : InodeRef) :
    (pathsByInode events inode).length < 2 := by
  have hnodup : (pathsByInode events inode).Nodup := nodup_dedup _
  rcases hpaths : pathsByInode events inode with - | ⟨p, - | ⟨q, rest⟩⟩
  · simp
  · simp
  -- two entries would be two names of one inode
  rw [hpaths] at hnodup
  have hp : (inode, p) ∈ unlinkedInodes events := mem_pathsByInode.mp (by simp [hpaths])
  have hq : (inode, q) ∈ unlinkedInodes events := mem_pathsByInode.mp (by simp [hpaths])
  have hne : p ≠ q := by
    rintro rfl
    simp at hnodup
  exact absurd (hsingle inode p q hp hq) hne

theorem SingleUnlinks.isHardlinkDead (p : PathBuf) : isHardlinkDead events p = false := by
  unfold ShitUndo.isHardlinkDead
  split
  · rfl
  · rename_i inode _
    have hlen := hsingle.length_pathsByInode inode
    simp only [decide_eq_false_iff_not]
    omega

theorem SingleUnlinks.hardlinkGroups :
    ∀ group ∈ hardlinkGroups order events probe, group = ⟨[], []⟩ := by
  intro group hgroup
  obtain ⟨inode, -, rfl⟩ := mem_map.mp hgroup
  simp [hardlinkGroup, hsingle.length_pathsByInode inode]

theorem SingleUnlinks.hardlinkLivePaths :
    (classifyReplacePaths order events probe).hardlinkLivePaths = [] := by
  simp only [classifyReplacePaths, flatMap_eq_nil_iff]
  intro group hgroup
  rw [hsingle.hardlinkGroups group hgroup]

theorem SingleUnlinks.deadSource (p : PathBuf) :
    (classifyReplacePaths order events probe).deadSource p = none := by
  have hdead : (ShitUndo.hardlinkGroups order events probe).flatMap HardlinkGroup.dead = [] := by
    rw [flatMap_eq_nil_iff]
    intro group hgroup
    rw [hsingle.hardlinkGroups group hgroup]
  simp [EventClassification.deadSource, classifyReplacePaths, hdead]

end Aliases

end ShitUndo
