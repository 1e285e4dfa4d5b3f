import ShitUndo.FileSystem

/-!
# The file system as a tree

Lemmas about names and inodes, and the view of a file system that the round-trip proofs work
with: `Fs.node`, the inode at each path, as a tree keyed by paths.

* `WellFormed`: names are absolute and every name lies in a directory.
-/

namespace ShitUndo

open List Option Function PathTree.Entries PathTree

variable {h : Host} {fs : Fs} {p q : PathBuf} {i j : InodeRef}

/-! ## Names and inodes -/

namespace Fs

@[simp] theorem lookup_modifyInode (f : Inode → Inode) :
    (fs.modifyInode i f).lookup = fs.lookup := rfl

theorem inode_modifyInode_self (f : Inode → Inode) :
    (fs.modifyInode i f).inode i = f (fs.inode i) := by
  simp [modifyInode, setInode]

theorem inode_modifyInode_of_ne (f : Inode → Inode) (hne : j ≠ i) :
    (fs.modifyInode i f).inode j = fs.inode j := by
  simp [modifyInode, setInode, update_of_ne hne]

theorem modifyInode_modifyInode (f g : Inode → Inode) :
    (fs.modifyInode i f).modifyInode i g = fs.modifyInode i (fun n => g (f n)) := by
  simp [modifyInode, setInode, update_idem]

theorem node_eq_some_iff {n : Inode} :
    fs.node p = some n ↔ ∃ i, fs.lookup p = some i ∧ fs.inode i = n := by
  simp [node, map_eq_some_iff]

theorem node_of_lookup (hi : fs.lookup p = some i) : fs.node p = some (fs.inode i) := by
  simp [node, hi]

theorem node_eq_none_iff : fs.node p = none ↔ fs.lookup p = none := by
  simp [node]

theorem resolve_of_lookup (hi : fs.lookup p = some i) (hk : (fs.inode i).kind ≠ .symlink) :
    fs.resolve p = some i := by
  simp [resolve, follow, hi, hk]

theorem follow_modifyInode {f : Inode → Inode} (hk : ∀ n, (f n).kind = n.kind)
    (ht : ∀ n, (f n).target = n.target) (fuel : Nat) (p : PathBuf) :
    (fs.modifyInode i f).follow fuel p = fs.follow fuel p := by
  have hkind : ∀ k, ((fs.modifyInode i f).inode k).kind = (fs.inode k).kind ∧
      ((fs.modifyInode i f).inode k).target = (fs.inode k).target := by
    intro k
    by_cases hki : k = i
    · subst hki
      rw [inode_modifyInode_self]
      exact ⟨hk _, ht _⟩
    · rw [inode_modifyInode_of_ne f hki]
      exact ⟨rfl, rfl⟩
  induction fuel generalizing p with
  | zero => rfl
  | succ fuel ih =>
    simp only [follow, lookup_modifyInode]
    cases fs.lookup p with
    | none => rfl
    | some k =>
      obtain ⟨h1, h2⟩ := hkind k
      simp only [h1, h2, ih]

theorem resolve_modifyInode {f : Inode → Inode} (hk : ∀ n, (f n).kind = n.kind)
    (ht : ∀ n, (f n).target = n.target) : (fs.modifyInode i f).resolve p = fs.resolve p :=
  follow_modifyInode hk ht 40 p

end Fs

theorem Fs.onResolved_of_resolve (hj : fs.resolve p = some j) (f : Inode → Inode) :
    fs.onResolved p f = .ok (fs.modifyInode j f) := by
  simp [Fs.onResolved, hj]

theorem Fs.node_of_resolve (hj : fs.resolve p = some j) : ∃ n, fs.node p = some n := by
  simp only [Fs.resolve, Fs.follow] at hj
  split at hj
  · cases hj
  · rename_i k hk
    exact ⟨_, Fs.node_of_lookup hk⟩

/-! ## Calls the machine may refuse -/

theorem Host.attempt_eq_ok {c : Syscall} {act : Except Errno Fs} {fs' : Fs}
    (hok : h.attempt c p fs act = .ok fs') : h.deny c p fs = none ∧ act = .ok fs' := by
  unfold Host.attempt at hok
  split at hok
  · cases hok
  · exact ⟨‹_›, hok⟩

theorem Host.Permissive.attempt (hp : h.Permissive) (c : Syscall) (p : PathBuf) (fs : Fs)
    (act : Except Errno Fs) : h.attempt c p fs act = act := by
  simp [Host.attempt, hp c p fs]

/-! ## Absolute paths -/

/-- A path from the root through ordinary names. -/
def AbsolutePath (p : PathBuf) : Prop :=
  ∃ names : List String, p = .rootDir :: names.map .normal

namespace AbsolutePath

section

variable (hp : AbsolutePath p)

include hp

theorem ne_nil : p ≠ [] := by
  obtain ⟨names, rfl⟩ := hp
  exact cons_ne_nil _ _

theorem root_or_concat :
    p = [.rootDir] ∨ ∃ name, p = p.dropLast ++ [.normal name] ∧ AbsolutePath p.dropLast := by
  obtain ⟨names, rfl⟩ := hp
  rcases eq_nil_or_concat names with rfl | ⟨init, last, rfl⟩
  · exact .inl rfl
  have hsplit : (Component.rootDir :: (init ++ [last]).map Component.normal) =
      (.rootDir :: init.map .normal) ++ [.normal last] := by simp
  refine .inr ⟨last, ?_⟩
  rw [concat_eq_append, hsplit, dropLast_concat]
  exact ⟨rfl, init, rfl⟩

theorem dropLast_ne : p.dropLast ≠ p := by
  intro heq
  have hlen := congrArg length heq
  have hpos : 0 < p.length := length_pos_of_ne_nil hp.ne_nil
  rw [length_dropLast] at hlen
  omega

theorem parent_eq (hne : p ≠ [.rootDir]) : p.parent = some p.dropLast := by
  rcases hp.root_or_concat with rfl | ⟨name, hname, -⟩
  · exact absurd rfl hne
  · rw [hname, PathBuf.parent_concat_normal, dropLast_concat]

end

theorem transplant {a b r : PathBuf} (ha : AbsolutePath a) (hb : AbsolutePath b)
    (har : AbsolutePath (a ++ r)) : AbsolutePath (b ++ r) := by
  obtain ⟨as, rfl⟩ := ha
  obtain ⟨bs, rfl⟩ := hb
  obtain ⟨names, hnames⟩ := har
  rw [cons_append, cons.injEq] at hnames
  obtain ⟨l₁, l₂, -, -, hl₂⟩ := map_eq_append_iff.mp hnames.2.symm
  exact ⟨bs ++ l₂, by rw [← hl₂, map_append, cons_append]⟩

/-- Whether a component is an ordinary name. -/
def isNormal : Component → Bool
  | .normal _ => true
  | _ => false

theorem exists_map_normal {comps : List Component} (hall : comps.all isNormal = true) :
    ∃ names : List String, comps = names.map .normal := by
  induction comps with
  | nil => exact ⟨[], rfl⟩
  | cons c rest ih =>
    rw [all_cons, Bool.and_eq_true] at hall
    obtain ⟨names, rfl⟩ := ih hall.2
    cases c with
    | normal name => exact ⟨name :: names, rfl⟩
    | _ => cases hall.1

/-- A test for absolute paths. -/
def check : PathBuf → Bool
  | .rootDir :: rest => rest.all isNormal
  | _ => false

theorem of_check (hp : check p = true) : AbsolutePath p := by
  unfold check at hp
  split at hp
  · obtain ⟨names, rfl⟩ := exists_map_normal hp
    exact ⟨names, rfl⟩
  · cases hp

end AbsolutePath

/-! ## Well-formed trees -/

namespace Fs

/-- No two names share an inode. -/
def SingleNamed (fs : Fs) : Prop :=
  ∀ p q i, fs.lookup p = some i → fs.lookup q = some i → p = q

/-- The kind of what is at a path. -/
def kindAt (fs : Fs) (p : PathBuf) : Option FileKind := (fs.node p).map Inode.kind

/-- There is a directory at `p`. -/
def IsDir (fs : Fs) (p : PathBuf) : Prop := fs.kindAt p = some .directory

instance (fs : Fs) (p : PathBuf) : Decidable (fs.IsDir p) :=
  inferInstanceAs (Decidable (fs.kindAt p = some .directory))

/-- The root is a directory, every name is an absolute path, and every name lies in a directory. -/
structure WellFormed (fs : Fs) : Prop where
  root : fs.IsDir [.rootDir]
  absolute : ∀ p, fs.kindAt p ≠ none → AbsolutePath p
  rooted : PathTree.Rooted (fun kind => kind = .directory) fs.kindAt

variable {n : Inode}

theorem kindAt_of_node (hn : fs.node p = some n) : fs.kindAt p = some n.kind := by
  simp [kindAt, hn]

theorem kindAt_of_lookup (hi : fs.lookup p = some i) : fs.kindAt p = some (fs.inode i).kind :=
  kindAt_of_node (node_of_lookup hi)

theorem kindAt_ne_none (hi : fs.lookup p = some i) : fs.kindAt p ≠ none := by
  rw [kindAt_of_lookup hi]
  exact some_ne_none _

theorem kindAt_eq_none_iff : fs.kindAt p = none ↔ fs.node p = none := by
  simp [kindAt]

theorem not_isDir_of_free (hp : fs.kindAt p = none) : ¬ fs.IsDir p := by
  rw [IsDir, hp]
  exact (some_ne_none _).symm

theorem not_isDir_of_regular (hreg : fs.kindAt p = some .regular) : ¬ fs.IsDir p := by
  rw [IsDir, hreg]
  decide

theorem lookup_eq_none_of_kindAt (hp : fs.kindAt p = none) : fs.lookup p = none :=
  node_eq_none_iff.mp (kindAt_eq_none_iff.mp hp)

theorem kindAt_eq_some_iff {kind : FileKind} :
    fs.kindAt p = some kind ↔ ∃ n, fs.node p = some n ∧ n.kind = kind := by
  simp [kindAt, map_eq_some_iff]

theorem IsDir.resolve (hd : fs.IsDir p) :
    ∃ i, fs.resolve p = some i ∧ (fs.inode i).kind = .directory := by
  obtain ⟨n, hn, hk⟩ := kindAt_eq_some_iff.mp hd
  obtain ⟨i, hi, rfl⟩ := node_eq_some_iff.mp hn
  exact ⟨i, resolve_of_lookup hi (by rw [hk]; decide), hk⟩

theorem parentIsDir_of_isDir {parent : PathBuf} (hparent : p.parent = some parent)
    (hd : fs.IsDir parent) : fs.parentIsDir p = .ok () := by
  obtain ⟨i, hi, hk⟩ := hd.resolve
  simp [parentIsDir, hparent, hi, hk]

variable {fs' : Fs}

theorem WellFormed.of_kindAt_eq (hwf : fs.WellFormed) (hkinds : fs'.kindAt = fs.kindAt) :
    fs'.WellFormed where
  root := by
    rw [IsDir, hkinds]
    exact hwf.root
  absolute := by
    rw [hkinds]
    exact hwf.absolute
  rooted := by
    rw [hkinds]
    exact hwf.rooted

theorem WellFormed.ne_root (hwf : fs.WellFormed) (hparent : fs.IsDir p.dropLast) :
    p ≠ [.rootDir] := by
  rintro rfl
  have hnil : fs.kindAt [] ≠ none := by
    rw [show fs.kindAt [] = some .directory from hparent]
    exact some_ne_none _
  exact (hwf.absolute [] hnil).ne_nil rfl

theorem WellFormed.isDir_dropLast (hwf : fs.WellFormed) (hp : fs.kindAt p ≠ none)
    (hne : p ≠ [.rootDir]) : fs.IsDir p.dropLast := by
  rcases (hwf.absolute p hp).root_or_concat with hroot | ⟨name, hname, habs⟩
  · exact absurd hroot hne
  obtain ⟨kind, hkind⟩ := ne_none_iff_exists'.mp hp
  rw [hname] at hkind
  obtain ⟨d, hd, hdir⟩ := hwf.rooted _ _ kind habs.ne_nil hkind
  rw [hdir] at hd
  exact hd

theorem WellFormed.named_in_dir (hwf : fs.WellFormed) (hreg : fs.kindAt p = some .regular) :
    AbsolutePath p ∧ p ≠ [.rootDir] ∧ fs.IsDir p.dropLast := by
  have hsome : fs.kindAt p ≠ none := by
    rw [hreg]
    exact some_ne_none _
  have hroot : p ≠ [.rootDir] := by
    rintro rfl
    rw [show fs.kindAt [.rootDir] = some .directory from hwf.root] at hreg
    cases hreg
  exact ⟨hwf.absolute p hsome, hroot, hwf.isDir_dropLast hsome hroot⟩

theorem mem_entries_of_lookup (hi : fs.lookup p = some i) : (p, i) ∈ fs.entries := by
  obtain ⟨l₁, l₂, hl, -⟩ := lookup_eq_some_iff.mp hi
  rw [hl]
  exact mem_append_right _ mem_cons_self

theorem mem_entries_iff_lookup : (∃ j, (q, j) ∈ fs.entries) ↔ fs.lookup q ≠ none := by
  constructor
  · rintro ⟨j, hj⟩ hnone
    have hne := lookup_eq_none_iff.mp hnone (q, j) hj
    simp at hne
  · intro hne
    obtain ⟨j, hj⟩ := ne_none_iff_exists'.mp hne
    exact ⟨j, mem_entries_of_lookup hj⟩

theorem singleNamed_of_nodup (hnodup : (fs.entries.map Prod.snd).Nodup) : fs.SingleNamed := by
  intro p q i hp hq
  have heq := inj_on_of_nodup_map hnodup (mem_entries_of_lookup hp) (mem_entries_of_lookup hq) rfl
  exact congrArg Prod.fst heq

theorem kindAt_below_of_check (hcheck : fs.entries.hasBelow p = false) :
    ∀ q, p <+: q → q ≠ p → fs.kindAt q = none := fun q hpq hne =>
  kindAt_eq_none_iff.mpr (node_eq_none_iff.mpr (hasBelow_eq_false_iff.mp hcheck q hpq hne))

/-- A test for well-formed trees, entry by entry. -/
def checkWellFormed (fs : Fs) : Bool :=
  decide (fs.kindAt [.rootDir] = some .directory) && fs.entries.all fun e =>
    AbsolutePath.check e.1 && decide (e.1 = [.rootDir] ∨ fs.kindAt e.1.dropLast = some .directory)

theorem wellFormed_of_check (hcheck : fs.checkWellFormed = true) : fs.WellFormed := by
  rw [checkWellFormed, Bool.and_eq_true, decide_eq_true_eq, List.all_eq_true] at hcheck
  obtain ⟨hroot, hentries⟩ := hcheck
  have hentry : ∀ p, fs.kindAt p ≠ none → AbsolutePath.check p = true ∧
      (p = [.rootDir] ∨ fs.kindAt p.dropLast = some .directory) := by
    intro p hp
    obtain ⟨i, hi⟩ := ne_none_iff_exists'.mp (mt node_eq_none_iff.mpr
      (mt kindAt_eq_none_iff.mpr hp))
    simpa using hentries _ (mem_entries_of_lookup hi)
  refine ⟨hroot, fun p hp => AbsolutePath.of_check (hentry p hp).1, ?_⟩
  intro p a kind hp hkind
  have hsome : fs.kindAt (p ++ [a]) ≠ none := by rw [hkind]; exact some_ne_none _
  rcases (hentry _ hsome).2 with hroot | hparent
  · cases p with
    | nil => exact absurd rfl hp
    | cons c rest => simp at hroot
  · rw [dropLast_concat] at hparent
    exact ⟨_, hparent, rfl⟩

/-! ## Changes of the tree -/

theorem node_setInode_link (hnew : ∀ q, fs.lookup q ≠ some i) (p : PathBuf) (n : Inode) :
    ((fs.link p i).setInode i n).node = update fs.node p (some n) := by
  have hlookup : ((fs.link p i).setInode i n).lookup = update fs.lookup p (some i) :=
    get_put p i fs.entries
  funext q
  by_cases hq : q = p
  · subst hq
    rw [update_self, node, hlookup, update_self]
    simp [setInode]
  rw [update_of_ne hq, node, hlookup, update_of_ne hq, node]
  cases hk : fs.lookup q with
  | none => rfl
  | some k =>
    have hne : k ≠ i := by
      rintro rfl
      exact hnew q hk
    simp [setInode, link, update_of_ne hne]

theorem lookup_create (h : Host) (p : PathBuf) (n : Inode) (fs : Fs) :
    (fs.create h p n).lookup = update fs.lookup p (some (h.freshInode fs)) :=
  get_put p (h.freshInode fs) fs.entries

theorem node_create (h : Host) (p : PathBuf) (n : Inode) (fs : Fs) :
    (fs.create h p n).node = update fs.node p (some n) :=
  node_setInode_link (h.freshInode_unused fs) p n

theorem lookup_create_self (h : Host) (p : PathBuf) (n : Inode) (fs : Fs) :
    (fs.create h p n).lookup p = some (h.freshInode fs) := by
  rw [lookup_create, update_self]

theorem lookup_create_fresh (hq : (fs.create h p n).lookup q = some (h.freshInode fs)) : q = p := by
  by_contra hne
  rw [lookup_create, update_of_ne hne] at hq
  exact h.freshInode_unused fs q hq

theorem inode_create_fresh (h : Host) (p : PathBuf) (n : Inode) (fs : Fs) :
    (fs.create h p n).inode (h.freshInode fs) = n := by
  simp [create, setInode]

theorem node_modifyInode (hi : fs.lookup p = some i) (honly : ∀ q, fs.lookup q = some i → q = p)
    (f : Inode → Inode) :
    (fs.modifyInode i f).node = update fs.node p (some (f (fs.inode i))) := by
  funext q
  by_cases hq : q = p
  · subst hq
    rw [update_self, node, lookup_modifyInode, hi, map_some, inode_modifyInode_self]
  rw [update_of_ne hq, node, node, lookup_modifyInode]
  cases hk : fs.lookup q with
  | none => rfl
  | some k =>
    have hne : k ≠ i := by
      rintro rfl
      exact hq (honly q hk)
    rw [map_some, map_some, inode_modifyInode_of_ne f hne]

theorem node_create_modifyInode (h : Host) (p : PathBuf) (n : Inode) (fs : Fs) (f : Inode → Inode) :
    ((fs.create h p n).modifyInode (h.freshInode fs) f).node =
      update fs.node p (some (f n)) := by
  rw [node_modifyInode (lookup_create_self h p n fs) (fun _ hq => lookup_create_fresh hq),
    inode_create_fresh, node_create, update_idem]

theorem resolve_create (hk : n.kind ≠ .symlink) :
    (fs.create h p n).resolve p = some (h.freshInode fs) :=
  resolve_of_lookup (lookup_create_self h p n fs) (by rwa [inode_create_fresh])

theorem lookup_erase (p : PathBuf) (fs : Fs) :
    lookup { fs with entries := fs.entries.erase p } = update fs.lookup p none :=
  get_erase p fs.entries

theorem node_erase (p : PathBuf) (fs : Fs) :
    node { fs with entries := fs.entries.erase p } = update fs.node p none := by
  funext q
  simp only [node, lookup, get_erase]
  by_cases hq : q = p
  · subst hq; simp
  · simp [update_of_ne hq, node, lookup]

variable {src dst : PathBuf}

theorem lookup_move (hsd : ¬ src <+: dst) (hds : ¬ dst <+: src) (fs : Fs) :
    lookup { fs with entries := fs.entries.move src dst } = move src dst fs.lookup :=
  get_move hsd hds fs.entries

theorem SingleNamed.erase (hnames : fs.SingleNamed)
    (hlookup : fs'.lookup = update fs.lookup p none) : fs'.SingleNamed := by
  have hold : ∀ q i, fs'.lookup q = some i → fs.lookup q = some i := by
    intro q i hq
    rw [hlookup] at hq
    by_cases hqp : q = p
    · rw [hqp, update_self] at hq
      cases hq
    · rwa [update_of_ne hqp] at hq
  exact fun q q' i hq hq' => hnames q q' i (hold q i hq) (hold q' i hq')

theorem SingleNamed.move (hnames : fs.SingleNamed) (hlookup : fs'.lookup = move src dst fs.lookup) :
    fs'.SingleNamed := by
  intro q q' i hq hq'
  rw [hlookup] at hq hq'
  exact move_injective hnames q q' i hq hq'

theorem node_move (hsd : ¬ src <+: dst) (hds : ¬ dst <+: src) (fs : Fs) :
    node { fs with entries := fs.entries.move src dst } = move src dst fs.node := by
  funext q
  simp only [node, lookup, get_move hsd hds]
  exact map_move fs.inode src dst fs.lookup q

/-! ## Changes of the kinds -/

theorem kindAt_of_node_update (hnode : fs'.node = update fs.node p (some n)) :
    fs'.kindAt = update fs.kindAt p (some n.kind) := by
  funext q
  by_cases hq : q = p
  · subst hq
    simp [kindAt, hnode]
  · simp [kindAt, hnode, update_of_ne hq]

theorem kindAt_erase (p : PathBuf) (fs : Fs) :
    kindAt { fs with entries := fs.entries.erase p } = update fs.kindAt p none := by
  funext q
  by_cases hq : q = p
  · subst hq
    simp [kindAt, node_erase]
  · simp [kindAt, node_erase, update_of_ne hq]

theorem kindAt_move (hsd : ¬ src <+: dst) (hds : ¬ dst <+: src) (fs : Fs) :
    kindAt { fs with entries := fs.entries.move src dst } = move src dst fs.kindAt := by
  funext q
  rw [kindAt, node_move hsd hds, map_move]
  rfl

theorem kindAt_modifyInode {f : Inode → Inode} (hf : ∀ n, (f n).kind = n.kind) :
    (fs.modifyInode i f).kindAt = fs.kindAt := by
  funext q
  simp only [kindAt, node, lookup_modifyInode, Option.map_map]
  cases hk : fs.lookup q with
  | none => rfl
  | some k =>
    by_cases hki : k = i
    · subst hki
      simp [inode_modifyInode_self, hf]
    · simp [inode_modifyInode_of_ne f hki]

/-! ## Well-formedness is kept -/

section Keep

variable (hwf : fs.WellFormed) {src dst : PathBuf}

include hwf

theorem WellFormed.put {kind : FileKind}
    (hkinds : fs'.kindAt = update fs.kindAt p (some kind)) (habs : AbsolutePath p)
    (hparent : fs.IsDir p.dropLast) (hdir : fs.IsDir p → kind = .directory) :
    fs'.WellFormed where
  root := by
    rw [IsDir, hkinds, update_of_ne (Ne.symm (hwf.ne_root hparent))]
    exact hwf.root
  absolute := by
    intro q hq
    by_cases hqp : q = p
    · rwa [hqp]
    · rw [hkinds, update_of_ne hqp] at hq
      exact hwf.absolute q hq
  rooted := by
    rw [hkinds]
    refine hwf.rooted.put ?_ ?_
    · rintro q a - rfl
      rw [dropLast_concat] at hparent
      exact ⟨_, hparent, rfl⟩
    · rintro d hd rfl
      exact hdir hd

theorem WellFormed.erase (hkinds : fs'.kindAt = update fs.kindAt p none)
    (hroot : p ≠ [.rootDir]) (hbelow : ∀ q, p <+: q → q ≠ p → fs.kindAt q = none) :
    fs'.WellFormed where
  root := by
    rw [IsDir, hkinds, update_of_ne (Ne.symm hroot)]
    exact hwf.root
  absolute := by
    intro q hq
    by_cases hqp : q = p
    · rw [hkinds, hqp, update_self] at hq
      exact absurd rfl hq
    · rw [hkinds, update_of_ne hqp] at hq
      exact hwf.absolute q hq
  rooted := by
    rw [hkinds]
    exact hwf.rooted.erase hbelow

theorem WellFormed.move (hkinds : fs'.kindAt = move src dst fs.kindAt) (hsrc : fs.kindAt src ≠ none)
    (habs : AbsolutePath dst) (hparent : fs.IsDir dst.dropLast) (hout : ¬ src <+: dst) :
    fs'.WellFormed where
  root := by
    have hd : ¬ dst <+: [.rootDir] := by
      intro hle
      have hpos : 0 < dst.length := length_pos_of_ne_nil habs.ne_nil
      exact hwf.ne_root hparent (hle.eq_of_length_le hpos)
    have hs : ¬ src <+: [.rootDir] := by
      intro hle
      obtain ⟨names, rfl⟩ := habs
      exact hout (hle.trans ⟨names.map .normal, rfl⟩)
    rw [IsDir, hkinds, move_of_outside _ hd hs]
    exact hwf.root
  absolute := by
    intro q hq
    rw [hkinds] at hq
    by_cases hd : dst <+: q
    · obtain ⟨r, rfl⟩ := hd
      rw [move_append] at hq
      exact (hwf.absolute src hsrc).transplant habs (hwf.absolute _ hq)
    by_cases hs : src <+: q
    · rw [move_src _ hd hs] at hq
      exact absurd rfl hq
    · rw [move_of_outside _ hd hs] at hq
      exact hwf.absolute q hq
  rooted := by
    rw [hkinds]
    refine hwf.rooted.move (hwf.absolute src hsrc).ne_nil hout ?_
    rintro q a - rfl
    rw [dropLast_concat] at hparent
    exact ⟨_, hparent, rfl⟩

theorem WellFormed.none_below (habs : AbsolutePath dst) (hfree : fs.kindAt dst = none)
    (hq : dst <+: q) : fs.kindAt q = none :=
  hwf.rooted.none_below habs.ne_nil hfree hq

theorem WellFormed.not_isPrefix_of_free (habs : AbsolutePath dst) (hfree : fs.kindAt dst = none)
    (hsrc : fs.kindAt src ≠ none) : ¬ dst <+: src :=
  fun hle => hsrc (hwf.none_below habs hfree hle)

end Keep

end Fs

/-! ## What a user sees -/

/-- Kind, permission bits and, of a file, the content. -/
def Inode.visible (n : Inode) : FileKind × Nat × Bytes :=
  (n.kind, n.perm, if n.kind = .regular then n.content else [])

namespace Fs

/-- What a user sees at each path. -/
def visible (fs : Fs) (p : PathBuf) : Option (FileKind × Nat × Bytes) :=
  (fs.node p).map Inode.visible

theorem kindAt_eq_visible (fs : Fs) (p : PathBuf) : fs.kindAt p = (fs.visible p).map Prod.fst := by
  simp only [kindAt, visible, Option.map_map]
  rfl

variable {u : Fs}

theorem kindAt_eq_of_visible_eq (hview : u.visible p = fs.visible p) :
    u.kindAt p = fs.kindAt p := by
  rw [kindAt_eq_visible, hview, ← kindAt_eq_visible]

theorem visible_of_node_eq (hnode : u.node p = fs.node p) : u.visible p = fs.visible p := by
  rw [visible, hnode, visible]

theorem visible_eq_of_update {u' : Fs} {n : Inode}
    (hnode : u'.node = update u.node p (some n)) (hn : fs.visible p = some n.visible)
    (hagree : ∀ q, q ≠ p → u.visible q = fs.visible q) : u'.visible = fs.visible := by
  funext q
  by_cases hq : q = p
  · subst hq
    rw [hn, visible, hnode, update_self, map_some]
  · rw [← hagree q hq]
    exact visible_of_node_eq (by rw [hnode, update_of_ne hq])

theorem visible_move {src dst : PathBuf} (hsd : ¬ src <+: dst) (hds : ¬ dst <+: src) (fs : Fs) :
    visible { fs with entries := fs.entries.move src dst } = move src dst fs.visible := by
  funext q
  rw [visible, node_move hsd hds, map_move]
  rfl

theorem visible_of_lookup (hi : fs.lookup p = some i) :
    fs.visible p = some (fs.inode i).visible := by
  rw [visible, node_of_lookup hi, map_some]

/-- The content of a regular file. -/
def fileAt (fs : Fs) (p : PathBuf) : Option Bytes :=
  (fs.node p).bind fun n => if n.kind = .regular then some n.content else none

theorem fileAt_of_lookup (hi : fs.lookup p = some i) (hreg : (fs.inode i).kind = .regular) :
    fs.fileAt p = some (fs.inode i).content := by
  simp [fileAt, node_of_lookup hi, hreg]

theorem fileAt_of_visible_eq (hview : u.visible p = fs.visible p) : u.fileAt p = fs.fileAt p := by
  have hfile : ∀ s : Fs, s.fileAt p =
      (s.visible p).bind fun v => if v.1 = .regular then some v.2.2 else none := by
    intro s
    cases hn : s.node p with
    | none => simp [fileAt, visible, hn]
    | some n =>
      by_cases hreg : n.kind = .regular <;> simp [fileAt, visible, hn, Inode.visible, hreg]
  rw [hfile, hview, ← hfile]

theorem fileAt_of_node_eq (hnode : u.node p = fs.node p) : u.fileAt p = fs.fileAt p := by
  rw [fileAt, hnode, fileAt]

theorem kindAt_of_fileAt {bytes : Bytes} (hfile : fs.fileAt p = some bytes) :
    fs.kindAt p = some .regular := by
  obtain ⟨n, hn, hif⟩ := bind_eq_some_iff.mp hfile
  rw [kindAt_of_node hn]
  split_ifs at hif with hreg
  rw [hreg]

/-- The same kinds, and the same content of every regular file. -/
structure SameFiles (u fs : Fs) : Prop where
  kinds : u.kindAt = fs.kindAt
  files : u.fileAt = fs.fileAt

@[refl] theorem SameFiles.refl (fs : Fs) : fs.SameFiles fs := ⟨rfl, rfl⟩

theorem SameFiles.trans {v : Fs} (huv : u.SameFiles v) (hv : v.SameFiles fs) : u.SameFiles fs :=
  ⟨huv.kinds.trans hv.kinds, huv.files.trans hv.files⟩

theorem sameFiles_modifyInode {f : Inode → Inode} (hk : ∀ n, (f n).kind = n.kind)
    (hc : ∀ n, (f n).content = n.content) : (fs.modifyInode i f).SameFiles fs where
  kinds := kindAt_modifyInode hk
  files := by
    funext q
    simp only [fileAt, node, lookup_modifyInode]
    cases hj : fs.lookup q with
    | none => rfl
    | some j =>
      by_cases hji : j = i
      · subst hji
        simp [inode_modifyInode_self, hk, hc]
      · simp [inode_modifyInode_of_ne f hji]

theorem fileAt_create_self (h : Host) (p : PathBuf) (perm : Nat) (bytes : Bytes) (target : String)
    (fs : Fs) : (fs.create h p (h.newInode .regular perm bytes target)).fileAt p = some bytes := by
  simp [fileAt, node_create, Host.newInode]

theorem kindAt_create_regular {n : Inode} (hreg : fs.kindAt p = some .regular)
    (hn : n.kind = .regular) : (fs.create h p n).kindAt = fs.kindAt := by
  rw [kindAt_of_node_update (node_create h p n fs), hn, ← hreg, update_eq_self]

theorem sameFiles_create {perm : Nat} {bytes : Bytes} (hfile : fs.fileAt p = some bytes) :
    (fs.create h p (h.newInode .regular perm bytes "")).SameFiles fs where
  kinds := kindAt_create_regular (kindAt_of_fileAt hfile) rfl
  files := by
    funext q
    by_cases hq : q = p
    · subst hq
      rw [fileAt_create_self, hfile]
    · exact fileAt_of_node_eq (by rw [node_create, update_of_ne hq])

end Fs

end ShitUndo
