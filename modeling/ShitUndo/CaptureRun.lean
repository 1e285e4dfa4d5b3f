import ShitUndo.WatchWalk
import ShitUndo.HandlerFacts
import ShitUndo.Lib.Transition

/-!
# A command under watch

The command's operations change the tree; each is reported by the kernel, and the helper handles
the event right after. What the kernel reports is taken from the tree before the operation, what
the handler finds from the tree after it.

* `Watched`: the tree, the state of the helper, and the history its caches are compared with.
* `Followed`: the caches are that history, in every run in which directories are made and files
  created in directories the helper knows by their path (`Followed.step`).
-/

namespace ShitUndo

open List Option Function Bool Fs WatchState InodeRef HelperIo

/-! ## Operations -/

/-- A name in a directory. -/
structure Dentry where
  dir : PathBuf
  name : String
deriving DecidableEq, Repr

def Dentry.path (e : Dentry) : PathBuf := e.dir ++ [.normal e.name]

/-- An operation of the command. A new file has the inode number the kernel gives it; files are
opened for writing and released with the content they then have. -/
inductive KernelOp where
  | mkdir (e : Dentry) (perm : Nat) (i : InodeRef)
  | create (e : Dentry) (perm : Nat) (i : InodeRef)
  | rename (src dst : Dentry)
  | writeOpen (e : Dentry) (bytes : Bytes)
  | release (e : Dentry) (bytes : Bytes)
  | setattr (e : Dentry) (perm uid gid : Nat)
  | unlink (e : Dentry)
deriving DecidableEq, Repr

/-- The names an operation is about. -/
def KernelOp.dentries : KernelOp → List Dentry
  | .mkdir e _ _ => [e]
  | .create e _ _ => [e]
  | .rename src dst => [src, dst]
  | .writeOpen e _ => [e]
  | .release e _ => [e]
  | .setattr e _ _ _ => [e]
  | .unlink e => [e]

/-- What an operation makes. -/
def KernelOp.makes : KernelOp → Option (PathBuf × InodeRef)
  | .mkdir e _ i => some (e.path, i)
  | .create e _ i => some (e.path, i)
  | _ => none

/-- The name whose inode an operation writes to. -/
def KernelOp.writes : KernelOp → Option Dentry
  | .writeOpen e _ => some e
  | .release e _ => some e
  | .setattr e _ _ _ => some e
  | _ => none

/-- A new inode can get the name: the directory is there, name and number are free, and the number
is of the directory's file system. -/
def Fs.CanMake (fs : Fs) (e : Dentry) (i : InodeRef) : Prop :=
  fs.lookup e.path = none ∧ (∀ entry ∈ fs.entries, entry.2 ≠ i) ∧
    (fs.lookup e.dir).map dev = some i.dev

instance (fs : Fs) (e : Dentry) (i : InodeRef) : Decidable (fs.CanMake e i) :=
  inferInstanceAs (Decidable (_ ∧ _ ∧ _))

/-- A new inode under a name. -/
def Fs.make (fs : Fs) (e : Dentry) (i : InodeRef) (n : Inode) : Fs :=
  (fs.link e.path i).setInode i n

/-- Change the inode at a name. -/
def Fs.change (fs : Fs) (e : Dentry) (f : Inode → Inode) : Option Fs :=
  (fs.lookup e.path).map fun i => fs.modifyInode i f

/-- What an operation does to the tree. -/
def KernelOp.perform (h : Host) (fs : Fs) : KernelOp → Option Fs
  | .mkdir e perm i =>
    if fs.CanMake e i then some (fs.make e i (h.newInode .directory perm [] "")) else none
  | .create e perm i =>
    if fs.CanMake e i then some (fs.make e i (h.newInode .regular perm [] "")) else none
  | .rename src dst => (fs.rename h src.path dst.path).toOption
  | .writeOpen e bytes =>
    if fs.kindAt e.path = some .regular then fs.change e fun n => { n with content := bytes }
    else none
  | .release e bytes =>
    if fs.kindAt e.path = some .regular then fs.change e fun n => { n with content := bytes }
    else none
  | .setattr e perm uid gid => fs.change e fun n => { n with perm := perm, uid := uid, gid := gid }
  | .unlink e =>
    if fs.IsDir e.path then (fs.rmdir h e.path).toOption else (fs.unlink h e.path).toOption

/-! ## Events -/

/-- The inode of the directory a name is in. -/
def Fs.dirRef (fs : Fs) (e : Dentry) : InodeRef := (fs.lookup e.dir).getD ⟨0, 0⟩

/-- The inode a name is of. -/
def Fs.ref (fs : Fs) (e : Dentry) : InodeRef := (fs.lookup e.path).getD ⟨0, 0⟩

/-- What the kernel reports, from the tree before the operation. There is no event for a rename
between two names of one file. -/
def KernelOp.event (fs : Fs) : KernelOp → Option LsmEvent
  | .mkdir e perm _ => some (.mkdir ⟨(fs.dirRef e).dev, (fs.dirRef e).inode, perm, e.name⟩)
  | .create e perm _ => some (.create ⟨(fs.dirRef e).dev, (fs.dirRef e).inode, perm, e.name⟩)
  | .rename src dst =>
    if fs.lookup src.path = fs.lookup dst.path then none
    else some (.rename ⟨(fs.ref src).dev, (fs.ref src).inode, (fs.dirRef src).inode,
      (fs.dirRef dst).inode, src.name, dst.name⟩)
  | .writeOpen e _ => some (.opened ⟨(fs.ref e).dev, (fs.ref e).inode⟩)
  | .release e _ => some (.release ⟨(fs.ref e).dev, (fs.ref e).inode⟩)
  | .setattr e _ _ _ =>
    let n := fs.inode (fs.ref e)
    some (.setattr ⟨(fs.ref e).dev, (fs.ref e).inode, n.kind.ifmt + n.perm, n.uid, n.gid⟩)
  | .unlink e =>
    some (.unlink ⟨(fs.ref e).dev, (fs.ref e).inode, (fs.dirRef e).inode, e.name,
      decide (fs.IsDir e.path)⟩)

/-! ## The system -/

/-- What the helper has seen: the path of a directory when it was walked or made, the inode last
walked or created at a path, and the inode numbers with a snapshot. -/
structure Births where
  dirAt : InodeRef → Option PathBuf
  bornAt : PathBuf → Option InodeRef
  filed : InodeRef → Bool

def Births.after (births : Births) : KernelOp → Births
  | .mkdir e _ i => { births with dirAt := update births.dirAt i (some e.path) }
  | .create e _ i =>
    { births with bornAt := update births.bornAt e.path (some i)
                  filed := update births.filed i true }
  | _ => births

/-- A command under watch. -/
structure Watched where
  fs : Fs
  ws : WatchState
  births : Births

section System

variable (io : Fs → HelperIo) (h : Host) (command : CommandId) (root : PathBuf)

/-- When the command starts. -/
def Watched.start (fs : Fs) : Watched where
  fs := fs
  ws := (preOpenTree (io fs) fs root).ws
  births := ⟨fs.dirNamed root, openedAt (io fs) fs root, snapshotTaken (io fs) fs root⟩

/-- The handler of an operation's event, in the tree after it. -/
def KernelOp.react (op : KernelOp) (fs fs' : Fs) (ws : WatchState) :
    WatchState × List HelperResponse :=
  match op.event fs with
  | none => (ws, [])
  | some ev => handleLsm (io fs') h fs' command ws ev

/-- The tree after an operation below the watch root, if it succeeds. -/
def Watched.next (s : Watched) (op : KernelOp) : Option Fs :=
  if op.dentries.all fun e => decide (root <+: e.dir ∧ s.fs.IsDir e.dir) then op.perform h s.fs
  else none

/-- An operation below the watch root, and its handler. -/
def Watched.step (s : Watched) (op : KernelOp) : Option Watched :=
  (s.next h root op).map fun fs' =>
    ⟨fs', (op.react io h command s.fs fs' s.ws).1, s.births.after op⟩

/-- The messages the helper sends when the operation is handled. -/
def Watched.messages (s : Watched) (op : KernelOp) : List HelperResponse :=
  match s.next h root op with
  | none => []
  | some fs' => (op.react io h command s.fs fs' s.ws).2

end System

/-! ## The tree -/

variable {root : PathBuf} {op : KernelOp} {i : InodeRef} {e : Dentry} {dev : Nat}

section Tree

variable {h : Host} {fs fs' : Fs}

theorem Dentry.under (hdir : root <+: e.dir) : root <+: e.path ∧ e.path ≠ root :=
  child_of_root hdir e.name

theorem AbsolutePath.dentry (habs : AbsolutePath e.dir) : AbsolutePath e.path := by
  obtain ⟨names, hnames⟩ := habs
  exact ⟨names ++ [e.name], by simp [Dentry.path, hnames]⟩

theorem Dentry.dropLast_path (e : Dentry) : e.path.dropLast = e.dir := dropLast_concat

theorem Fs.WellFormed.dentry (hwf : fs.WellFormed) (hdir : fs.IsDir e.dir) : AbsolutePath e.path :=
  (hwf.absolute e.dir (hdir ▸ some_ne_none _)).dentry

theorem Fs.CanMake.unnamed (hcan : fs.CanMake e i) (q : PathBuf) : fs.lookup q ≠ some i :=
  fun hq => hcan.2.1 _ (mem_entries_of_lookup hq) rfl

theorem Fs.lookup_make (fs : Fs) (e : Dentry) (i : InodeRef) (n : Inode) :
    (fs.make e i n).lookup = update fs.lookup e.path (some i) :=
  PathTree.Entries.get_put e.path i fs.entries

theorem Fs.inode_make_self (fs : Fs) (e : Dentry) (i : InodeRef) (n : Inode) :
    (fs.make e i n).inode i = n := by
  simp only [make, setInode, update_self]

theorem Fs.inode_make_of_ne (fs : Fs) (e : Dentry) (n : Inode) {j : InodeRef} (hne : j ≠ i) :
    (fs.make e i n).inode j = fs.inode j := by
  simp only [make, setInode, link, update_of_ne hne]

/-- A rename finds two names of one file, or moves the source to a place that is free or can be
overwritten. -/
theorem Fs.rename_cases (hwf : fs.WellFormed) {src dst : PathBuf} (habs : AbsolutePath dst)
    (hok : fs.rename h src dst = .ok fs') : ∃ i, fs.lookup src = some i ∧
      ((fs.lookup dst = some i ∧ fs' = fs) ∨
        (fs.lookup dst ≠ some i ∧ ¬ src <+: dst ∧ ¬ dst <+: src ∧
          (fs.IsDir dst → (fs.inode i).kind = .directory) ∧
          fs' = { fs with entries := fs.entries.move src dst })) := by
  have hact := (Host.attempt_eq_ok hok).2
  split at hact
  · cases hact
  rename_i i hi
  refine ⟨i, hi, ?_⟩
  split at hact
  · cases hact
  by_cases hinside : src <+: dst ∧ src ≠ dst
  · rw [if_pos hinside] at hact
    cases hact
  rw [if_neg hinside] at hact
  split at hact
  · rename_i hfree
    cases hact
    have hnone : fs.kindAt dst = none :=
      kindAt_eq_none_iff.mpr (node_eq_none_iff.mpr hfree)
    refine .inr ⟨?_, ?_, ?_, ?_, rfl⟩
    · rw [hfree]
      exact (some_ne_none i).symm
    · intro hsd
      refine hinside ⟨hsd, ?_⟩
      rintro rfl
      rw [hi] at hfree
      cases hfree
    · exact hwf.not_isPrefix_of_free habs hnone (kindAt_ne_none hi)
    · exact fun hdir => absurd hdir (not_isDir_of_free hnone)
  · rename_i j hj
    have hkindj := kindAt_of_lookup hj
    by_cases hij : i = j
    · rw [if_pos hij] at hact
      cases hact
      exact .inl ⟨hij ▸ hj, rfl⟩
    have hne : src ≠ dst := by
      rintro rfl
      rw [hi] at hj
      exact hij (some.inj hj)
    -- what is overwritten has nothing below it
    have hover : fs' = { fs with entries := fs.entries.move src dst } ∧
        (fs.IsDir dst → (fs.inode i).kind = .directory) ∧ ¬ dst <+: src := by
      split_ifs at hact with hdiri hdirj hbelow hdirj
      · cases hact
        refine ⟨rfl, fun _ => hdiri, fun hds => ?_⟩
        have hnone := PathTree.Entries.hasBelow_eq_false_iff.mp
          (eq_false_iff.mpr hbelow) src hds hne
        rw [show fs.entries.get src = some i from hi] at hnone
        cases hnone
      · cases hact
        refine ⟨rfl, fun hdir => ?_, fun hds => ?_⟩
        · rw [Fs.IsDir, hkindj] at hdir
          exact absurd (some.inj hdir) hdirj
        · have hnone := hwf.rooted.none_below_leaf habs.ne_nil hkindj hdirj hds hne
          exact kindAt_ne_none hi hnone
    obtain ⟨hfs, hkinds, hds⟩ := hover
    refine .inr ⟨?_, fun hsd => hinside ⟨hsd, hne⟩, hds, hkinds, hfs⟩
    rw [hj]
    exact fun hji => hij (some.inj hji).symm

theorem Fs.change_eq_some {f : Inode → Inode} (hchange : fs.change e f = some fs') :
    ∃ i, fs.lookup e.path = some i ∧ fs' = fs.modifyInode i f := by
  obtain ⟨i, hi, rfl⟩ := map_eq_some_iff.mp hchange
  exact ⟨i, hi, rfl⟩

/-- What an operation can do to the tree. -/
inductive KernelOp.Effect (fs : Fs) : KernelOp → Fs → Prop
  | mkdir (e : Dentry) (perm : Nat) (i : InodeRef) (n : Inode) (hcan : fs.CanMake e i)
      (hkind : n.kind = .directory) : Effect fs (.mkdir e perm i) (fs.make e i n)
  | create (e : Dentry) (perm : Nat) (i : InodeRef) (n : Inode) (hcan : fs.CanMake e i)
      (hkind : n.kind = .regular) (hcontent : n.content = []) :
      Effect fs (.create e perm i) (fs.make e i n)
  | sameFile (src dst : Dentry) (i : InodeRef) (hsrc : fs.lookup src.path = some i)
      (hdst : fs.lookup dst.path = some i) : Effect fs (.rename src dst) fs
  | rename (src dst : Dentry) (i : InodeRef) (hsrc : fs.lookup src.path = some i)
      (hdst : fs.lookup dst.path ≠ some i) (hsd : ¬ src.path <+: dst.path)
      (hds : ¬ dst.path <+: src.path)
      (hdir : fs.IsDir dst.path → (fs.inode i).kind = .directory) :
      Effect fs (.rename src dst) { fs with entries := fs.entries.move src.path dst.path }
  | change (e : Dentry) (op : KernelOp) (i : InodeRef) (f : Inode → Inode)
      (hop : op.writes = some e) (hi : fs.lookup e.path = some i) (hf : ∀ n, (f n).kind = n.kind) :
      Effect fs op (fs.modifyInode i f)
  | unlink (e : Dentry) (i : InodeRef) (hi : fs.lookup e.path = some i)
      (hbelow : ∀ q, e.path <+: q → q ≠ e.path → fs.kindAt q = none) :
      Effect fs (.unlink e) { fs with entries := fs.entries.erase e.path }

theorem ok_of_toOption {ε α : Type} {x : Except ε α} {a : α} (hx : x.toOption = some a) :
    x = .ok a := by
  cases x with
  | error e => cases hx
  | ok b => rw [some.inj hx]

theorem KernelOp.effect_unlink (hwf : fs.WellFormed) (habs : AbsolutePath e.path)
    (hperform : (KernelOp.unlink e).perform h fs = some fs') :
    KernelOp.Effect fs (.unlink e) fs' := by
  unfold KernelOp.perform at hperform
  dsimp only at hperform
  split_ifs at hperform with hdir
  · have hact := (Host.attempt_eq_ok (ok_of_toOption hperform)).2
    split at hact
    · cases hact
    rename_i n hn
    split_ifs at hact with hkind hbelow
    cases hact
    obtain ⟨i, hi, -⟩ := node_eq_some_iff.mp hn
    exact .unlink e i hi (kindAt_below_of_check (eq_false_iff.mpr hbelow))
  · have hact := (Host.attempt_eq_ok (ok_of_toOption hperform)).2
    split at hact
    · cases hact
    rename_i n hn
    split_ifs at hact with hkind
    cases hact
    obtain ⟨i, hi, -⟩ := node_eq_some_iff.mp hn
    exact .unlink e i hi fun q hq hne =>
      hwf.rooted.none_below_leaf habs.ne_nil (kindAt_of_node hn) hkind hq hne

theorem KernelOp.effect_of_perform (hwf : fs.WellFormed) (hdirs : ∀ e ∈ op.dentries, fs.IsDir e.dir)
    (hperform : op.perform h fs = some fs') :
    op.Effect fs fs' := by
  have habs : ∀ e ∈ op.dentries, AbsolutePath e.path := fun e he => hwf.dentry (hdirs e he)
  cases op with
  | mkdir e perm i =>
    unfold KernelOp.perform at hperform
    dsimp only at hperform
    split_ifs at hperform with hcan
    cases hperform
    exact .mkdir e perm i _ hcan rfl
  | create e perm i =>
    unfold KernelOp.perform at hperform
    dsimp only at hperform
    split_ifs at hperform with hcan
    cases hperform
    exact .create e perm i _ hcan rfl rfl
  | rename src dst =>
    obtain ⟨i, hsrc, ⟨hdst, rfl⟩ | ⟨hdst, hsd, hds, hdir, rfl⟩⟩ :=
      rename_cases hwf (habs dst (mem_cons_of_mem _ mem_cons_self)) (ok_of_toOption hperform)
    · exact .sameFile src dst i hsrc hdst
    · exact .rename src dst i hsrc hdst hsd hds hdir
  | writeOpen e bytes | release e bytes =>
    unfold KernelOp.perform at hperform
    dsimp only at hperform
    split_ifs at hperform
    obtain ⟨i, hi, rfl⟩ := change_eq_some hperform
    exact .change e _ i _ rfl hi fun n => rfl
  | setattr e perm uid gid =>
    obtain ⟨i, hi, rfl⟩ := change_eq_some hperform
    exact .change e _ i _ rfl hi fun n => rfl
  | unlink e => exact KernelOp.effect_unlink hwf (habs e mem_cons_self) hperform

/-- A tree under watch, on one device. -/
structure OnDevice (root : PathBuf) (dev : Nat) (fs : Fs) : Prop where
  wf : fs.WellFormed
  device : ∀ p i, root <+: p → fs.lookup p = some i → i.dev = dev

/-- **Whatever has a name after an operation is new or had a name before**, and is of the kind it
was of. -/
theorem KernelOp.Effect.named (heffect : op.Effect fs fs')
    (hunder : ∀ e ∈ op.dentries, root <+: e.dir) {q : PathBuf} {j : InodeRef}
    (hq : fs'.lookup q = some j) :
    (∃ e ∈ op.dentries, fs.CanMake e j ∧ q = e.path ∧ op.makes = some (e.path, j)) ∨
      ∃ q', fs.lookup q' = some j ∧ (root <+: q → root <+: q') ∧
        (fs'.inode j).kind = (fs.inode j).kind := by
  have hmade : ∀ (e : Dentry) (i : InodeRef) (n : Inode), fs.CanMake e i →
      (fs.make e i n).lookup q = some j → (q = e.path ∧ j = i) ∨
        ∃ q', fs.lookup q' = some j ∧ (root <+: q → root <+: q') ∧
          ((fs.make e i n).inode j).kind = (fs.inode j).kind := by
    intro e i n hcan hq
    rw [lookup_make] at hq
    by_cases hqe : q = e.path
    · rw [hqe, update_self] at hq
      exact .inl ⟨hqe, (some.inj hq).symm⟩
    rw [update_of_ne hqe] at hq
    refine .inr ⟨q, hq, id, ?_⟩
    rw [inode_make_of_ne]
    rintro rfl
    exact hcan.unnamed q hq
  cases heffect with
  | mkdir e perm i n hcan hkind | create e perm i n hcan hkind hcontent =>
    rcases hmade e i n hcan hq with ⟨hqe, rfl⟩ | hold
    · exact .inl ⟨e, mem_cons_self, hcan, hqe, rfl⟩
    · exact .inr hold
  | sameFile src dst i hsrc hdst => exact .inr ⟨q, hq, id, rfl⟩
  | rename src dst i hsrc hdst hsd hds hdir =>
    refine .inr ?_
    rw [lookup_move hsd hds, PathTree.move] at hq
    split_ifs at hq with hbelow
    · have hsrcUnder := (Dentry.under (hunder src mem_cons_self)).1
      exact ⟨_, hq, fun _ => hsrcUnder.trans (prefix_append _ _), rfl⟩
    · exact ⟨q, hq, id, rfl⟩
  | change e op i f hop hi hf =>
    refine .inr ⟨q, hq, id, ?_⟩
    by_cases hji : j = i
    · rw [hji, inode_modifyInode_self, hf]
    · rw [inode_modifyInode_of_ne f hji]
  | unlink e i hi hbelow =>
    rw [lookup_erase] at hq
    by_cases hqe : q = e.path
    · rw [hqe, update_self] at hq
      cases hq
    · rw [update_of_ne hqe] at hq
      exact .inr ⟨q, hq, id, rfl⟩

theorem Fs.WellFormed.make (hwf : fs.WellFormed) (hdir : fs.IsDir e.dir)
    (hcan : fs.CanMake e i) (n : Inode) : (fs.make e i n).WellFormed := by
  refine hwf.put (kindAt_of_node_update (node_setInode_link hcan.unnamed e.path n))
    (hwf.dentry hdir) (by rwa [e.dropLast_path]) ?_
  intro hisdir
  have hfree := hcan.1
  rw [← node_eq_none_iff, ← kindAt_eq_none_iff] at hfree
  exact absurd hisdir (not_isDir_of_free hfree)

theorem KernelOp.Effect.wellFormed (heffect : op.Effect fs fs') (hwf : fs.WellFormed)
    (hdirs : ∀ e ∈ op.dentries, fs.IsDir e.dir) : fs'.WellFormed := by
  cases heffect with
  | mkdir e perm i n hcan hkind | create e perm i n hcan hkind hcontent =>
    exact hwf.make (hdirs e mem_cons_self) hcan n
  | sameFile src dst i hsrc hdst => exact hwf
  | rename src dst i hsrc hdst hsd hds hdir =>
    have hparent := hdirs dst (mem_cons_of_mem _ mem_cons_self)
    exact hwf.move (kindAt_move hsd hds fs) (kindAt_ne_none hsrc)
      (hwf.dentry hparent) (by rwa [dst.dropLast_path]) hsd
  | change e op i f hop hi hf => exact hwf.of_kindAt_eq (kindAt_modifyInode hf)
  | unlink e i hi hbelow =>
    have hparent := hdirs e mem_cons_self
    exact hwf.erase (kindAt_erase e.path fs) (hwf.ne_root (by rwa [e.dropLast_path])) hbelow

theorem OnDevice.step (htree : OnDevice root dev fs)
    (hdirs : ∀ e ∈ op.dentries, root <+: e.dir ∧ fs.IsDir e.dir) (heffect : op.Effect fs fs') :
    OnDevice root dev fs' where
  wf := heffect.wellFormed htree.wf fun e he => (hdirs e he).2
  device := by
    intro q j hq hj
    rcases heffect.named (fun e he => (hdirs e he).1) hj with
      ⟨e, he, hcan, -, -⟩ | ⟨q', hq', hunder, -⟩
    · obtain ⟨d, hd, hdev⟩ := map_eq_some_iff.mp hcan.2.2
      rw [← hdev]
      exact htree.device e.dir d (hdirs e he).1 hd
    · exact htree.device q' j (hunder hq) hq'

end Tree

/-! ## The helper -/

/-- The helper can open and read files, stage their content and reach the daemon. -/
structure HelperIo.Works (io : HelperIo) : Prop where
  opens : ∀ p, io.opens p = true
  reads : ∀ i, io.reads i = true
  stages : ∀ bytes, io.stages bytes = true
  sends : ∀ msg, io.sends msg = true

/-- The directory is where it was when the helper learnt of it. -/
def Watched.KnowsDir (s : Watched) (dir : PathBuf) : Prop :=
  (s.fs.lookup dir).bind s.births.dirAt = some dir

instance (s : Watched) (dir : PathBuf) : Decidable (s.KnowsDir dir) :=
  inferInstanceAs (Decidable (_ = _))

/-- The caches of the helper are what it has seen. -/
structure Followed (births : Births) (ws : WatchState) : Prop where
  dirs : ∀ i, ws.dirPaths i.user = births.dirAt i
  pending : ∀ k, ws.pendingCreates k = []
  index : ∀ p, KeyMap.get ws.pathToInode p = (births.bornAt p).map user
  snaps : ∀ i, (ws.preSnapshots i.user).isSome = births.filed i

/-- What the handler of an operation leaves behind. -/
inductive KernelOp.Reaction (fs : Fs) (ws : WatchState) : KernelOp → WatchState → Prop
  | mkdir (e : Dentry) (perm : Nat) (i : InodeRef) :
      Reaction fs ws (.mkdir e perm i) (ws.addDir i.user e.path)
  | create (e : Dentry) (perm : Nat) (i : InodeRef) (snap : PreSnapshot) :
      Reaction fs ws (.create e perm i)
        (((ws.addSnapshot i.user snap).hold i.user ⟨i, false⟩ e.path).mark i.user false)
  | rename (src dst : Dentry) : Reaction fs ws (.rename src dst) ws
  | unmarked (e : Dentry) (op : KernelOp) (hop : op.writes = some e) : Reaction fs ws op ws
  | marked (e : Dentry) (op : KernelOp) (hop : op.writes = some e) :
      Reaction fs ws op (ws.mark (fs.ref e).user false)
  | lost (e : Dentry) : Reaction fs ws (.unlink e) (ws.mark (fs.ref e).user true)
  | unlink (e : Dentry) :
      Reaction fs ws (.unlink e) ((ws.mark (fs.ref e).user true).drop (fs.ref e).user)

section Helper

variable {io : Fs → HelperIo} {h : Host} {command : CommandId} {s : Watched} {fs' : Fs} {fs : Fs}
  {ws : WatchState} {result : WatchState × List HelperResponse} {births : Births} {ws' : WatchState}

theorem Watched.KnowsDir.dirPaths (hfollowed : Followed s.births s.ws) (hknows : s.KnowsDir e.dir) :
    s.ws.dirPaths (s.fs.dirRef e).user = some e.dir := by
  obtain ⟨d, hd, hat⟩ := bind_eq_some_iff.mp hknows
  rw [dirRef, hd, getD_some, hfollowed.dirs, hat]

theorem Watched.KnowsDir.dirPaths_on (hfollowed : Followed s.births s.ws)
    (htree : OnDevice root dev s.fs) (hunder : root <+: e.dir) (hknows : s.KnowsDir e.dir) :
    s.ws.dirPaths ⟨kernelDevToUserspace dev, (s.fs.dirRef e).inode⟩ = some e.dir := by
  obtain ⟨d, hd, -⟩ := bind_eq_some_iff.mp hknows
  have hdirs := hknows.dirPaths hfollowed
  rw [dirRef, hd, getD_some] at hdirs ⊢
  rw [← htree.device e.dir d hunder hd]
  exact hdirs

theorem OnDevice.ref (htree : OnDevice root dev fs) (hunder : root <+: e.dir)
    (hi : fs.lookup e.path = some i) : fs.ref e = i ∧ i.dev = dev :=
  ⟨by rw [Fs.ref, hi, getD_some], htree.device e.path i (Dentry.under hunder).1 hi⟩

theorem kernelDevToUserspace_ne_zero (hdev : dev ≠ 0) : kernelDevToUserspace dev ≠ 0 :=
  fun hzero => hdev (kernelDevToUserspace_injective hzero)

theorem HelperIo.Works.readPreImage {io : HelperIo} (hworks : io.Works)
    (hlen : (fs.inode i).content.length ≤ maxPreImageBytes) :
    io.readPreImage fs ⟨i, false⟩ = some (fs.inode i).content :=
  readPreImage_of_reads (hworks.reads i) hlen

theorem HelperIo.Works.openNoFollow {io : HelperIo} {p : PathBuf} (hworks : io.Works)
    (hi : fs.lookup p = some i) (hkind : (fs.inode i).kind = .regular) :
    io.openNoFollow fs p = some ⟨i, false⟩ := by
  simp [HelperIo.openNoFollow, hi, hkind, hworks.opens]

theorem SentSnapshot.state {io : HelperIo} {key : InodeRef}
    (hsent : SentSnapshot io h ws key result) :
    result.1 = ws ∨ result.1 = ws.mark key false := by
  cases hsent with
  | nothing => exact .inl rfl
  | sent snap path pre hfree hsnap hpath href hprepath hdelete hstaged hhash => exact .inr rfl

theorem KernelOp.Reaction.of_sent {io : HelperIo} (hop : op.writes = some e)
    (hsent : SentSnapshot io h ws (fs.ref e).user result) : op.Reaction fs ws result.1 := by
  rcases hsent.state with hsame | hmark
  · rw [hsame]
    exact .unmarked e op hop
  · rw [hmark]
    exact .marked e op hop

section React

variable (io h command)

theorem KernelOp.react_mkdir {n : Inode} (hfollowed : Followed s.births s.ws)
    (hknows : s.KnowsDir e.dir) (hkind : n.kind = .directory) (hdev : i.dev ≠ 0) (perm : Nat) :
    (KernelOp.mkdir e perm i).react io h command s.fs (s.fs.make e i n) s.ws =
      (s.ws.addDir i.user e.path, (io (s.fs.make e i n)).deliver (.treeMutation command
        (.create i.user e.path.display .directory perm) (io (s.fs.make e i n)).now)) := by
  have hat : (s.fs.make e i n).lookup e.path = some i := by
    rw [lookup_make, update_self]
  have hstat : statDir (s.fs.make e i n) e.path = i.user := by
    simp only [statDir, hat, inode_make_self, hkind, if_true]
  exact handleLsmMkdir_eq (hknows.dirPaths hfollowed) rfl hstat
    (kernelDevToUserspace_ne_zero hdev) hfollowed.pending

theorem KernelOp.react_create (hfollowed : Followed s.births s.ws) (hknows : s.KnowsDir e.dir)
    (perm : Nat) (fs' : Fs) :
    (KernelOp.create e perm i).react io h command s.fs fs' s.ws =
      processLsmCreateResolved (io fs') fs' command s.ws e.path perm :=
  handleLsmCreate_eq (hknows.dirPaths hfollowed) rfl

theorem KernelOp.reaction_create {n : Inode} (hworks : (io (s.fs.make e i n)).Works)
    (hfollowed : Followed s.births s.ws) (hknows : s.KnowsDir e.dir) (hkind : n.kind = .regular)
    (hcontent : n.content = []) (perm : Nat) :
    (KernelOp.create e perm i).Reaction s.fs s.ws
      ((KernelOp.create e perm i).react io h command s.fs (s.fs.make e i n) s.ws).1 := by
  have hat : (s.fs.make e i n).lookup e.path = some i := by
    rw [lookup_make, update_self]
  have hreg : ((s.fs.make e i n).inode i).kind = .regular := by
    rw [inode_make_self, hkind]
  have hlen : ((s.fs.make e i n).inode i).content.length ≤ maxPreImageBytes := by
    rw [inode_make_self, hcontent]
    exact Nat.zero_le _
  rw [KernelOp.react_create io h command hfollowed hknows perm,
    processLsmCreateResolved_regular (hworks.openNoFollow hat hreg) hreg
      (hworks.readPreImage hlen) hworks.sends]
  exact .create e perm i _

theorem KernelOp.react_rename {src dst : Dentry} (htree : OnDevice root dev s.fs)
    (hfollowed : Followed s.births s.ws) (hsrcDir : root <+: src.dir) (hdstDir : root <+: dst.dir)
    (hknowsSrc : s.KnowsDir src.dir) (hknowsDst : s.KnowsDir dst.dir)
    (hsrc : s.fs.lookup src.path = some i) (hdst : s.fs.lookup dst.path ≠ some i) (fs' : Fs) :
    (KernelOp.rename src dst).react io h command s.fs fs' s.ws =
      (s.ws, clobberedPreImage (io fs') h command s.ws dst.path ++
        (io fs').deliver (.treeMutation command
          (.rename src.path.display dst.path.display i.user) (io fs').now)) := by
  obtain ⟨href, hi⟩ := htree.ref hsrcDir hsrc
  have hevent : (KernelOp.rename src dst).event s.fs = some (.rename ⟨i.dev, i.inode,
      (s.fs.dirRef src).inode, (s.fs.dirRef dst).inode, src.name, dst.name⟩) := by
    rw [KernelOp.event, href, if_neg]
    rw [hsrc]
    exact fun heq => hdst heq.symm
  unfold KernelOp.react
  rw [hevent]
  refine handleLsmRename_eq ?_ ?_ rfl rfl
  · rw [hi]
    exact hknowsSrc.dirPaths_on hfollowed htree hsrcDir
  · rw [hi]
    exact hknowsDst.dirPaths_on hfollowed htree hdstDir

theorem KernelOp.react_sameFile {src dst : Dentry}
    (hsame : s.fs.lookup src.path = s.fs.lookup dst.path) (fs' : Fs) :
    (KernelOp.rename src dst).react io h command s.fs fs' s.ws = (s.ws, []) := by
  unfold KernelOp.react KernelOp.event
  dsimp only
  rw [if_pos hsame]

theorem KernelOp.reaction_unlink (fs' : Fs) :
    (KernelOp.unlink e).Reaction s.fs s.ws
      ((KernelOp.unlink e).react io h command s.fs fs' s.ws).1 := by
  unfold KernelOp.react KernelOp.event
  dsimp only [handleLsm]
  generalize hev : LsmUnlinkView.mk _ _ _ _ _ = ev
  rcases handleLsmUnlink_cases ev with ⟨-, hlost⟩ | ⟨dir, pre, -, -, -, -, hunlink⟩
  · rw [hlost, ← hev]
    exact .lost e
  · rw [hunlink, ← hev]
    exact .unlink e

theorem KernelOp.reaction_setattr (perm uid gid : Nat) (fs' : Fs) :
    (KernelOp.setattr e perm uid gid).Reaction s.fs s.ws
      ((KernelOp.setattr e perm uid gid).react io h command s.fs fs' s.ws).1 := by
  unfold KernelOp.react KernelOp.event
  dsimp only [handleLsm]
  generalize hev : LsmSetattrView.mk _ _ _ _ _ = ev
  have hkey : user ⟨ev.dev, ev.inode⟩ = (s.fs.ref e).user := by rw [← hev]
  rcases handleLsmSetattr_cases ev with ⟨-, hmark⟩ | hsent
  · rw [hmark, hkey]
    exact .marked e _ rfl
  · rw [hkey] at hsent
    exact .of_sent rfl hsent

end React

theorem KernelOp.reaction (hworks : (io fs').Works) (hdev : dev ≠ 0)
    (hfollowed : Followed s.births s.ws) (hdevice : OnDevice root dev fs')
    (hunder : ∀ e ∈ op.dentries, root <+: e.dir) (heffect : op.Effect s.fs fs')
    (hknows : op.makes ≠ none → ∀ e ∈ op.dentries, s.KnowsDir e.dir) :
    op.Reaction s.fs s.ws (op.react io h command s.fs fs' s.ws).1 := by
  cases op with
  | mkdir e perm i =>
    have hdir := hknows (some_ne_none _) e mem_cons_self
    cases heffect with
    | mkdir _ _ _ n hcan hkind =>
      have hi : i.dev = dev := by
        refine hdevice.device e.path i (Dentry.under (hunder e mem_cons_self)).1 ?_
        rw [lookup_make, update_self]
      rw [KernelOp.react_mkdir io h command hfollowed hdir hkind (hi ▸ hdev)]
      exact .mkdir e perm i
    | change _ _ _ _ hop => cases hop
  | create e perm i =>
    have hdir := hknows (some_ne_none _) e mem_cons_self
    cases heffect with
    | create _ _ _ n hcan hkind hcontent =>
      exact KernelOp.reaction_create io h command hworks hfollowed hdir hkind hcontent perm
    | change _ _ _ _ hop => cases hop
  | rename src dst =>
    unfold KernelOp.react KernelOp.event
    dsimp only
    split_ifs
    · exact .rename src dst
    · dsimp only [handleLsm]
      rw [handleLsmRename_state]
      exact .rename src dst
  | writeOpen e bytes =>
    exact .of_sent rfl (handleLsmOpen_sent ⟨(s.fs.ref e).dev, (s.fs.ref e).inode⟩)
  | release e bytes =>
    exact .of_sent rfl (handleLsmRelease_sent ⟨(s.fs.ref e).dev, (s.fs.ref e).inode⟩)
  | setattr e perm uid gid => exact KernelOp.reaction_setattr io h command perm uid gid fs'
  | unlink e => exact KernelOp.reaction_unlink io h command fs'

theorem Followed.of_same (hfollowed : Followed births ws) (hdirs : ws'.dirPaths = ws.dirPaths)
    (hpending : ws'.pendingCreates = ws.pendingCreates) (hindex : ws'.pathToInode = ws.pathToInode)
    (hsnaps : ws'.preSnapshots = ws.preSnapshots) :
    Followed births ws' where
  dirs := hdirs ▸ hfollowed.dirs
  pending := hpending ▸ hfollowed.pending
  index := hindex ▸ hfollowed.index
  snaps := hsnaps ▸ hfollowed.snaps

theorem Births.after_of_writes (births : Births) (hop : op.writes = some e) :
    births.after op = births := by
  cases op with
  | mkdir e perm i => cases hop
  | create e perm i => cases hop
  | _ => rfl

/-- **The caches stay what the helper has seen.** -/
theorem Followed.react (hfollowed : Followed births ws) (hreaction : op.Reaction fs ws ws') :
    Followed (births.after op) ws' := by
  cases hreaction with
  | mkdir e perm i =>
    refine { hfollowed with dirs := ?_ }
    intro j
    dsimp only [Births.after]
    by_cases hji : j = i
    · rw [hji, addDir_dirPaths, update_self, update_self]
    · rw [addDir_dirPaths, update_of_ne (user_injective.ne hji),
        update_of_ne hji, hfollowed.dirs]
  | create e perm i snap =>
    refine { hfollowed with index := ?_, snaps := ?_ }
    · intro p
      dsimp only [Births.after]
      rw [mark_pathToInode, hold_pathToInode, KeyMap.get_insert]
      by_cases hp : e.path = p
      · rw [if_pos hp, ← hp, update_self, map_some]
      · rw [if_neg hp, update_of_ne (Ne.symm hp)]
        exact hfollowed.index p
    · intro j
      dsimp only [Births.after]
      rw [mark_preSnapshots, hold_preSnapshots,
        addSnapshot_preSnapshots]
      by_cases hji : j = i
      · rw [hji, update_self, update_self, isSome_some]
      · rw [update_of_ne (user_injective.ne hji), update_of_ne hji, hfollowed.snaps]
  | rename src dst => exact hfollowed
  | unmarked e op hop => rwa [births.after_of_writes hop]
  | marked e op hop =>
    rw [births.after_of_writes hop]
    exact hfollowed.of_same rfl rfl rfl rfl
  | lost e | unlink e => exact hfollowed.of_same rfl rfl rfl rfl

/-! ## Runs -/

/-- What can be watched: a tree within the limits of the walk, which the helper can list. -/
structure Watchable (io : HelperIo) (fs : Fs) (root : PathBuf) (dev : Nat) : Prop where
  wf : fs.WellFormed
  limits : WithinLimits io fs root dev
  lists : io.Lists fs
  dirsOnce : fs.DirsOnce

section

variable (hwatch : Watchable (io fs) fs root dev)

include hwatch

theorem Watchable.covers : Covers (io fs) fs root (Watched.start io root fs).ws :=
  preOpenTree_covers hwatch.wf hwatch.dirsOnce hwatch.lists hwatch.limits

theorem Watchable.onDevice : OnDevice root dev fs :=
  ⟨hwatch.wf, hwatch.limits.device⟩

theorem Watchable.followed :
    Followed (Watched.start io root fs).births (Watched.start io root fs).ws where
  dirs := hwatch.covers.dirs
  pending := hwatch.covers.pending
  index := hwatch.covers.index
  snaps := hwatch.covers.snapshots

theorem Watchable.snapshotTaken (hworks : (io fs).Works) {p : PathBuf} (hp : root <+: p)
    (hi : fs.lookup p = some i) (hreg : (fs.inode i).kind = .regular) :
    snapshotTaken (io fs) fs root i = true := by
  have hne : p ≠ root := by
    rintro rfl
    have hdir := hwatch.limits.isDir
    rw [Fs.IsDir, kindAt_of_lookup hi, hreg] at hdir
    cases hdir
  refine snapshotTaken_iff.mpr ⟨⟨p, ?_⟩, hreg, ?_⟩
  · exact openedAt_eq_some_iff.mpr ⟨hi, hp, hne, by rw [hreg]; decide, hworks.opens p⟩
  · rw [hworks.readPreImage (hwatch.limits.sizes p i hp hi hreg)]
    exact some_ne_none _

end

theorem Watched.next_eq_some (hnext : s.next h root op = some fs') :
    (∀ e ∈ op.dentries, root <+: e.dir ∧ s.fs.IsDir e.dir) ∧ op.perform h s.fs = some fs' := by
  unfold Watched.next at hnext
  split_ifs at hnext with hdirs
  rw [List.all_eq_true] at hdirs
  exact ⟨fun e he => of_decide_eq_true (hdirs e he), hnext⟩

/-- A step in directories the helper knows: what it does to the tree, what the handler leaves
behind, and that both stay in order. -/
structure Followable (root : PathBuf) (dev : Nat) (s : Watched) (op : KernelOp) (s' : Watched) :
    Prop where
  dirs : ∀ e ∈ op.dentries, root <+: e.dir ∧ s.fs.IsDir e.dir
  effect : op.Effect s.fs s'.fs
  reaction : op.Reaction s.fs s.ws s'.ws
  births : s'.births = s.births.after op
  tree : OnDevice root dev s'.fs
  followed : Followed s'.births s'.ws

theorem Watched.followable {s' : Watched} (hworks : ∀ fs, (io fs).Works) (hdev : dev ≠ 0)
    (htree : OnDevice root dev s.fs) (hfollowed : Followed s.births s.ws)
    (hknows : op.makes ≠ none → ∀ e ∈ op.dentries, s.KnowsDir e.dir)
    (hstep : s.step io h command root op = some s') :
    Followable root dev s op s' := by
  obtain ⟨fs', hnext, rfl⟩ := map_eq_some_iff.mp hstep
  obtain ⟨hdirs, hperform⟩ := Watched.next_eq_some hnext
  have heffect := KernelOp.effect_of_perform htree.wf (fun e he => (hdirs e he).2) hperform
  have htree' := htree.step hdirs heffect
  have hreaction : op.Reaction s.fs s.ws (op.react io h command s.fs fs' s.ws).1 :=
    KernelOp.reaction (hworks fs') hdev hfollowed htree' (fun e he => (hdirs e he).1) heffect hknows
  exact ⟨hdirs, heffect, hreaction, rfl, htree', hfollowed.react hreaction⟩

end Helper

/-! ## A concrete machine -/

/-- A machine on which everything works; what it shows is taken from the tree. -/
def HelperIo.sample (fs : Fs) : HelperIo where
  readDir := fun dir => some <| fs.entries.filterMap fun entry =>
    match entry.1.getLast? with
    | some (.normal name) => if entry.1 = dir ++ [.normal name] then some name else none
    | _ => none
  opens := fun _ => true
  reads := fun _ => true
  fdPath := fun i =>
    ((fs.entries.map Prod.fst).find? fun p => fs.lookup p = some i).map PathBuf.display
  userXattrs := fun _ => []
  stages := fun _ => true
  sends := fun _ => true
  now := 0

theorem HelperIo.sample_works (fs : Fs) : (sample fs).Works :=
  ⟨fun _ => rfl, fun _ => rfl, fun _ => rfl, fun _ => rfl⟩

theorem HelperIo.sample_lists (fs : Fs) : (sample fs).Lists fs := by
  intro d _
  refine ⟨_, rfl, ?_⟩
  intro name hname
  obtain ⟨i, hi⟩ := ne_none_iff_exists'.mp (mt node_eq_none_iff.mpr
    (mt kindAt_eq_none_iff.mpr hname))
  refine mem_filterMap.mpr ⟨_, mem_entries_of_lookup hi, ?_⟩
  simp

/-- A test for trees that can be watched. -/
def checkWatchable (fs : Fs) (root : PathBuf) (dev : Nat) : Bool :=
  fs.checkWellFormed && decide (fs.entries.map Prod.snd).Nodup && decide (fs.IsDir root) &&
    (fs.entries.all fun entry => decide (root <+: entry.1 →
      entry.1.length ≤ root.length + preOpenTreeDepthLimit ∧
        (fs.inode entry.2).content.length ≤ maxPreImageBytes ∧ entry.2.dev = dev)) &&
    !(preOpenTree (sample fs) fs root).hitCap && decide (dev ≠ 0)

theorem watchable_of_check {fs : Fs} {root : PathBuf} {dev : Nat}
    (hcheck : checkWatchable fs root dev = true) :
    Watchable (sample fs) fs root dev ∧ fs.SingleNamed := by
  simp only [checkWatchable, and_eq_true, decide_eq_true_eq, List.all_eq_true,
    not_eq_true'] at hcheck
  obtain ⟨⟨⟨⟨⟨hwf, hnodup⟩, hdir⟩, hentries⟩, hcap⟩, hdev⟩ := hcheck
  have hsingle := singleNamed_of_nodup hnodup
  refine ⟨⟨wellFormed_of_check hwf, ⟨hdir, ?_, hcap, ?_, ?_, hdev⟩, sample_lists fs,
    fun p q i hp hq _ => hsingle p q i hp hq⟩, hsingle⟩
  · intro p hp hkind
    obtain ⟨i, hi⟩ := ne_none_iff_exists'.mp (mt node_eq_none_iff.mpr
      (mt kindAt_eq_none_iff.mpr hkind))
    exact (hentries _ (mem_entries_of_lookup hi) hp).1
  · exact fun p i hp hi _ => (hentries _ (mem_entries_of_lookup hi) hp).2.1
  · exact fun p i hp hi => (hentries _ (mem_entries_of_lookup hi) hp).2.2

/-- A name, from its text. -/
def Dentry.of (dir name : String) : Dentry := ⟨PathBuf.ofString dir, name⟩

end ShitUndo
