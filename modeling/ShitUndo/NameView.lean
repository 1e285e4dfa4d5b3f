import Mathlib.Algebra.GroupWithZero.Nat
import ShitUndo.OpFrames

/-!
# The names an op leaves

What the orchestrator's checks read of a tree is whether a name is there, whether it is a
directory, and which inode it is. `NameView` is that much of a tree, and `NameView.after` is what
an op makes of it when its calls succeed, worked out from the op alone.

* `after_sees`: the executor leaves the names `after` says.
-/

namespace ShitUndo

open List PathBuf Fs PathTree Function Host

variable {h : Host} {fs fs' : Fs} {p q : PathBuf} {i : InodeRef} {op : InverseOp}

/-! ## Reading a mode -/

theorem and_ifmt_mask (a : Nat) {r : Nat} (hr : r < 2 ^ 12) :
    (2 ^ 12 * a + r) &&& 2 ^ 12 * 15 = 2 ^ 12 * (a &&& 15) := by
  apply Nat.eq_of_testBit_eq
  intro i
  have hmask := Nat.testBit_two_pow_mul_add 15 (b := 0) (i := 12) (by decide) i
  have hand := Nat.testBit_two_pow_mul_add (a &&& 15) (b := 0) (i := 12) (by decide) i
  rw [Nat.add_zero] at hmask hand
  rw [Nat.testBit_and, Nat.testBit_two_pow_mul_add a hr, hmask, hand]
  split_ifs <;> simp

/-- The kind `lstat` reports is the kind of the inode. -/
theorem Inode.fromMode_stat (os : Os) (n : Inode) :
    FileKind.fromMode (n.stat os).mode = some n.kind := by
  have hbits : (n.kind.ifmt + n.perm % 0o10000) &&& 0o170000 = n.kind.ifmt := by
    have hr : n.perm % 0o10000 < 2 ^ 12 := Nat.mod_lt _ (by decide)
    cases n.kind with
    | regular => exact and_ifmt_mask 8 hr
    | directory => exact and_ifmt_mask 4 hr
    | symlink => exact and_ifmt_mask 10 hr
    | fifo => exact and_ifmt_mask 1 hr
    | socket => exact and_ifmt_mask 12 hr
    | blockDevice => exact and_ifmt_mask 6 hr
    | charDevice => exact and_ifmt_mask 2 hr
  unfold FileKind.fromMode
  simp only [stat, hbits]
  cases n.kind <;> rfl

/-! ## Names -/

/-- An entry as the checks read it. The inode of one that the undo has made itself is not known:
the kernel numbers it. -/
structure SeenEntry where
  inode : Option InodeRef
  isDir : Bool
deriving DecidableEq

/-- The names of a tree. -/
abbrev NameView := Tree Component SeenEntry

/-- The names of a tree before anything is done. -/
def Fs.names (fs : Fs) : NameView :=
  fun p => (fs.lookup p).map fun i => ⟨some i, decide ((fs.inode i).kind = .directory)⟩

namespace NameView

/-- A new entry. -/
def make (p : PathBuf) (isDir : Bool) (v : NameView) : NameView :=
  update v p (some ⟨none, isDir⟩)

/-- The parents of `p` are made where they are missing. -/
def withParents (p : PathBuf) (v : NameView) : NameView :=
  match p.parent with
  | none => v
  | some parent =>
    if (v parent).isSome then v
    else fun q => if q ≠ [] ∧ q <+: parent ∧ (v q).isNone then some ⟨none, true⟩ else v q

/-- What an op that succeeds makes of the names. -/
def after (v : NameView) : InverseOp → NameView
  | .restoreContent _ path _ => (v.withParents path).make path false
  | .recreatePath path kind _ =>
    -- a directory that is already there stays
    if (v path).isSome then v.withParents path
    else (v.withParents path).make path (decide (kind = .directory))
  | .unlink path => if (v path).any SeenEntry.isDir then cut path v else update v path none
  | .rename src dst => move src dst v
  | .createSymlink _ path => v.make path false
  | .createHardlink source target => update v target (v source)
  | _ => v

/-- Everything above the name is there. -/
def hangs (v : NameView) (p : PathBuf) : Bool :=
  p.inits.all fun q => q = [] ∨ (v q).isSome

/-- The names tell how the op's check comes out and what the op does: the inode that
`RestoreFlags` compares is known, and the names the op goes by are not below a missing one (which
happens in no tree). -/
def settles (v : NameView) : InverseOp → Bool
  | .restoreFlags _ path _ => (v path).all fun e => e.inode.isSome
  | .restoreContent _ path _ | .recreatePath path _ _ =>
    path.parent.all fun parent => (v parent).isNone || v.hangs parent
  | .rename src _ => (v src).isNone || v.hangs src
  | _ => true

/-- The entry is what the checks would read of the inode. -/
def Shows (fs : Fs) (e : SeenEntry) (i : InodeRef) : Prop :=
  (∀ k, e.inode = some k → k = i) ∧ (e.isDir = true ↔ (fs.inode i).kind = .directory)

/-- The names are those of the tree. -/
def Sees (v : NameView) (fs : Fs) : Prop :=
  ∀ q, Option.Rel (Shows fs) (v q) (fs.lookup q)

theorem sees_names (fs : Fs) : fs.names.Sees fs := by
  intro q
  unfold Fs.names
  cases fs.lookup q with
  | none => exact .none
  | some i => exact .some ⟨fun k hk => (Option.some.inj hk).symm, by simp⟩

variable {v : NameView}

/-- Only the kind of the inode matters. -/
theorem rel_of_kind {e : Option SeenEntry} {o : Option InodeRef}
    (hrel : Option.Rel (Shows fs) e o)
    (hkind : ∀ i, o = some i → (fs'.inode i).kind = (fs.inode i).kind) :
    Option.Rel (Shows fs') e o := by
  cases hrel with
  | none => exact .none
  | some hshow =>
    refine .some ⟨hshow.1, ?_⟩
    rw [hkind _ rfl]
    exact hshow.2

namespace Sees

theorem isSome_eq (hv : v.Sees fs) (q : PathBuf) : (v q).isSome = (fs.lookup q).isSome := by
  have hq := hv q
  generalize v q = e at hq ⊢
  generalize fs.lookup q = o at hq ⊢
  cases hq <;> rfl

theorem free_iff (hv : v.Sees fs) (q : PathBuf) : v q = none ↔ fs.lookup q = none := by
  rw [← Option.not_isSome_iff_eq_none, ← Option.not_isSome_iff_eq_none, hv.isSome_eq]

theorem isDir_iff (hv : v.Sees fs) (q : PathBuf) :
    (v q).any SeenEntry.isDir = true ↔ fs.IsDir q := by
  have hq := hv q
  rw [Fs.IsDir, kindAt, node]
  generalize v q = e at hq ⊢
  generalize fs.lookup q = o at hq ⊢
  cases hq with
  | none => simp
  | some hshow => simpa using hshow.2

/-- Changes of inodes that keep their kind do not show. -/
theorem of_kinds (hv : v.Sees fs) (hlookup : fs'.lookup = fs.lookup)
    (hkind : ∀ i, (fs'.inode i).kind = (fs.inode i).kind) : v.Sees fs' := by
  intro q
  rw [hlookup]
  exact rel_of_kind (hv q) fun i _ => hkind i

theorem modifyInode (hv : v.Sees fs) {f : Inode → Inode} (hf : ∀ n, (f n).kind = n.kind) :
    v.Sees (fs.modifyInode i f) := by
  refine hv.of_kinds rfl ?_
  intro k
  by_cases hki : k = i
  · subst hki
    rw [inode_modifyInode_self, hf]
  · rw [inode_modifyInode_of_ne f hki]

theorem attributed (hv : v.Sees fs) (hattr : Attributed p fs fs') : v.Sees fs' := by
  rcases hattr with rfl | ⟨j, f, -, hf, rfl⟩
  · exact hv
  · exact hv.modifyInode fun n => (hf n).1

theorem create (hv : v.Sees fs) {n : Inode} {isDir : Bool}
    (hdir : isDir = true ↔ n.kind = .directory) : (v.make p isDir).Sees (fs.create h p n) := by
  intro q
  rw [make, lookup_create]
  by_cases hqp : q = p
  · subst hqp
    rw [update_self, update_self]
    refine .some ⟨?_, ?_⟩
    · intro k hk
      cases hk
    · rw [inode_create_fresh]
      exact hdir
  rw [update_of_ne hqp, update_of_ne hqp]
  refine rel_of_kind (hv q) ?_
  intro i hi
  have hne : i ≠ h.freshInode fs := by
    rintro rfl
    exact h.freshInode_unused fs q hi
  exact congrArg Inode.kind (update_of_ne hne _ _)

end Sees

end NameView

/-! ## Parents -/

theorem lookup_of_resolve (hi : fs.resolve p = some i) : fs.lookup p ≠ none := by
  intro hnone
  simp [resolve, follow, hnone] at hi

theorem mem_ancestors {parent : PathBuf} :
    q ∈ parent.inits.filter (fun q => q ≠ []) ↔ q <+: parent ∧ q ≠ [] := by
  simp

/-- `create_dir_all` leaves something at every name on its way. -/
theorem createDirs_present {paths : List PathBuf} (hok : createDirs h paths fs = (.ok (), fs'))
    (hq : q ∈ paths) : fs'.lookup q ≠ none := by
  induction paths generalizing fs with
  | nil => cases hq
  | cons p rest ih =>
    have hkeep : ∀ {u : Fs}, createDirs h rest u = (.ok (), fs') → u.lookup p ≠ none →
        fs'.lookup p ≠ none := by
      intro u hrest hp
      obtain ⟨i, hi⟩ := Option.ne_none_iff_exists'.mp hp
      have hadd := createDirs_added h rest u
      rw [hrest] at hadd
      rw [(hadd.kept p i hi).1]
      exact Option.some_ne_none i
    rw [createDirs] at hok
    split at hok
    · rename_i i hi
      split at hok
      · rcases mem_cons.mp hq with rfl | hq
        · exact hkeep hok (lookup_of_resolve hi)
        · exact ih hok hq
      · cases hok
    · split at hok
      · cases hok
      rename_i fs₁ hmade
      rcases mem_cons.mp hq with rfl | hq
      · refine hkeep hok ?_
        have hact := (attempt_eq_ok hmade).2
        split at hact
        · cases hact
        split at hact
        · cases hact
        cases hact
        rw [lookup_create_self]
        exact Option.some_ne_none _
      · exact ih hok hq

/-- Where every name on its way is there, `create_dir_all` makes nothing. -/
theorem createDirs_of_present {paths : List PathBuf} (hok : createDirs h paths fs = (.ok (), fs'))
    (hall : ∀ q ∈ paths, fs.lookup q ≠ none) : fs' = fs := by
  induction paths with
  | nil =>
    cases hok
    rfl
  | cons p rest ih =>
    rw [createDirs] at hok
    split at hok
    · split at hok
      · exact ih hok fun q hq => hall q (mem_cons_of_mem p hq)
      · cases hok
    · -- a link that leads nowhere
      split at hok
      · cases hok
      rename_i hmade
      have hact := (attempt_eq_ok hmade).2
      split at hact
      · cases hact
      · rename_i hnone
        exact absurd hnone (hall p mem_cons_self)

theorem ensureParent_ok {parent : PathBuf} (hok : ensureParent h parent fs = (.ok (), fs')) :
    (fs.resolve parent).isSome = true ∧ fs' = fs ∨ createDirAll h parent fs = (.ok (), fs') := by
  unfold ensureParent at hok
  split_ifs at hok with hthere
  · cases hok
    exact .inl ⟨hthere, rfl⟩
  · split at hok
    · rename_i hmade
      cases hok
      exact .inr hmade
    · cases hok

namespace NameView

variable {v : NameView}

theorem present_of_hangs (hhangs : v.hangs p = true) (hq : q <+: p) (hne : q ≠ []) :
    v q ≠ none := by
  have hall := all_eq_true.mp hhangs q ((mem_inits q p).mpr hq)
  simp only [hne, false_or, decide_eq_true_eq] at hall
  exact Option.isSome_iff_ne_none.mp hall

theorem Sees.withParents (hv : v.Sees fs) {parent : PathBuf} (hparent : p.parent = some parent)
    (hhangs : ((v parent).isNone || v.hangs parent) = true)
    (hok : ensureParent h parent fs = (.ok (), fs')) : (v.withParents p).Sees fs' := by
  rw [NameView.withParents, hparent]
  dsimp only
  split_ifs with hthere
  · -- the parent has a name, and so has everything above it
    have hall : ∀ q ∈ parent.inits.filter (fun q => q ≠ []), fs.lookup q ≠ none := by
      intro q hq
      obtain ⟨hq, hne⟩ := mem_ancestors.mp hq
      have hhangs' : v.hangs parent = true := by
        simpa [Option.isNone_eq_false_iff.mpr hthere] using hhangs
      exact fun hnone => present_of_hangs hhangs' hq hne ((hv.free_iff q).mpr hnone)
    rcases ensureParent_ok hok with ⟨-, rfl⟩ | hmade
    · exact hv
    · rw [createDirs_of_present hmade hall]
      exact hv
  have hfree : fs.lookup parent = none := by
    rw [← hv.free_iff]
    simpa using hthere
  have hmade : createDirAll h parent fs = (.ok (), fs') := by
    rcases ensureParent_ok hok with ⟨hresolves, -⟩ | hmade
    · obtain ⟨i, hi⟩ := Option.isSome_iff_exists.mp hresolves
      exact absurd hfree (lookup_of_resolve hi)
    · exact hmade
  have hadd := createDirs_added h (parent.inits.filter (fun q => q ≠ [])) fs
  rw [show createDirs h _ fs = (.ok (), fs') from hmade] at hadd
  dsimp only at hadd
  intro q
  beta_reduce
  have hq := hv q
  cases hi : fs.lookup q with
  | some i =>
    obtain ⟨hi', hsame⟩ := hadd.kept q i hi
    have hsome : (v q).isNone = false := by
      rw [Option.isNone_eq_false_iff, hv.isSome_eq, hi]
      rfl
    rw [hi] at hq
    simp only [hsome, Bool.false_eq_true, and_false, if_false, hi']
    refine rel_of_kind hq ?_
    intro k hk
    cases hk
    rw [hsame]
  | none =>
    have hnone : v q = none := (hv.free_iff q).mpr hi
    by_cases hway : q ≠ [] ∧ q <+: parent
    · rw [if_pos ⟨hway.1, hway.2, by rw [hnone]; rfl⟩]
      have hpresent := createDirs_present hmade (mem_ancestors.mpr ⟨hway.2, hway.1⟩)
      obtain ⟨j, hj⟩ := Option.ne_none_iff_exists'.mp hpresent
      rw [hj]
      rcases hadd.added q j hj with hold | ⟨-, -, -, hdir⟩
      · rw [hi] at hold
        cases hold
      · refine .some ⟨?_, by simp [hdir]⟩
        intro k hk
        cases hk
    · rw [if_neg fun hall => hway ⟨hall.1, hall.2.1⟩, hnone]
      cases hj : fs'.lookup q with
      | none => exact .none
      | some j =>
        rcases hadd.added q j hj with hold | ⟨hmem, -⟩
        · rw [hi] at hold
          cases hold
        · obtain ⟨hq, hne⟩ := mem_ancestors.mp hmem
          exact absurd ⟨hne, hq⟩ hway

end NameView

/-! ## Ops -/

/-- The privileged helper does what its two system calls do. -/
structure Host.HelperCalls (h : Host) : Prop where
  chown : ∀ p uid gid fs fs', h.routerChown p uid gid fs = .applied fs' → Attributed p fs fs'
  mknod : ∀ p mode fs fs', h.routerMknod p mode fs = .applied fs' →
    ∃ n : Inode, n.kind ≠ .directory ∧ fs' = fs.create h p n

theorem Host.sample_helperCalls : sample.HelperCalls where
  chown := fun _ _ _ _ _ hafter => by cases hafter
  mknod := fun _ _ _ _ hafter => by cases hafter

theorem stepOutcome_applied {step : Step} (hok : stepOutcome step = (.applied, fs')) :
    step = (.ok (), fs') := by
  rcases step with ⟨_ | _, _⟩ <;> cases hok
  rfl

theorem applyRename_moved {src dst : PathBuf} (hok : applyRename h src dst fs = (.applied, fs'))
    (hfree : fs.lookup dst = none) :
    fs.lookup src ≠ none ∧ dst ≠ [] ∧ ¬ src <+: dst ∧
      fs' = { fs with entries := fs.entries.move src dst } := by
  unfold applyRename at hok
  split at hok
  · rename_i hrename
    cases hok
    have hact := (attempt_eq_ok hrename).2
    split at hact
    · cases hact
    rename_i i hi
    split at hact
    · cases hact
    rename_i hparent
    have hnil : dst ≠ [] := by
      rintro rfl
      cases hparent
    split at hact
    · cases hact
    rename_i hnested
    rw [hfree] at hact
    cases hact
    refine ⟨by simp [hi], hnil, ?_, rfl⟩
    intro hsd
    refine hnested ⟨hsd, ?_⟩
    rintro rfl
    rw [hi] at hfree
    cases hfree
  · cases hok

namespace NameView

variable {v : NameView}

theorem Sees.unlink (hv : v.Sees fs) (hok : unlinkInner h p fs = (.ok (), fs')) :
    (v.after (.unlink p)).Sees fs' := by
  rcases unlinkInner_cases h p fs with ⟨e, u, heq, -⟩ | ⟨-, u, heq, hinode, hlookup⟩
  · rw [heq] at hok
    cases hok
  rw [heq] at hok
  cases hok
  intro q
  refine rel_of_kind (?_ : Option.Rel (Shows fs) _ _) fun i _ => by rw [hinode]
  rw [hlookup, after]
  by_cases hdir : fs.IsDir p
  · rw [if_pos hdir, if_pos ((hv.isDir_iff p).mpr hdir), cut, cut]
    split_ifs
    · exact .none
    · exact hv q
  · rw [if_neg hdir, if_neg (mt (hv.isDir_iff p).mp hdir), update_apply, update_apply]
    split_ifs
    · exact .none
    · exact hv q

theorem Sees.rename (hv : v.Sees fs) {src dst : PathBuf}
    (hsure : v.settles (.rename src dst) = true) (hfree : fs.lookup dst = none)
    (hok : applyRename h src dst fs = (.applied, fs')) :
    (v.after (.rename src dst)).Sees fs' := by
  obtain ⟨hsrc, hnil, hsd, rfl⟩ := applyRename_moved hok hfree
  have hhangs : v.hangs src = true := by
    have hthere : (v src).isNone = false := by
      rw [Option.isNone_eq_false_iff, hv.isSome_eq]
      exact Option.isSome_iff_ne_none.mpr hsrc
    simpa [settles, hthere] using hsure
  -- the free destination is not above the source
  have hds : ¬ dst <+: src := fun hle =>
    present_of_hangs hhangs hle hnil ((hv.free_iff dst).mpr hfree)
  intro q
  refine rel_of_kind (?_ : Option.Rel (Shows fs) _ _) fun i _ => rfl
  rw [lookup_move hsd hds, after, move, move]
  split_ifs
  · exact hv _
  · exact .none
  · exact hv q

theorem Sees.createSymlink (hv : v.Sees fs) {target : String}
    (hok : applyCreateSymlink h target p fs = (.applied, fs')) :
    (v.after (.createSymlink target p)).Sees fs' := by
  unfold applyCreateSymlink at hok
  dsimp only at hok
  split at hok
  · rename_i hmade
    cases hok
    have hact := (attempt_eq_ok hmade).2
    split at hact
    · cases hact
    · cases hact
    · cases hact
      exact hv.create (by simp [newInode])
  · cases hok

theorem Sees.createHardlink (hv : v.Sees fs) {source target : PathBuf}
    (hok : applyCreateHardlink h source target fs = (.applied, fs')) :
    (v.after (.createHardlink source target)).Sees fs' := by
  unfold applyCreateHardlink at hok
  dsimp only at hok
  split at hok
  · rename_i hmade
    cases hok
    have hact := (attempt_eq_ok hmade).2
    split at hact
    · cases hact
    · cases hact
    · cases hact
    rename_i i hi _ _
    split at hact
    · cases hact
    cases hact
    intro q
    refine rel_of_kind (?_ : Option.Rel (Shows fs) _ _) fun i _ => rfl
    have hlookup : (fs.link target i).lookup = update fs.lookup target (some i) :=
      PathTree.Entries.get_put target i fs.entries
    rw [hlookup, after, update_apply, update_apply]
    split_ifs
    · rw [← hi]
      exact hv source
    · exact hv q
  · cases hok

theorem Sees.restoreContent (hv : v.Sees fs) {inode : InodeRef} {blob : BlobHash}
    (hsure : v.settles (.restoreContent inode p blob) = true)
    (hok : restoreContentInner h p blob fs = (.ok (), fs')) :
    (v.after (.restoreContent inode p blob)).Sees fs' := by
  unfold restoreContentInner at hok
  split at hok
  · cases hok
  rename_i bytes _
  split at hok
  · cases hok
  rename_i parent hparent
  split at hok
  · cases hok
  rename_i fs₁ hmade
  rw [settles, hparent, Option.all_some] at hsure
  have hv₁ := hv.withParents hparent hsure hmade
  rcases placeContent_cases h parent p bytes fs₁ with ⟨e, hfailed⟩ | ⟨-, hdone⟩
  · rw [hfailed] at hok
    cases hok
  · rw [hdone] at hok
    cases hok
    exact hv₁.create (by simp [newInode])

theorem Sees.recreateIn (hv : v.Sees fs) {kind : FileKind} {mode : Nat}
    (hpre : fs.lookup p = none ∨ kind = .directory ∧ fs.IsDir p)
    (hok : recreateIn h p kind mode fs = (.ok (), fs')) :
    (if (v p).isSome then v else v.make p (decide (kind = .directory))).Sees fs' := by
  have hattr : ∀ {u : Fs} {w : NameView} {perm : Nat}, w.Sees u →
      chmodRecreated h p perm u = (.ok (), fs') → w.Sees fs' := by
    intro u w perm hw hdone
    have hchmod := chmodRecreated_attributed h p perm u
    rw [hdone] at hchmod
    exact hw.attributed hchmod
  have hfree : ∀ {d : Bool}, fs.lookup p = none → (if (v p).isSome then v else v.make p d) =
      v.make p d := by
    intro d hnone
    rw [(hv.free_iff p).mpr hnone]
    rfl
  unfold ShitUndo.recreateIn at hok
  split at hok
  · -- a file
    split at hok
    · cases hok
    rename_i fs₁ hopen
    have hnone : fs.lookup p = none := by
      rcases hpre with hnone | ⟨hkind, -⟩
      · exact hnone
      · cases hkind
    rw [hfree hnone]
    rcases openCreate_cases hopen with ⟨q, hlead, rfl⟩ | ⟨i, hi, -, -⟩
    · obtain rfl : p = q := by
        have hname := hlead.1
        rw [followName_of_free hnone] at hname
        exact Option.some.inj hname
      exact hattr (hv.create (by simp [newInode])) hok
    · exact absurd hnone (lookup_of_resolve hi)
  · -- a directory
    split at hok
    · rename_i fs₁ hmkdir
      have hact := (attempt_eq_ok hmkdir).2
      split at hact
      · cases hact
      rename_i hnone
      split at hact
      · cases hact
      cases hact
      rw [hfree hnone]
      exact hattr (hv.create (by simp [newInode])) hok
    · split at hok
      · rename_i hthere
        have hsome : (v p).isSome = true := by
          rw [hv.isSome_eq]
          rw [node] at hthere
          cases hi : fs.lookup p with
          | none => simp [hi] at hthere
          | some i => rfl
        rw [if_pos hsome]
        exact hattr hv hok
      · cases hok
  · cases hok
  · cases hok

theorem withParents_self (v : NameView) (p : PathBuf) : v.withParents p p = v p := by
  unfold withParents
  cases hparent : p.parent with
  | none => rfl
  | some parent =>
    dsimp only
    split_ifs
    · rfl
    · refine if_neg ?_
      intro hway
      exact (above_of_parent hparent hway.2.1).2 rfl

theorem Sees.recreatePath (hv : v.Sees fs) (hhelper : h.HelperCalls) {kind : FileKind} {mode : Nat}
    (hsure : v.settles (.recreatePath p kind mode) = true)
    (hpre : fs.lookup p = none ∨ kind = .directory ∧ fs.IsDir p)
    (hok : applyRecreatePath h p kind mode fs = (.applied, fs')) :
    (v.after (.recreatePath p kind mode)).Sees fs' := by
  -- the tree with the parents made, and the entry itself as before
  have hparents : ∀ {fs₁ : Fs}, (v.withParents p).Sees fs₁ →
      fs₁.lookup p = none ∨ kind = .directory ∧ fs₁.IsDir p := by
    intro fs₁ hv₁
    rw [← hv₁.free_iff, ← hv₁.isDir_iff, withParents_self, hv.free_iff, hv.isDir_iff]
    exact hpre
  have hshape : v.after (.recreatePath p kind mode) =
      if (v.withParents p p).isSome then v.withParents p
      else (v.withParents p).make p (decide (kind = .directory)) := by
    rw [withParents_self]
    rfl
  rw [hshape]
  have hmknod : ∀ {fs₁ : Fs}, (v.withParents p).Sees fs₁ → kind ≠ .directory →
      h.routerMknod p mode fs₁ = .applied fs' →
      (if (v.withParents p p).isSome then v.withParents p
        else (v.withParents p).make p (decide (kind = .directory))).Sees fs' := by
    intro fs₁ hv₁ hkind hmade
    obtain ⟨n, hn, rfl⟩ := hhelper.mknod p mode fs₁ fs' hmade
    have hnone : fs₁.lookup p = none := by
      rcases hparents hv₁ with hnone | ⟨hdir, -⟩
      · exact hnone
      · exact absurd hdir hkind
    rw [(hv₁.free_iff p).mpr hnone]
    exact hv₁.create (by simp [hkind, hn])
  unfold applyRecreatePath at hok
  split_ifs at hok with hspecial
  · have hkind : kind ≠ .directory := by
      rcases hspecial with rfl | rfl <;> decide
    dsimp only at hok
    split at hok
    · cases hok
    rename_i fs₁ hmade
    have hv₁ : (v.withParents p).Sees fs₁ := by
      cases hparent : p.parent with
      | none =>
        rw [hparent] at hmade
        cases hmade
        rw [NameView.withParents, hparent]
        exact hv
      | some parent =>
        rw [hparent] at hmade
        rw [settles, hparent, Option.all_some] at hsure
        exact hv.withParents hparent hsure hmade
    split at hok
    · rename_i after hafter
      cases hok
      exact hmknod hv₁ hkind hafter
    · cases hok
    · cases hok
    · cases hok
    · cases hok
  · have hinner := stepOutcome_applied hok
    unfold recreatePathInner at hinner
    split at hinner
    · rename_i hparent
      have hv₁ : (v.withParents p).Sees fs := by
        rw [NameView.withParents, hparent]
        exact hv
      exact hv₁.recreateIn (hparents hv₁) hinner
    · rename_i parent hparent
      split at hinner
      · cases hinner
      rename_i fs₁ hmade
      rw [settles, hparent, Option.all_some] at hsure
      have hv₁ := hv.withParents hparent hsure hmade
      exact hv₁.recreateIn (hparents hv₁) hinner

theorem Sees.fileExtend (hv : v.Sees fs) {size : Nat}
    (hok : applyFileExtend h p size fs = (.applied, fs')) : v.Sees fs' := by
  unfold applyFileExtend at hok
  split at hok
  · cases hok
  dsimp only at hok
  split at hok
  · cases hok
  split at hok
  · cases hok
  split at hok
  · cases hok
  rename_i hcut
  cases hok
  have hact := (attempt_eq_ok hcut).2
  split at hact
  · cases hact
  cases hact
  exact hv.modifyInode fun n => rfl

theorem free_of_recreate {kind : FileKind} {mode : Nat}
    (hpre : preconditionConflict (fs.probe h) (.recreatePath p kind mode) = none) :
    fs.lookup p = none ∨ kind = .directory ∧ fs.IsDir p := by
  simp only [preconditionConflict, probe] at hpre
  cases hi : fs.lookup p with
  | none => exact .inl rfl
  | some i =>
    rw [hi, Option.map_some] at hpre
    dsimp only at hpre
    split_ifs at hpre with hdir
    refine .inr ⟨hdir.1, ?_⟩
    rw [Inode.fromMode_stat] at hdir
    rw [Fs.IsDir, kindAt_of_lookup hi]
    exact hdir.2

/-- **What the executor leaves.** An op that was dispatched on its own check and succeeds leaves
the names that `after` works out. -/
theorem after_sees (hhelper : h.HelperCalls) (hv : v.Sees fs) (hsure : v.settles op = true)
    (hpre : preconditionConflict (fs.probe h) op = none)
    (hok : applyFileOp h op fs = (.applied, fs')) : (v.after op).Sees fs' := by
  cases op with
  | restoreContent inode path blob => exact hv.restoreContent hsure (stepOutcome_applied hok)
  | restoreMetadata inode path target =>
    have hdone : (applyRestoreMetadata h path target fs).2 = fs' := by
      rw [show applyRestoreMetadata h path target fs = _ from hok]
    rcases applyRestoreMetadata_cases h path target fs with hattr | ⟨u, w, h₁, hchown, h₂⟩
    · rw [hdone] at hattr
      exact hv.attributed hattr
    · rw [hdone] at h₂
      exact ((hv.attributed h₁).attributed (hhelper.chown _ _ _ _ _ hchown)).attributed h₂
  | restoreFlags inode path flags =>
    have hattr := restoreFlagsValue_attributed h path flags fs
    rw [stepOutcome_applied hok] at hattr
    exact hv.attributed hattr
  | unlink path => exact hv.unlink (stepOutcome_applied hok)
  | recreatePath path kind mode => exact hv.recreatePath hhelper hsure (free_of_recreate hpre) hok
  | rename src dst => exact hv.rename hsure (free_of_precondition hpre) hok
  | createSymlink target path => exact hv.createSymlink hok
  | createHardlink source target => exact hv.createHardlink hok
  | fileExtend path truncateTo => exact hv.fileExtend hok
  | _ => cases hok

end NameView

end ShitUndo
