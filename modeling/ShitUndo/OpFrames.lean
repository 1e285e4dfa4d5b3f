import ShitUndo.Effects

/-!
# What an op can reach

The frame of every file op, on any machine and whatever fails half-way.

* `Reaches`: the names an op may change besides its own path. A rename and a recursive unlink act
  on subtrees, a change in place on every name of the file.
-/

namespace ShitUndo

open List Option Function Fs PathTree.Entries PathTree Host

variable {h : Host} {fs fs' : Fs} {p q : PathBuf} {i : InodeRef} {n : Inode} {src dst : PathBuf}
  {op : InverseOp} {reach : PathBuf → Prop}

/-! ## Frames -/

/-- The name `q` was made as a directory to hold `p`. -/
def MadeAbove (p : PathBuf) (fs fs' : Fs) (q : PathBuf) : Prop :=
  fs.node q = none ∧ fs'.IsDir q ∧ q <+: p ∧ q ≠ p

/-- From `fs` to `fs'` only `p`, the names in `reach` and new parents of `p` change, and no name
disappears. -/
structure Framed (p : PathBuf) (reach : PathBuf → Prop) (fs fs' : Fs) : Prop where
  node : ∀ q, fs'.node q = fs.node q ∨ q = p ∨ reach q ∨ MadeAbove p fs fs' q
  names : ∀ q, fs.lookup q ≠ none → fs'.lookup q ≠ none

/-- `q` is a name of the file that `p` leads to. -/
def SharesFile (fs : Fs) (p q : PathBuf) : Prop :=
  ∃ i, fs.resolve p = some i ∧ fs.lookup q = some i

namespace Framed

variable {reach' : PathBuf → Prop}

theorem refl (p : PathBuf) (reach : PathBuf → Prop) (fs : Fs) : Framed p reach fs fs :=
  ⟨fun _ => .inl rfl, fun _ hq => hq⟩

theorem trans {u : Fs} (hu : Framed p reach fs fs') (hv : Framed p reach fs' u) :
    Framed p reach fs u where
  node := by
    intro q
    rcases hv.node q with hsame | heq | hreach | ⟨hnone, hdir, hq⟩
    · rcases hu.node q with hsame' | heq | hreach | ⟨hnone, hdir, hq⟩
      · exact .inl (hsame.trans hsame')
      · exact .inr (.inl heq)
      · exact .inr (.inr (.inl hreach))
      -- a directory made earlier stays
      refine .inr (.inr (.inr ⟨hnone, ?_, hq⟩))
      unfold Fs.IsDir kindAt
      rw [hsame]
      exact hdir
    · exact .inr (.inl heq)
    · exact .inr (.inr (.inl hreach))
    · refine .inr (.inr (.inr ⟨?_, hdir, hq⟩))
      rw [node_eq_none_iff] at hnone ⊢
      by_contra hne
      exact hu.names q hne hnone
  names := fun q hq => hv.names q (hu.names q hq)

theorem mono (hu : Framed p reach fs fs') (hle : ∀ q, reach q → reach' q) :
    Framed p reach' fs fs' where
  node := by
    intro q
    rcases hu.node q with hsame | heq | hreach | hmade
    · exact .inl hsame
    · exact .inr (.inl heq)
    · exact .inr (.inr (.inl (hle q hreach)))
    · exact .inr (.inr (.inr hmade))
  names := hu.names

theorem of_update {r : PathBuf} (hr : r = p ∨ reach r)
    (hnode : ∀ q, q ≠ r → fs'.node q = fs.node q) {j : InodeRef}
    (hlookup : fs'.lookup = update fs.lookup r (some j)) : Framed p reach fs fs' where
  node := by
    intro q
    by_cases hq : q = r
    · subst hq
      exact .inr (hr.imp_right .inl)
    · exact .inl (hnode q hq)
  names := by
    intro q hq
    rw [hlookup, update_apply]
    split_ifs
    · exact some_ne_none j
    · exact hq

theorem create (h : Host) {r : PathBuf} (hr : r = p ∨ reach r) (n : Inode) (fs : Fs) :
    Framed p reach fs (fs.create h r n) := by
  refine of_update hr ?_ (lookup_create h r n fs)
  intro q hq
  rw [node_create, update_of_ne hq]

theorem rewrite (hi : fs.resolve p = some i) (hreach : ∀ q, SharesFile fs p q → q = p ∨ reach q)
    (f : Inode → Inode) : Framed p reach fs (fs.modifyInode i f) where
  node := by
    intro q
    by_cases hq : fs.lookup q = some i
    · rcases hreach q ⟨i, hi, hq⟩ with heq | hreach
      · exact .inr (.inl heq)
      · exact .inr (.inr (.inl hreach))
    left
    unfold Fs.node
    rw [lookup_modifyInode]
    cases hk : fs.lookup q with
    | none => rfl
    | some k =>
      rw [map_some, map_some, inode_modifyInode_of_ne]
      rintro rfl
      exact hq hk
  names := fun q hq => hq

theorem attributed (hattr : Attributed p fs fs')
    (hreach : ∀ q, SharesFile fs p q → q = p ∨ reach q) : Framed p reach fs fs' := by
  rcases hattr with rfl | ⟨j, f, hj, -, rfl⟩
  · exact .refl p reach fs'
  · exact .rewrite hj hreach f

end Framed

theorem Attributed.lookup_eq (hattr : Attributed p fs fs') : fs'.lookup = fs.lookup := by
  rcases hattr with rfl | ⟨j, f, -, -, rfl⟩
  · rfl
  · rfl

/-! ## Parents made on the way -/

/-- `fs'` is `fs` with new directories at some of the names in `within`. -/
structure DirsAdded (within : PathBuf → Prop) (fs fs' : Fs) : Prop where
  kept : ∀ q i, fs.lookup q = some i → fs'.lookup q = some i ∧ fs'.inode i = fs.inode i
  added : ∀ q i, fs'.lookup q = some i → fs.lookup q = some i ∨
    within q ∧ fs.lookup q = none ∧ (∀ r, fs.lookup r ≠ some i) ∧ (fs'.inode i).kind = .directory

namespace DirsAdded

variable {within within' : PathBuf → Prop}

theorem refl (within : PathBuf → Prop) (fs : Fs) : DirsAdded within fs fs :=
  ⟨fun _ _ hq => ⟨hq, rfl⟩, fun _ _ hq => .inl hq⟩

theorem lookup_of_none (hadd : DirsAdded within fs fs') (hq : fs'.lookup q = none) :
    fs.lookup q = none := by
  cases hi : fs.lookup q with
  | none => rfl
  | some i => rw [(hadd.kept q i hi).1] at hq; cases hq

theorem trans {u : Fs} (hu : DirsAdded within fs fs') (hv : DirsAdded within fs' u) :
    DirsAdded within fs u where
  kept := by
    intro q i hi
    obtain ⟨hi', hsame⟩ := hu.kept q i hi
    obtain ⟨hi'', hsame'⟩ := hv.kept q i hi'
    exact ⟨hi'', hsame'.trans hsame⟩
  added := by
    intro q i hi
    rcases hv.added q i hi with hi' | ⟨hwithin, hnone, hnew, hdir⟩
    · rcases hu.added q i hi' with hi'' | ⟨hwithin, hnone, hnew, hdir⟩
      · exact .inl hi''
      · refine .inr ⟨hwithin, hnone, hnew, ?_⟩
        rw [(hv.kept q i hi').2]
        exact hdir
    · refine .inr ⟨hwithin, hu.lookup_of_none hnone, ?_, hdir⟩
      intro r hr
      exact hnew r (hu.kept r i hr).1

theorem mono (hu : DirsAdded within fs fs') (hle : ∀ q, within q → within' q) :
    DirsAdded within' fs fs' where
  kept := hu.kept
  added := by
    intro q i hi
    rcases hu.added q i hi with hi' | ⟨hwithin, hrest⟩
    · exact .inl hi'
    · exact .inr ⟨hle q hwithin, hrest⟩

theorem mkdir (hok : fs.mkdir h p = .ok fs') : DirsAdded (fun q => q = p) fs fs' := by
  have hact := (attempt_eq_ok hok).2
  split at hact
  · cases hact
  rename_i hnone
  split at hact
  · cases hact
  cases hact
  refine ⟨?_, ?_⟩
  · intro q i hi
    have hqp : q ≠ p := by
      rintro rfl
      rw [hi] at hnone
      cases hnone
    have hif : i ≠ h.freshInode fs := by
      rintro rfl
      exact h.freshInode_unused fs q hi
    rw [lookup_create, update_of_ne hqp]
    exact ⟨hi, update_of_ne hif _ _⟩
  · intro q i hi
    rw [lookup_create, update_apply] at hi
    split_ifs at hi with hqp
    · cases hi
      subst hqp
      refine .inr ⟨rfl, hnone, h.freshInode_unused fs, ?_⟩
      rw [inode_create_fresh]
      rfl
    · exact .inl hi

theorem follow (hadd : DirsAdded within fs fs') {fuel : Nat} (hi : fs'.follow fuel p = some i)
    (hk : (fs'.inode i).kind ≠ .directory) : fs.follow fuel p = some i := by
  induction fuel generalizing p with
  | zero => cases hi
  | succ fuel ih =>
    rw [follow] at hi ⊢
    cases hj : fs'.lookup p with
    | none => rw [hj] at hi; cases hi
    | some j =>
      rw [hj] at hi
      dsimp only at hi
      rcases hadd.added p j hj with hj' | ⟨-, -, -, hdir⟩
      · rw [hj']
        dsimp only
        rw [(hadd.kept p j hj').2] at hi
        split_ifs at hi ⊢ with hlink
        · exact ih hi
        · exact hi
      · -- a new directory ends the walk
        rw [hdir, if_neg (by decide)] at hi
        cases hi
        exact absurd hdir hk

/-- New directories change nothing about where dangling links lead. -/
theorem followName (hadd : DirsAdded within fs fs') {fuel : Nat}
    (hname : fs'.followName fuel p = some q) (hfree : fs'.lookup q = none) :
    fs.followName fuel p = some q := by
  induction fuel generalizing p with
  | zero => cases hname
  | succ fuel ih =>
    rw [Fs.followName] at hname ⊢
    cases hj : fs'.lookup p with
    | none =>
      rw [hj] at hname
      rw [hadd.lookup_of_none hj]
      exact hname
    | some j =>
      rw [hj] at hname
      dsimp only at hname
      rcases hadd.added p j hj with hj' | ⟨-, -, -, hdir⟩
      · rw [hj']
        dsimp only
        rw [(hadd.kept p j hj').2] at hname
        split_ifs at hname ⊢ with hlink
        · exact ih hname
        · exact hname
      · -- a new directory is not free
        rw [hdir, if_neg (by decide)] at hname
        cases hname
        rw [hj] at hfree
        cases hfree

theorem framed (hadd : DirsAdded within fs fs') {reach : PathBuf → Prop}
    (hwithin : ∀ q, within q → q <+: p ∧ q ≠ p) : Framed p reach fs fs' where
  node := by
    intro q
    cases hq : fs.lookup q with
    | some i =>
      obtain ⟨hq', hsame⟩ := hadd.kept q i hq
      rw [node_of_lookup hq, node_of_lookup hq', hsame]
      exact .inl rfl
    | none =>
      have hnode : fs.node q = none := node_eq_none_iff.mpr hq
      cases hq' : fs'.lookup q with
      | none => exact .inl ((node_eq_none_iff.mpr hq').trans hnode.symm)
      | some j =>
        rcases hadd.added q j hq' with hj | ⟨hw, -, -, hdir⟩
        · rw [hq] at hj
          cases hj
        · refine .inr (.inr (.inr ⟨hnode, ?_, hwithin q hw⟩))
          rw [Fs.IsDir, kindAt_of_lookup hq', hdir]
  names := by
    intro q hq
    obtain ⟨i, hi⟩ := ne_none_iff_exists'.mp hq
    rw [(hadd.kept q i hi).1]
    exact some_ne_none i

end DirsAdded

theorem createDirs_added (h : Host) (paths : List PathBuf) (fs : Fs) :
    DirsAdded (fun q => q ∈ paths) fs (createDirs h paths fs).2 := by
  induction paths generalizing fs with
  | nil => exact .refl _ fs
  | cons p rest ih =>
    have hrest : ∀ fs, DirsAdded (fun q => q ∈ p :: rest) fs (createDirs h rest fs).2 :=
      fun fs => (ih fs).mono fun _ hq => mem_cons_of_mem p hq
    unfold createDirs
    split
    · split_ifs
      · exact hrest fs
      · exact .refl _ fs
    split
    · exact .refl _ fs
    · rename_i fs₁ hok
      refine DirsAdded.trans ((DirsAdded.mkdir hok).mono ?_) (hrest fs₁)
      rintro q rfl
      exact mem_cons_self

theorem ensureParent_added (h : Host) (parent : PathBuf) (fs : Fs) :
    DirsAdded (fun q => q <+: parent) fs (ensureParent h parent fs).2 := by
  have hall : DirsAdded (fun q => q <+: parent) fs (createDirAll h parent fs).2 := by
    refine (createDirs_added h _ fs).mono ?_
    intro q hq
    exact (mem_inits q parent).mp (mem_filter.mp hq).1
  unfold ensureParent
  split_ifs
  · exact .refl _ fs
  · split <;> rename_i hmade <;> rwa [hmade] at hall

theorem above_of_parent {parent : PathBuf} (hparent : p.parent = some parent)
    (hq : q <+: parent) : q <+: p ∧ q ≠ p := by
  have hdrop := PathBuf.parent_eq_dropLast hparent
  subst hdrop
  have hne : p ≠ [] := by
    rintro rfl
    cases hparent
  have hup : p.dropLast <+: p := dropLast_prefix p
  refine ⟨hq.trans hup, ?_⟩
  rintro rfl
  have hlen := hq.length_le
  have hpos := length_pos_of_ne_nil hne
  rw [length_dropLast] at hlen
  omega

/-! ## The names an op reaches -/

/-- `q` is the free name that symlinks at the end of `p` lead to. -/
def LeadsToFree (fs : Fs) (p q : PathBuf) : Prop :=
  fs.followName 40 p = some q ∧ fs.lookup q = none

/-- The names an op may change besides its own path. -/
def Reaches (fs : Fs) : InverseOp → PathBuf → Prop
  | .restoreMetadata _ p _, q | .restoreFlags _ p _, q | .fileExtend p _, q => SharesFile fs p q
  | .recreatePath p kind _, q => SharesFile fs p q ∨ kind = .regular ∧ LeadsToFree fs p q
  | .unlink p, q => p <+: q ∧ fs.lookup q ≠ none
  | .rename src dst, q =>
    (src <+: q ∨ dst <+: q) ∧ fs.lookup q ≠ none ∨ ∃ r, q = dst ++ r ∧ fs.lookup (src ++ r) ≠ none
  | _, _ => False

/-- The privileged helper acts on the path it is given. -/
structure Host.HelperConfined (h : Host) : Prop where
  chown : ∀ p uid gid fs fs', h.routerChown p uid gid fs = .applied fs' → Attributed p fs fs'
  mknod : ∀ p mode fs fs', h.routerMknod p mode fs = .applied fs' →
    (∀ q, q ≠ p → fs'.node q = fs.node q) ∧ ∀ q, fs.lookup q ≠ none → fs'.lookup q ≠ none

theorem Host.sample_helperConfined : sample.HelperConfined where
  chown := fun _ _ _ _ _ hafter => by cases hafter
  mknod := fun _ _ _ _ hafter => by cases hafter

section Ops

theorem restoreContentInner_framed (h : Host) (p : PathBuf) (blob : BlobHash) (fs : Fs) :
    Framed p reach fs (restoreContentInner h p blob fs).2 := by
  unfold restoreContentInner
  split
  · exact .refl p reach fs
  rename_i bytes _
  split
  · exact .refl p reach fs
  rename_i parent hparent
  have hmade : Framed p reach fs (ensureParent h parent fs).2 :=
    (ensureParent_added h parent fs).framed fun _ hq => above_of_parent hparent hq
  split <;> rename_i fs₁ hres <;> rw [hres] at hmade
  · exact hmade
  · refine hmade.trans ?_
    rcases placeContent_cases h parent p bytes fs₁ with ⟨e, heq⟩ | ⟨-, heq⟩
    · rw [heq]
      exact .refl p reach fs₁
    · rw [heq]
      exact .create h (.inl rfl) _ fs₁

theorem applyRestoreMetadata_framed (hhelper : h.HelperConfined) (p : PathBuf)
    (target : FileMetadata) (fs : Fs) :
    Framed p (SharesFile fs p) fs (applyRestoreMetadata h p target fs).2 := by
  have hattr : Attributed p fs (applyRestoreMetadata h p target fs).2 := by
    rcases applyRestoreMetadata_cases h p target fs with hattr | ⟨fs₁, after, h₁, hafter, h₂⟩
    · exact hattr
    · exact (h₁.trans (hhelper.chown _ _ _ _ _ hafter)).trans h₂
  exact .attributed hattr fun _ hq => .inr hq

/-- A file made where dangling links lead is what they lead to then. -/
theorem Fs.follow_create (hn : n.kind ≠ .symlink) {fuel : Nat}
    (hname : fs.followName fuel p = some q) (hfree : fs.lookup q = none) :
    (fs.create h q n).follow fuel p = some (h.freshInode fs) := by
  induction fuel generalizing p with
  | zero => cases hname
  | succ fuel ih =>
    rw [followName] at hname
    rw [follow, lookup_create, update_apply]
    cases hi : fs.lookup p with
    | none =>
      rw [hi] at hname
      cases hname
      rw [if_pos rfl]
      dsimp only
      rw [inode_create_fresh, if_neg hn]
    | some i =>
      rw [hi] at hname
      dsimp only at hname
      have hpq : p ≠ q := by
        rintro rfl
        rw [hi] at hfree
        cases hfree
      have hsame : (fs.create h q n).inode i = fs.inode i := by
        refine update_of_ne ?_ _ _
        rintro rfl
        exact h.freshInode_unused fs p hi
      rw [if_neg hpq]
      dsimp only
      rw [hsame]
      split_ifs at hname ⊢ with hlink
      · exact ih hname
      · exact absurd (some_injective _ hname) hpq

theorem chmod_created_framed (h : Host) (permBits : Nat) (hn : n.kind ≠ .symlink)
    (hlead : LeadsToFree fs p q) (hq : q = p ∨ reach q) :
    Framed p reach fs (chmodRecreated h p permBits (fs.create h q n)).2 := by
  refine (Framed.create h hq n fs).trans ?_
  unfold chmodRecreated
  split
  · rename_i hok
    refine .attributed (attempt_attributed hok fun _ => ⟨rfl, rfl, rfl⟩) ?_
    rintro r ⟨i, hi, hr⟩
    rw [resolve, follow_create hn hlead.1 hlead.2] at hi
    cases hi
    rwa [lookup_create_fresh hr]
  · exact .refl p reach _

theorem chmodRecreated_attributed (h : Host) (p : PathBuf) (permBits : Nat) (fs : Fs) :
    Attributed p fs (chmodRecreated h p permBits fs).2 := by
  unfold chmodRecreated
  split
  · rename_i hok
    exact attempt_attributed hok fun _ => ⟨rfl, rfl, rfl⟩
  · exact .refl p fs

theorem Fs.follow_of_followName {fuel : Nat} (hname : fs.followName fuel p = some q)
    (hi : fs.lookup q = some i) : fs.follow fuel p = some i := by
  induction fuel generalizing p with
  | zero => cases hname
  | succ fuel ih =>
    rw [followName] at hname
    rw [follow]
    cases hj : fs.lookup p with
    | none =>
      rw [hj] at hname
      cases hname
      rw [hi] at hj
      cases hj
    | some j =>
      rw [hj] at hname
      dsimp only at hname ⊢
      split_ifs at hname ⊢ with hlink
      · exact ih hname
      · cases hname
        rw [hi] at hj
        exact hj.symm

theorem Fs.openCreate_cases (hok : fs.openCreate h p = .ok fs') :
    (∃ q, LeadsToFree fs p q ∧
        fs' = fs.create h q (h.newInode .regular (h.masked 0o666) [] "")) ∨
      ∃ i, fs.resolve p = some i ∧ (fs.inode i).kind ≠ .directory ∧
        fs' = fs.modifyInode i fun n => { n with content := [] } := by
  have hact := (attempt_eq_ok hok).2
  split at hact
  · cases hact
  rename_i q hname
  split at hact
  · rename_i hfree
    split at hact
    · cases hact
    · cases hact
      exact .inl ⟨q, ⟨hname, hfree⟩, rfl⟩
  · rename_i i hi
    split_ifs at hact with hdir
    cases hact
    exact .inr ⟨i, follow_of_followName hname hi, hdir, rfl⟩

/-- The names a path recreated in place is seen under. A directory is only taken over where it is
the entry itself. -/
def RecreatedAs (fs : Fs) (p q : PathBuf) : Prop :=
  ∃ i, fs.resolve p = some i ∧ fs.lookup q = some i ∧
    ((fs.inode i).kind = .directory → fs.lookup p = some i)

theorem recreateIn_framed (h : Host) (p : PathBuf) (kind : FileKind) (mode : Nat) (fs : Fs) :
    Framed p (fun q => RecreatedAs fs p q ∨ kind = .regular ∧ LeadsToFree fs p q) fs
      (recreateIn h p kind mode fs).2 := by
  unfold recreateIn
  split
  · -- a file
    split
    · exact .refl p _ fs
    rename_i fs₁ hok
    rcases openCreate_cases hok with ⟨q, hlead, rfl⟩ | ⟨i, hi, hdir, rfl⟩
    · exact chmod_created_framed h _ (by simp [newInode]) hlead (.inr (.inr ⟨rfl, hlead⟩))
    have hshares : ∀ q, SharesFile fs p q → q = p ∨ RecreatedAs fs p q ∨
        FileKind.regular = .regular ∧ LeadsToFree fs p q := by
      rintro q ⟨j, hj, hq⟩
      rw [hi] at hj
      cases hj
      exact .inr (.inl ⟨i, hi, hq, fun hk => absurd hk hdir⟩)
    have hcut : Framed p (fun q => RecreatedAs fs p q ∨ FileKind.regular = .regular ∧
        LeadsToFree fs p q) fs (fs.modifyInode i fun n => { n with content := [] }) :=
      .rewrite hi hshares _
    refine hcut.trans (.attributed (chmodRecreated_attributed h p _ _) ?_)
    rintro q ⟨j, hj, hq⟩
    have hsame : (fs.modifyInode i fun n => { n with content := [] }).resolve p =
        fs.resolve p := resolve_modifyInode (fun _ => rfl) (fun _ => rfl)
    exact hshares q ⟨j, hsame ▸ hj, hq⟩
  · -- a directory
    split
    · rename_i fs₁ hok
      have hact := (attempt_eq_ok hok).2
      split at hact
      · cases hact
      · rename_i hfree
        split at hact
        · cases hact
        · cases hact
          exact chmod_created_framed h _ (by simp [newInode]) ⟨followName_of_free hfree, hfree⟩
            (.inl rfl)
    · split_ifs with hexists
      · -- the directory is there already
        refine .attributed (chmodRecreated_attributed h p _ fs) ?_
        rintro q ⟨i, hi, hq⟩
        obtain ⟨n, hn, hk⟩ := (any_eq_true _ _).mp hexists.2
        obtain ⟨j, hj, rfl⟩ := node_eq_some_iff.mp hn
        have hdir : (fs.inode j).kind = .directory := by simpa using hk
        have hj' := resolve_of_lookup hj (by rw [hdir]; decide)
        rw [hj'] at hi
        cases hi
        exact .inr (.inl ⟨_, hj', hq, fun _ => hj⟩)
      · exact .refl p _ fs
  · exact .refl p _ fs
  · exact .refl p _ fs

theorem recreatedAs_of_added {parent : PathBuf} (hparent : p.parent = some parent)
    (hadd : DirsAdded (fun q => q <+: parent) fs fs') (hq : RecreatedAs fs' p q) :
    SharesFile fs p q := by
  obtain ⟨i, hi, hqi, hown⟩ := hq
  by_cases hdir : (fs'.inode i).kind = .directory
  · rcases hadd.added p i (hown hdir) with hp | ⟨hwithin, -⟩
    · rcases hadd.added q i hqi with hq' | ⟨-, -, hnew, -⟩
      · rw [(hadd.kept p i hp).2] at hdir
        exact ⟨i, resolve_of_lookup hp (by rw [hdir]; decide), hq'⟩
      · exact absurd hp (hnew p)
    · exact absurd rfl (above_of_parent hparent hwithin).2
  · rcases hadd.added q i hqi with hq' | ⟨-, -, -, hdir'⟩
    · exact ⟨i, hadd.follow hi hdir, hq'⟩
    · exact absurd hdir' hdir

theorem recreatePathInner_framed (h : Host) (p : PathBuf) (kind : FileKind) (mode : Nat)
    (fs : Fs) :
    Framed p (Reaches fs (.recreatePath p kind mode)) fs
      (recreatePathInner h p kind mode fs).2 := by
  unfold recreatePathInner
  split
  · refine (recreateIn_framed h p kind mode fs).mono ?_
    rintro q (⟨i, hi, hq, -⟩ | hlead)
    · exact .inl ⟨i, hi, hq⟩
    · exact .inr hlead
  rename_i parent hparent
  have hadd := ensureParent_added h parent fs
  have hmade : Framed p (Reaches fs (.recreatePath p kind mode)) fs
      (ensureParent h parent fs).2 :=
    hadd.framed fun _ hq => above_of_parent hparent hq
  split <;> rename_i fs₁ hres <;> rw [hres] at hadd hmade
  · exact hmade
  · refine hmade.trans ((recreateIn_framed h p kind mode fs₁).mono ?_)
    rintro q (hq | ⟨hkind, hname, hfree⟩)
    · exact .inl (recreatedAs_of_added hparent hadd hq)
    · exact .inr ⟨hkind, hadd.followName hname hfree, hadd.lookup_of_none hfree⟩

theorem Host.HelperConfined.mknod_framed (hhelper : h.HelperConfined) {mode : Nat}
    (hafter : h.routerMknod p mode fs = .applied fs') : Framed p reach fs fs' := by
  obtain ⟨hnode, hnames⟩ := hhelper.mknod p mode fs fs' hafter
  refine ⟨?_, hnames⟩
  intro q
  by_cases hq : q = p
  · exact .inr (.inl hq)
  · exact .inl (hnode q hq)

theorem applyRecreatePath_framed (hhelper : h.HelperConfined) (p : PathBuf) (kind : FileKind)
    (mode : Nat) (fs : Fs) :
    Framed p (Reaches fs (.recreatePath p kind mode)) fs
      (applyRecreatePath h p kind mode fs).2 := by
  unfold applyRecreatePath
  split_ifs
  · cases hparent : p.parent with
    | none =>
      dsimp only
      split
      · rename_i after hafter
        exact hhelper.mknod_framed hafter
      all_goals exact .refl p _ fs
    | some parent =>
      have hmade : Framed p (Reaches fs (.recreatePath p kind mode)) fs
          (ensureParent h parent fs).2 :=
        (ensureParent_added h parent fs).framed fun _ hq => above_of_parent hparent hq
      dsimp only
      split <;> rename_i fs₁ hres <;> rw [hres] at hmade
      · exact hmade
      · split
        · rename_i after hafter
          exact hmade.trans (hhelper.mknod_framed hafter)
        all_goals exact hmade
  · rw [stepOutcome_snd]
    exact recreatePathInner_framed h p kind mode fs

theorem applyCreateSymlink_framed (h : Host) (target : String) (p : PathBuf) (fs : Fs) :
    Framed p reach fs (applyCreateSymlink h target p fs).2 := by
  unfold applyCreateSymlink
  dsimp only
  split
  · rename_i hok
    have hact := (attempt_eq_ok hok).2
    split at hact
    · cases hact
    · cases hact
    · cases hact
      exact .create h (.inl rfl) _ fs
  · exact .refl p reach fs

theorem applyCreateHardlink_framed (h : Host) (source p : PathBuf) (fs : Fs) :
    Framed p reach fs (applyCreateHardlink h source p fs).2 := by
  unfold applyCreateHardlink
  dsimp only
  split
  · rename_i hok
    have hact := (attempt_eq_ok hok).2
    split at hact
    · cases hact
    · cases hact
    · cases hact
    rename_i i _ _ _
    split_ifs at hact
    cases hact
    have hlookup : (fs.link p i).lookup = update fs.lookup p (some i) :=
      get_put p i fs.entries
    refine .of_update (.inl rfl) ?_ hlookup
    intro q hq
    unfold node
    rw [hlookup, update_of_ne hq]
    rfl
  · exact .refl p reach fs

theorem applyFileExtend_framed (h : Host) (p : PathBuf) (truncateTo : Nat) (fs : Fs) :
    Framed p (SharesFile fs p) fs (applyFileExtend h p truncateTo fs).2 := by
  unfold applyFileExtend
  split
  · exact .refl p _ fs
  rename_i i hi
  dsimp only
  split
  · exact .refl p _ fs
  split
  · exact .refl p _ fs
  split
  · exact .refl p _ fs
  rename_i hok
  have hact := (attempt_eq_ok hok).2
  split at hact
  · cases hact
  · cases hact
    dsimp only
    exact .rewrite hi (fun q hq => .inr hq) _

end Ops

/-! ## Names taken away -/

/-- `Unlink` that fails may have removed part of a directory. -/
theorem unlinkInner_cases (h : Host) (p : PathBuf) (fs : Fs) :
    (∃ e fs', unlinkInner h p fs = (.error e, fs') ∧ Pruned (fun q => p <+: q) fs fs') ∨
      fs.lookup p ≠ none ∧ ∃ fs', unlinkInner h p fs = (.ok (), fs') ∧ fs'.inode = fs.inode ∧
        fs'.lookup = if fs.IsDir p then cut p fs.lookup
          else update fs.lookup p none := by
  unfold unlinkInner
  split
  · exact .inl ⟨_, fs, rfl, .refl _ fs⟩
  rename_i n hn
  by_cases hk : n.kind = .directory
  · have hdir : fs.IsDir p := by rw [Fs.IsDir, kindAt_of_node hn, hk]
    rw [if_pos hk, if_pos hdir]
    split
    · -- an empty directory
      rename_i hok
      obtain ⟨-, hempty, rfl⟩ := rmdir_ok hok
      refine .inr ⟨hdir.lookup_ne_none, _, rfl, rfl, ?_⟩
      rw [lookup_erase, cut_eq_update hempty]
    · have hpruned := removeTree_pruned h (fs.depth + 1) p fs
      split
      · rename_i fs' hok
        have hdone := (removeTree_ok hok).2
        rw [if_pos hdir] at hdone
        rw [show removeTree h (fs.depth + 1) p fs = (.ok (), fs') from hok] at hpruned
        exact .inr ⟨hdir.lookup_ne_none, fs', rfl, hpruned.inode, hdone⟩
      · rename_i e fs' hfailed
        rw [show removeTree h (fs.depth + 1) p fs = (.error e, fs') from hfailed] at hpruned
        exact .inl ⟨_, fs', rfl, hpruned⟩
    · exact .inl ⟨_, fs, rfl, .refl _ fs⟩
  · rw [if_neg hk]
    split
    · rename_i hok
      obtain ⟨hne, hnot, rfl⟩ := unlink_ok hok
      rw [if_neg hnot]
      exact .inr ⟨hne, _, rfl, rfl, lookup_erase p fs⟩
    · exact .inl ⟨_, fs, rfl, .refl _ fs⟩

/-- **`Unlink` takes nothing but names at or below its path**, wherever it stops. -/
theorem unlinkInner_pruned (h : Host) (p : PathBuf) (fs : Fs) :
    Pruned (fun q => p <+: q) fs (unlinkInner h p fs).2 := by
  rcases unlinkInner_cases h p fs with ⟨e, fs', heq, hpruned⟩ | ⟨-, fs', heq, hinode, hlookup⟩
  · rw [heq]
    exact hpruned
  rw [heq]
  refine ⟨hinode, ?_⟩
  intro q
  rw [hlookup]
  split_ifs
  · unfold PathTree.cut
    split_ifs with hq
    · exact .inr ⟨hq, rfl⟩
    · exact .inl rfl
  · rw [update_apply]
    split_ifs with hq
    · exact .inr ⟨by rw [hq], rfl⟩
    · exact .inl rfl

theorem applyRename_cases (h : Host) (src dst : PathBuf) (fs : Fs) :
    (∃ e, applyRename h src dst fs = (.failed e, fs)) ∨
      (fs.lookup dst ≠ none ∧ applyRename h src dst fs = (.applied, fs)) ∨
      (dst ≠ [] ∧
        applyRename h src dst fs = (.applied, { fs with entries := fs.entries.move src dst })) := by
  unfold applyRename
  split
  · rename_i hok
    have hact := (attempt_eq_ok hok).2
    split at hact
    · cases hact
    split at hact
    · cases hact
    rename_i hparent
    have hnil : dst ≠ [] := by
      rintro rfl
      cases hparent
    split at hact
    · cases hact
    split at hact
    · cases hact
      exact .inr (.inr ⟨hnil, rfl⟩)
    rename_i j hj
    split_ifs at hact
    · cases hact
      exact .inr (.inl ⟨by rw [hj]; exact some_ne_none j, rfl⟩)
    · cases hact
      exact .inr (.inr ⟨hnil, rfl⟩)
    · cases hact
      exact .inr (.inr ⟨hnil, rfl⟩)
  · exact .inl ⟨_, rfl⟩

theorem free_of_precondition (hpre : preconditionConflict (fs.probe h) (.rename src dst) = none) :
    fs.lookup dst = none := by
  simp only [preconditionConflict, probe_pathExists] at hpre
  split_ifs at hpre with hsrc hdst
  rw [← node_eq_none_iff]
  simpa using hdst

theorem Fs.lookup_move_of_outside (hs : ¬ src <+: q) (hd : ¬ dst <+: q) :
    lookup { fs with entries := fs.entries.move src dst } q = fs.lookup q := by
  have hkeep : (fs.entries.keep fun r => ¬ dst <+: r).get q = fs.lookup q := by
    rw [get_keep, if_pos (by simpa using hd)]
    rfl
  rw [← hkeep]
  apply get_map_key
  intro e he
  unfold relocate
  split_ifs with hsrc
  · constructor
    · rintro rfl
      exact absurd (prefix_append _ _) hd
    · rintro rfl
      exact absurd hsrc hs
  · exact Iff.rfl

theorem Fs.moved_of_lookup (hin : src <+: q ∨ dst <+: q)
    (hq : lookup { fs with entries := fs.entries.move src dst } q ≠ none) :
    ∃ r, q = dst ++ r ∧ fs.lookup (src ++ r) ≠ none := by
  obtain ⟨j, hj⟩ := mem_entries_iff_lookup.mpr hq
  obtain ⟨e, he, heq⟩ := mem_map.mp hj
  obtain ⟨hmem, hkept⟩ := mem_keep.mp he
  have hrelocate : relocate src dst e.1 = q := congrArg Prod.fst heq
  unfold relocate at hrelocate
  split_ifs at hrelocate with hsrc
  · obtain ⟨r, hr⟩ := hsrc
    refine ⟨r, ?_, ?_⟩
    · rw [← hrelocate, ← hr, drop_left]
    · rw [hr]
      exact mem_entries_iff_lookup.mp ⟨e.2, hmem⟩
  · -- an entry that stays is neither in the source nor in the destination
    rw [hrelocate] at hsrc hkept
    simp [hin.resolve_left hsrc] at hkept

/-! ## The executor -/

/-- **Outside what it reaches, an op changes nothing** but the parents it makes. -/
theorem applyFileOp_frame (hhelper : h.HelperConfined) (hp : op.primaryPath = some p) (fs : Fs)
    (q : PathBuf) :
    (applyFileOp h op fs).2.node q = fs.node q ∨ q = p ∨ Reaches fs op q ∨
      MadeAbove p fs (applyFileOp h op fs).2 q := by
  cases op with
  | restoreContent i path blob =>
    cases hp
    rw [applyFileOp, stepOutcome_snd]
    exact (restoreContentInner_framed h p blob fs).node q
  | restoreMetadata i path target =>
    cases hp
    exact (applyRestoreMetadata_framed hhelper p target fs).node q
  | restoreFlags i path flags =>
    cases hp
    rw [applyFileOp, stepOutcome_snd]
    exact (Framed.attributed (restoreFlagsValue_attributed h p flags fs)
      fun _ hq => .inr hq).node q
  | recreatePath path kind mode =>
    cases hp
    exact (applyRecreatePath_framed hhelper p kind mode fs).node q
  | createSymlink target path =>
    cases hp
    exact (applyCreateSymlink_framed h target p fs).node q
  | createHardlink source target =>
    cases hp
    exact (applyCreateHardlink_framed h source p fs).node q
  | fileExtend path truncateTo =>
    cases hp
    exact (applyFileExtend_framed h p truncateTo fs).node q
  | unlink path =>
    cases hp
    rw [applyFileOp, stepOutcome_snd]
    have hpruned := unlinkInner_pruned h p fs
    rcases hpruned.lookup q with hsame | ⟨hpq, hgone⟩
    · left
      rw [node, node, hsame, hpruned.inode]
    · by_cases hq : fs.lookup q = none
      · left
        rw [node, node, hgone, hq]
        rfl
      · exact .inr (.inr (.inl ⟨hpq, hq⟩))
  | rename src dst =>
    cases hp
    rw [applyFileOp]
    rcases applyRename_cases h src p fs with ⟨e, heq⟩ | ⟨-, heq⟩ | ⟨-, heq⟩
    · rw [heq]
      exact .inl rfl
    · rw [heq]
      exact .inl rfl
    rw [heq]
    by_cases hreach : Reaches fs (.rename src p) q
    · exact .inr (.inr (.inl hreach))
    left
    unfold node
    congr 1
    by_cases hin : src <+: q ∨ p <+: q
    · -- nothing was there, and nothing comes there
      have hnone : fs.lookup q = none := not_not.mp fun hne => hreach (.inl ⟨hin, hne⟩)
      rw [hnone]
      by_contra hne
      exact hreach (.inr (moved_of_lookup hin hne))
    · obtain ⟨hs, hd⟩ := not_or.mp hin
      exact lookup_move_of_outside hs hd
  | _ => cases hp

/-- **Only `Unlink` and `Rename` take names away.** -/
theorem applyFileOp_keeps_names (hhelper : h.HelperConfined) (hunlink : ∀ p, op ≠ .unlink p)
    (hrename : ∀ src dst, op ≠ .rename src dst) (fs : Fs) (hq : fs.lookup q ≠ none) :
    (applyFileOp h op fs).2.lookup q ≠ none := by
  cases op with
  | restoreContent i path blob =>
    rw [applyFileOp, stepOutcome_snd]
    have hframed : Framed path (fun _ => False) fs _ := restoreContentInner_framed h path blob fs
    exact hframed.names q hq
  | restoreMetadata i path target =>
    exact (applyRestoreMetadata_framed hhelper path target fs).names q hq
  | restoreFlags i path flags =>
    rw [applyFileOp, stepOutcome_snd, (restoreFlagsValue_attributed h path flags fs).lookup_eq]
    exact hq
  | recreatePath path kind mode =>
    exact (applyRecreatePath_framed hhelper path kind mode fs).names q hq
  | createSymlink target path =>
    have hframed : Framed path (fun _ => False) fs _ := applyCreateSymlink_framed h target path fs
    exact hframed.names q hq
  | createHardlink source target =>
    have hframed : Framed target (fun _ => False) fs _ :=
      applyCreateHardlink_framed h source target fs
    exact hframed.names q hq
  | fileExtend path truncateTo => exact (applyFileExtend_framed h path truncateTo fs).names q hq
  | unlink path => exact absurd rfl (hunlink path)
  | rename src dst => exact absurd rfl (hrename src dst)
  | _ => exact hq

end ShitUndo
