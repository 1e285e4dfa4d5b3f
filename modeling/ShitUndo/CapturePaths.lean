import ShitUndo.CaptureRun

/-!
# The paths capture reports

Every message of the helper names a path, rebuilt from what it has cached: the path of the parent
directory for an event with a name, the path of a descriptor it holds for an event with an inode.

* `HelperResponse.TrueOf`: the path is the one the entry had when the operation was performed.
* `InPlace`: the directories of an operation are where the helper learnt of them, what the helper
  last found at the destination of a rename is still there, and no name ends in the suffix procfs
  adds to deleted files.
-/

namespace ShitUndo

open List Option Function HelperIo KernelOp Fs WatchState InodeRef Watched

open Transition (Meets)

/-! ## True messages -/

/-- The entry a pre-image of the operation is of. -/
def KernelOp.touches : KernelOp → Option Dentry
  | .rename _ dst => some dst
  | .unlink e => some e
  | op => op.writes

/-- The two names of a rename. -/
def KernelOp.renamed : KernelOp → Option (Dentry × Dentry)
  | .rename src dst => some (src, dst)
  | _ => none

/-- A message tells the truth about an operation performed on the tree: a create is of the entry
made, a rename of the two names, and a pre-image of the entry that was there before. -/
def HelperResponse.TrueOf (fs : Fs) (op : KernelOp) : HelperResponse → Prop
  | .treeMutation _ (.create ref path _ _) _ =>
    op.makes.map (fun made => (made.1.display, made.2.user)) = some (path, ref)
  | .treeMutation _ (.rename src dst ref) _ =>
    (op.renamed.map fun names =>
      (names.1.path.display, names.2.path.display, (fs.ref names.1).user)) = some (src, dst, ref)
  | .capturedPreImage pre =>
    (op.touches.bind fun e => (fs.lookup e.path).map fun i => (some e.path.display, i.user)) =
      some (pre.path, pre.ref)

instance (fs : Fs) (op : KernelOp) : ∀ msg : HelperResponse, Decidable (msg.TrueOf fs op)
  | .treeMutation _ (.create _ _ _ _) _ => inferInstanceAs (Decidable (_ = _))
  | .treeMutation _ (.rename _ _ _) _ => inferInstanceAs (Decidable (_ = _))
  | .capturedPreImage _ => inferInstanceAs (Decidable (_ = _))

theorem HelperResponse.trueOf_preImage {fs : Fs} {op : KernelOp} {pre : CapturedPreImage}
    {e : Dentry} {i : InodeRef} (htouches : op.touches = some e) (hi : fs.lookup e.path = some i)
    (hpath : pre.path = some e.path.display) (href : pre.ref = i.user) :
    HelperResponse.TrueOf fs op (.capturedPreImage pre) := by
  rw [HelperResponse.TrueOf, htouches, bind_some, hi, map_some, hpath, href]

/-- All messages of a run are true. -/
def PathsTrue (io : Fs → HelperIo) (h : Host) (command : CommandId) (root : PathBuf) (fs : Fs)
    (ops : List KernelOp) : Prop :=
  Meets (fun s op => ∀ msg ∈ s.messages io h command root op, msg.TrueOf s.fs op)
    (step io h command root) (start io root fs) ops

instance (io : Fs → HelperIo) (h : Host) (command : CommandId) (root : PathBuf) (fs : Fs)
    (ops : List KernelOp) : Decidable (PathsTrue io h command root fs ops) :=
  inferInstanceAs (Decidable (Meets _ _ _ _))

/-- procfs shows the path of a file that has one name. -/
def HelperIo.ShowsPaths (io : HelperIo) (fs : Fs) : Prop :=
  ∀ p i, fs.lookup p = some i → (∀ q, fs.lookup q = some i → q = p) → io.fdPath i = some p.display

/-! ## Operations in place -/

/-- The text procfs adds to the path of a deleted file. -/
def LooksDeleted (path : String) : Prop := " (deleted)".toList <:+ path.toList

instance (path : String) : Decidable (LooksDeleted path) :=
  inferInstanceAs (Decidable (_ <:+ _))

theorem stripDeleted_of_not {path : String} (hplain : ¬ LooksDeleted path) :
    stripDeleted path = path :=
  if_neg hplain

/-- What the helper has seen is still so where the operation acts. -/
def InPlace (s : Watched) : KernelOp → Prop
  | .mkdir e _ i => s.KnowsDir e.dir ∧ s.births.filed i = false
  | .create e _ _ => s.KnowsDir e.dir
  | .rename src dst => s.KnowsDir src.dir ∧ s.KnowsDir dst.dir ∧
    (s.births.bornAt dst.path = none ∨ s.births.bornAt dst.path = s.fs.lookup dst.path)
  | .writeOpen e _ => ¬ LooksDeleted e.path.display
  | .release e _ => ¬ LooksDeleted e.path.display
  | .setattr e _ _ _ => ¬ LooksDeleted e.path.display
  | .unlink e => s.KnowsDir e.dir

instance (s : Watched) : ∀ op, Decidable (InPlace s op)
  | .mkdir _ _ _ => inferInstanceAs (Decidable (_ ∧ _))
  | .create e _ _ => inferInstanceAs (Decidable (s.KnowsDir e.dir))
  | .rename _ _ => inferInstanceAs (Decidable (_ ∧ _ ∧ (_ ∨ _)))
  | .writeOpen e _ => inferInstanceAs (Decidable (¬ LooksDeleted e.path.display))
  | .release e _ => inferInstanceAs (Decidable (¬ LooksDeleted e.path.display))
  | .setattr e _ _ _ => inferInstanceAs (Decidable (¬ LooksDeleted e.path.display))
  | .unlink e => inferInstanceAs (Decidable (s.KnowsDir e.dir))

theorem InPlace.knows {s : Watched} {op : KernelOp} (hplace : InPlace s op)
    (hmakes : op.makes ≠ none) : ∀ e ∈ op.dentries, s.KnowsDir e.dir := by
  intro e he
  cases op with
  | mkdir e' perm i =>
    rw [mem_singleton.mp he]
    exact hplace.1
  | create e' perm i =>
    rw [mem_singleton.mp he]
    exact hplace
  | _ => exact absurd rfl hmakes

/-! ## The invariant -/

/-- The caches are what was seen, and the helper holds a descriptor of every regular file. Only
regular files have snapshots. -/
structure Aligned (root : PathBuf) (dev : Nat) (s : Watched) : Prop where
  tree : OnDevice root dev s.fs
  followed : Followed s.births s.ws
  single : s.fs.SingleNamed
  held : ∀ p i, root <+: p → s.fs.lookup p = some i → (s.fs.inode i).kind = .regular →
    s.ws.preOpens i.user = some ⟨i, false⟩
  plain : ∀ p i, root <+: p → s.fs.lookup p = some i → s.births.filed i = true →
    (s.fs.inode i).kind = .regular

section Invariant

variable {io : Fs → HelperIo} {h : Host} {command : CommandId} {root : PathBuf} {dev : Nat}
  {s s' : Watched} {fs fs' : Fs} {op : KernelOp} {e : Dentry} {i j : InodeRef} {perm : Nat}

theorem Watchable.aligned (hwatch : Watchable (io fs) fs root dev) (hworks : (io fs).Works)
    (hsingle : fs.SingleNamed) : Aligned root dev (start io root fs) where
  tree := hwatch.onDevice
  followed := hwatch.followed
  single := hsingle
  held := fun _ i hp hi hreg =>
    hwatch.covers.held i (hwatch.snapshotTaken hworks hp hi hreg)
  plain := fun _ _ _ _ hfiled => (snapshotTaken_iff.mp hfiled).2.1

theorem KernelOp.Effect.singleNamed (heffect : op.Effect fs fs') (hsingle : fs.SingleNamed) :
    fs'.SingleNamed := by
  have hmake : ∀ (e : Dentry) (i : InodeRef) (n : Inode), fs.CanMake e i →
      (fs.make e i n).SingleNamed := by
    intro e i n hcan p q j hp hq
    rw [lookup_make] at hp hq
    by_cases hpe : p = e.path
    · by_cases hqe : q = e.path
      · rw [hpe, hqe]
      · rw [hpe, update_self] at hp
        rw [update_of_ne hqe, ← hp] at hq
        exact absurd hq (hcan.unnamed q)
    · rw [update_of_ne hpe] at hp
      by_cases hqe : q = e.path
      · rw [hqe, update_self] at hq
        rw [← hq] at hp
        exact absurd hp (hcan.unnamed p)
      · rw [update_of_ne hqe] at hq
        exact hsingle p q j hp hq
  cases heffect with
  | mkdir e perm i n hcan hkind | create e perm i n hcan hkind hcontent => exact hmake e i n hcan
  | sameFile src dst i hsrc hdst | change e op i f hop hi hf => exact hsingle
  | rename src dst i hsrc hdst hsd hds hdir => exact hsingle.move (lookup_move hsd hds fs)
  | unlink e i hi hbelow => exact hsingle.erase (lookup_erase e.path fs)

theorem unnamed_after_unlink (hsingle : fs.SingleNamed) (hi : fs.lookup e.path = some i)
    (q : PathBuf) :
    lookup { fs with entries := fs.entries.erase e.path } q ≠ some i := by
  intro hq
  rw [lookup_erase] at hq
  by_cases hqe : q = e.path
  · rw [hqe, update_self] at hq
    cases hq
  · rw [update_of_ne hqe] at hq
    exact hqe (hsingle q e.path i hq hi)

theorem KernelOp.Reaction.preOpens_kept (hreaction : op.Reaction fs s.ws s'.ws)
    (hne : ∀ e, op = .unlink e → j ≠ fs.ref e) (hheld : s.ws.preOpens j.user = some ⟨j, false⟩) :
    s'.ws.preOpens j.user = some ⟨j, false⟩ := by
  generalize hws : s'.ws = ws' at hreaction
  cases hreaction with
  | create e perm i snap =>
    rw [mark_preOpens, hold_preOpens]
    by_cases hji : j = i
    · rw [hji, update_self]
    · rw [update_of_ne (user_injective.ne hji)]
      exact hheld
  | unlink e =>
    rw [drop_preOpens, update_of_ne (user_injective.ne (hne e rfl))]
    exact hheld
  | _ => exact hheld

theorem KernelOp.Effect.made (heffect : op.Effect fs fs') {p : PathBuf}
    (hmakes : op.makes = some (p, j)) :
    (∃ e perm, op = .mkdir e perm j ∧ (fs'.inode j).kind = .directory) ∨
      ∃ e perm, op = .create e perm j ∧ (fs'.inode j).kind = .regular := by
  cases heffect with
  | mkdir e perm i n hcan hkind =>
    cases hmakes
    exact .inl ⟨e, perm, rfl, by rw [inode_make_self, hkind]⟩
  | create e perm i n hcan hkind hcontent =>
    cases hmakes
    exact .inr ⟨e, perm, rfl, by rw [inode_make_self, hkind]⟩
  | change e op i f hop hi hf =>
    cases op with
    | mkdir e perm i => cases hop
    | create e perm i => cases hop
    | _ => cases hmakes
  | _ => cases hmakes

theorem Births.filed_after {births : Births} (hfiled : (births.after op).filed j = true) :
    births.filed j = true ∨ ∃ e perm, op = .create e perm j := by
  cases op with
  | create e perm i =>
    dsimp only [Births.after] at hfiled
    by_cases hji : j = i
    · exact .inr ⟨e, perm, hji ▸ rfl⟩
    · rw [update_of_ne hji] at hfiled
      exact .inl hfiled
  | _ => exact .inl hfiled

theorem KernelOp.Reaction.preOpens_create {ws ws' : WatchState}
    (hreaction : (KernelOp.create e perm j).Reaction fs ws ws') :
    ws'.preOpens j.user = some ⟨j, false⟩ := by
  cases hreaction with
  | create e perm i snap =>
    rw [mark_preOpens, hold_preOpens, update_self]
  | unmarked e op hop => cases hop
  | marked e op hop => cases hop

theorem KernelOp.Effect.unlinked (heffect : (KernelOp.unlink e).Effect fs fs')
    (hsingle : fs.SingleNamed) (q : PathBuf) : fs'.lookup q ≠ some (fs.ref e) := by
  cases heffect with
  | change e op i f hop hi hf => cases hop
  | unlink e i hi hbelow =>
    rw [ref, hi, getD_some]
    exact unnamed_after_unlink hsingle hi q

theorem KernelOp.Effect.unnamed_created (heffect : (KernelOp.create e perm j).Effect fs fs')
    (q : PathBuf) :
    fs.lookup q ≠ some j := by
  cases heffect with
  | create e perm i n hcan hkind hcontent => exact hcan.unnamed q
  | change e op i f hop hi hf => cases hop

section

variable (haligned : Aligned root dev s)

include haligned

/-- **A step in place keeps the caches aligned with the tree.** -/
theorem Aligned.step (hplace : InPlace s op)
    (hfollow : Followable root dev s op s') : Aligned root dev s' where
  tree := hfollow.tree
  followed := hfollow.followed
  single := hfollow.effect.singleNamed haligned.single
  held := by
    intro q j hq hj hreg
    rcases hfollow.effect.named (fun e he => (hfollow.dirs e he).1) hj with
      ⟨e, -, -, -, hmakes⟩ | ⟨q', hq', hunder, hkind⟩
    · rcases hfollow.effect.made hmakes with ⟨e, perm, rfl, hdir⟩ | ⟨e, perm, rfl, -⟩
      · rw [hdir] at hreg
        cases hreg
      · exact hfollow.reaction.preOpens_create
    · rw [hkind] at hreg
      refine hfollow.reaction.preOpens_kept ?_ (haligned.held q' j (hunder hq) hq' hreg)
      rintro e rfl rfl
      exact hfollow.effect.unlinked haligned.single q hj
  plain := by
    intro q j hq hj hfiled
    rw [hfollow.births] at hfiled
    rcases hfollow.effect.named (fun e he => (hfollow.dirs e he).1) hj with
      ⟨e, -, -, -, hmakes⟩ | ⟨q', hq', hunder, hkind⟩
    · rcases hfollow.effect.made hmakes with ⟨e, perm, rfl, -⟩ | ⟨e, perm, rfl, hreg⟩
      · rw [show (s.births.after (.mkdir e perm j)).filed j = false from hplace.2] at hfiled
        cases hfiled
      · exact hreg
    · rw [hkind]
      rcases Births.filed_after hfiled with hold | ⟨e, perm, rfl⟩
      · exact haligned.plain q' j (hunder hq) hq' hold
      · -- the number of a new file was free
        exact absurd hq' (hfollow.effect.unnamed_created q')

/-! ## The messages -/

theorem Aligned.rename_true {src dst : Dentry}
    (hplace : InPlace s (.rename src dst)) (hsrcDir : root <+: src.dir) (hdstDir : root <+: dst.dir)
    (hsrc : s.fs.lookup src.path = some i) :
    ∀ msg ∈ ((rename src dst).react io h command s.fs fs' s.ws).2,
      msg.TrueOf s.fs (.rename src dst) := by
  intro msg hmsg
  obtain ⟨hknowsSrc, hknowsDst, hborn⟩ := hplace
  by_cases hdst : s.fs.lookup dst.path = some i
  · rw [react_sameFile io h command (hsrc.trans hdst.symm)] at hmsg
    exact absurd hmsg not_mem_nil
  rw [react_rename io h command haligned.tree haligned.followed hsrcDir hdstDir
    hknowsSrc hknowsDst hsrc hdst, mem_append] at hmsg
  rcases hmsg with hclobbered | hrename
  · obtain ⟨k, snap, hget, hsnap, -, rfl, -⟩ := mem_clobberedPreImage.mp hclobbered
    rw [haligned.followed.index] at hget
    obtain ⟨j, hj, rfl⟩ := map_eq_some_iff.mp hget
    have hlookup : s.fs.lookup dst.path = some j := by
      rcases hborn with hnone | hsame
      · rw [hj] at hnone
        cases hnone
      · rw [← hsame, hj]
    exact HelperResponse.trueOf_preImage rfl hlookup rfl rfl
  · obtain ⟨rfl, -⟩ := mem_deliver.mp hrename
    obtain ⟨href, -⟩ := haligned.tree.ref hsrcDir hsrc
    rw [HelperResponse.TrueOf, renamed, map_some, href]

theorem Aligned.create_true (hworks : (io fs').Works)
    (hknows : s.KnowsDir e.dir) (heffect : (create e perm i).Effect s.fs fs') :
    ∀ msg ∈ ((create e perm i).react io h command s.fs fs' s.ws).2,
      msg.TrueOf s.fs (.create e perm i) := by
  intro msg hmsg
  cases heffect with
  | create e perm i n hcan hkind hcontent =>
    have hat : (s.fs.make e i n).lookup e.path = some i := by
      rw [lookup_make, update_self]
    have hreg : ((s.fs.make e i n).inode i).kind = .regular := by
      rw [inode_make_self, hkind]
    rw [react_create io h command haligned.followed hknows] at hmsg
    obtain ⟨cmd, kind, mode, now, rfl⟩ := (processLsmCreateResolved_cases e.path perm).1 msg hmsg
    rw [hworks.openNoFollow hat hreg]
    rfl
  | change _ _ _ _ hop => cases hop

section

variable (hdir : root <+: e.dir)

include hdir

theorem Aligned.sent_true (hshows : (io fs').ShowsPaths fs')
    (hplain : ¬ LooksDeleted e.path.display) (hop : op.writes = some e)
    (heffect : op.Effect s.fs fs') {result : WatchState × List HelperResponse}
    (hsent : SentSnapshot (io fs') h s.ws (s.fs.ref e).user result) :
    ∀ msg ∈ result.2, msg.TrueOf s.fs op := by
  intro msg hmsg
  obtain ⟨i, hi, hlookup⟩ : ∃ i, s.fs.lookup e.path = some i ∧ fs'.lookup = s.fs.lookup := by
    cases heffect with
    | change e' op i f hop' hi hf =>
      rw [hop] at hop'
      cases hop'
      exact ⟨i, hi, rfl⟩
    | _ => cases hop
  have href : s.fs.ref e = i := by
    rw [ref, hi, getD_some]
  rw [href] at hsent
  cases hsent with
  | nothing => exact absurd hmsg not_mem_nil
  | sent snap path pre hfree hsnap hpath hpreref hprepath hdelete hstaged hhash =>
    have hfiled : s.births.filed i = true := by
      rw [← haligned.followed.snaps, hsnap, isSome_some]
    have hunder := (Dentry.under hdir).1
    have hheld := haligned.held e.path i hunder hi (haligned.plain e.path i hunder hi hfiled)
    have hfd : (io fs').fdPath i = some e.path.display := by
      refine hshows e.path i (hlookup ▸ hi) fun q hq => ?_
      rw [hlookup] at hq
      exact haligned.single q e.path i hq hi
    have hresolve : resolveInodeToPath (io fs') s.ws i.user = some e.path.display := by
      rw [resolveInodeToPath, hheld, bind_some, hfd]
      exact congrArg some (stripDeleted_of_not hplain)
    rw [hresolve] at hpath
    cases hpath
    obtain ⟨rfl, -⟩ := mem_deliver.mp hmsg
    refine HelperResponse.trueOf_preImage ?_ hi hprepath hpreref
    cases op with
    | rename src dst => cases hop
    | unlink e' => cases hop
    | _ => exact hop

theorem Aligned.unlink_true (hknows : s.KnowsDir e.dir) (hi : s.fs.lookup e.path = some i) :
    ∀ msg ∈ ((unlink e).react io h command s.fs fs' s.ws).2,
      msg.TrueOf s.fs (.unlink e) := by
  intro msg hmsg
  obtain ⟨href, hdev⟩ := haligned.tree.ref hdir hi
  have hparent := hknows.dirPaths_on haligned.followed haligned.tree hdir
  unfold react event at hmsg
  dsimp only [handleLsm] at hmsg
  rw [href] at hmsg
  generalize hev : LsmUnlinkView.mk _ _ _ _ _ = ev at hmsg
  rcases handleLsmUnlink_cases ev with ⟨-, hlost⟩ | ⟨dir, pre, hat, href, -, hpath, hunlink⟩
  · rw [hlost] at hmsg
    exact absurd hmsg not_mem_nil
  rw [hunlink] at hmsg
  obtain ⟨rfl, -⟩ := mem_deliver.mp hmsg
  rw [← hev] at hat hpath href
  rw [hdev, hparent] at hat
  cases hat
  exact HelperResponse.trueOf_preImage rfl hi hpath href

theorem Aligned.mkdir_true (hdev : dev ≠ 0)
    (hknows : s.KnowsDir e.dir) (htree : OnDevice root dev fs')
    (heffect : (mkdir e perm i).Effect s.fs fs') :
    ∀ msg ∈ ((mkdir e perm i).react io h command s.fs fs' s.ws).2,
      msg.TrueOf s.fs (.mkdir e perm i) := by
  intro msg hmsg
  cases heffect with
  | mkdir e perm i n hcan hkind =>
    have hat : (s.fs.make e i n).lookup e.path = some i := by
      rw [lookup_make, update_self]
    obtain ⟨-, hi⟩ := htree.ref hdir hat
    rw [react_mkdir io h command haligned.followed hknows hkind (hi ▸ hdev)] at hmsg
    obtain ⟨rfl, -⟩ := mem_deliver.mp hmsg
    rfl
  | change _ _ _ _ hop => cases hop

theorem Aligned.setattr_true {uid gid : Nat}
    (hshows : (io fs').ShowsPaths fs') (hplain : ¬ LooksDeleted e.path.display)
    (heffect : (setattr e perm uid gid).Effect s.fs fs') :
    ∀ msg ∈ ((setattr e perm uid gid).react io h command s.fs fs' s.ws).2,
      msg.TrueOf s.fs (.setattr e perm uid gid) := by
  unfold react event
  dsimp only [handleLsm]
  generalize hev : LsmSetattrView.mk _ _ _ _ _ = ev
  have hkey : user ⟨ev.dev, ev.inode⟩ = (s.fs.ref e).user := by rw [← hev]
  rcases handleLsmSetattr_cases ev with ⟨-, hmark⟩ | hsent
  · rw [hmark]
    exact fun msg hmsg => absurd hmsg not_mem_nil
  · rw [hkey] at hsent
    exact haligned.sent_true hdir hshows hplain rfl heffect hsent

end

/-- **In place, every message is true.** -/
theorem Aligned.messages_true (hdev : dev ≠ 0)
    (hworks : ∀ fs, (io fs).Works) (hshows : ∀ fs, (io fs).ShowsPaths fs) (hplace : InPlace s op) :
    ∀ msg ∈ s.messages io h command root op, msg.TrueOf s.fs op := by
  unfold messages
  cases hnext : s.next h root op with
  | none => exact fun msg hmsg => absurd hmsg not_mem_nil
  | some fs' =>
    obtain ⟨hdirs, hperform⟩ := next_eq_some hnext
    have heffect := effect_of_perform haligned.tree.wf (fun e he => (hdirs e he).2) hperform
    have htree := haligned.tree.step hdirs heffect
    cases op with
    | mkdir e perm i =>
      exact haligned.mkdir_true (hdirs e mem_cons_self).1 hdev hplace.1 htree heffect
    | create e perm i => exact haligned.create_true (hworks fs') hplace heffect
    | rename src dst =>
      have hsrcDir := (hdirs src mem_cons_self).1
      have hdstDir := (hdirs dst (mem_cons_of_mem _ mem_cons_self)).1
      obtain ⟨i, hsrc⟩ : ∃ i, s.fs.lookup src.path = some i := by
        cases heffect with
        | sameFile _ _ i hsrc hdst | rename _ _ i hsrc hdst hsd hds hdir => exact ⟨i, hsrc⟩
        | change _ _ _ _ hop => cases hop
      exact haligned.rename_true hplace hsrcDir hdstDir hsrc
    | writeOpen e bytes =>
      exact haligned.sent_true (hdirs e mem_cons_self).1 (hshows fs') hplace rfl heffect
        (handleLsmOpen_sent ⟨(s.fs.ref e).dev, (s.fs.ref e).inode⟩)
    | release e bytes =>
      exact haligned.sent_true (hdirs e mem_cons_self).1 (hshows fs') hplace rfl heffect
        (handleLsmRelease_sent ⟨(s.fs.ref e).dev, (s.fs.ref e).inode⟩)
    | setattr e perm uid gid =>
      exact haligned.setattr_true (hdirs e mem_cons_self).1 (hshows fs') hplace heffect
    | unlink e =>
      obtain ⟨i, hi⟩ : ∃ i, s.fs.lookup e.path = some i := by
        cases heffect with
        | change _ _ _ _ hop => cases hop
        | unlink _ i hi hbelow => exact ⟨i, hi⟩
      exact haligned.unlink_true (hdirs e mem_cons_self).1 hplace hi

end

/-- **Reported paths are true.** In every run under watch whose operations are all in place, every
path in a message is the one the entry had when the operation was performed. -/
theorem reported_paths_true (io : Fs → HelperIo) (h : Host) (command : CommandId)
    (root : PathBuf) (dev : Nat) (fs : Fs) (ops : List KernelOp)
    (hworks : ∀ fs, (io fs).Works) (hshows : ∀ fs, (io fs).ShowsPaths fs)
    (hwatch : Watchable (io fs) fs root dev) (hsingle : fs.SingleNamed)
    (hplace : Meets InPlace (step io h command root) (start io root fs) ops) :
    PathsTrue io h command root fs ops := by
  have hdev := hwatch.limits.marked
  refine hplace.of_invariant (hwatch.aligned (hworks fs) hsingle) ?_ ?_
  · intro s op haligned hinplace
    exact haligned.messages_true hdev hworks hshows hinplace
  · intro s op s' haligned hinplace hstep
    exact haligned.step hinplace
      (followable hworks hdev haligned.tree haligned.followed hinplace.knows hstep)

end Invariant

/-! ## Paths that are not true -/

theorem HelperIo.sample_showsPaths (fs : Fs) : (sample fs).ShowsPaths fs := by
  intro p i hi honly
  have hfind : (fs.entries.map Prod.fst).find? (fun q => fs.lookup q = some i) = some p := by
    cases hfound : (fs.entries.map Prod.fst).find? (fun q => fs.lookup q = some i) with
    | none =>
      have hall := find?_eq_none.mp hfound p (mem_map_of_mem (mem_entries_of_lookup hi))
      exact absurd (decide_eq_true hi) hall
    | some q =>
      have hq := find?_some hfound
      rw [honly q (of_decide_eq_true hq)]
  exact congrArg (Option.map PathBuf.display) hfind

/-- A directory with two files, a subdirectory, and a file with an odd name. -/
def oddTree : Fs := .ofList
  [("/w", .dir), ("/w/a", .file [1]), ("/w/b", .file [2]), ("/w/d", .dir),
    ("/w/x (deleted)", .file [3])]

/-- A command that stays in place: a file made in a new directory and moved over another one, one
written and made private, a directory moved, a file removed. -/
def tidyRun : List KernelOp :=
  [.mkdir (.of "/w" "n") 0o755 ⟨1, 7⟩, .create (.of "/w/n" "f") 0o644 ⟨1, 8⟩,
    .writeOpen (.of "/w/n" "f") [4], .release (.of "/w/n" "f") [4],
    .rename (.of "/w/n" "f") (.of "/w" "a"), .writeOpen (.of "/w" "b") [],
    .setattr (.of "/w" "b") 0o600 1000 1000, .rename (.of "/w" "d") (.of "/w/n" "d"),
    .unlink (.of "/w" "b"), .unlink (.of "/w/n" "d")]

theorem tidy_run_reported_true :
    PathsTrue sample .sample (.mk 0 0) (.ofString "/w") oddTree tidyRun := by
  have hcheck : checkWatchable oddTree (.ofString "/w") 1 = true := by decide +kernel
  have hwatch := watchable_of_check hcheck
  exact reported_paths_true _ _ _ _ 1 _ _ sample_works sample_showsPaths hwatch.1
    hwatch.2 (by decide +kernel)

/-- A file made in a directory that was renamed is reported in the old place; a file whose name
ends in the suffix of deleted files is reported without it; and when a file is moved to where one
was removed, the removed one is reported once more. -/
theorem renamed_dir_misreported :
    ¬ PathsTrue sample .sample (.mk 0 0) (.ofString "/w") oddTree
        [.rename (.of "/w" "d") (.of "/w" "e"), .create (.of "/w/e" "f") 0o644 ⟨1, 7⟩] ∧
      ¬ PathsTrue sample .sample (.mk 0 0) (.ofString "/w") oddTree
        [.writeOpen (.of "/w" "x (deleted)") []] ∧
      ¬ PathsTrue sample .sample (.mk 0 0) (.ofString "/w") oddTree
        [.unlink (.of "/w" "b"), .rename (.of "/w" "a") (.of "/w" "b")] := by
  decide +kernel

end ShitUndo
