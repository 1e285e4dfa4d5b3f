import ShitUndo.Tree

/-!
# Removing a directory with everything in it

`remove_dir_all` goes through a directory entry by entry and stops at the first call that fails.

* `Pruned`: whatever fails, only names at or below the path are gone (`removeTree_pruned`).
* `removeTree_ok`: after a success nothing of the directory is left.
* `removeDirAll_permissive`: it succeeds on a machine that refuses no call, in a tree whose names
  all lie in directories.
-/

namespace ShitUndo

open List Option Function Fs PathTree

variable {h : Host} {fs fs' u : Fs} {p q : PathBuf} {within within' : PathBuf → Prop}
  {remove : PathBuf → Fs → Except Errno Unit × Fs} {cs : List PathBuf}

/-! ## One call -/

theorem Fs.rmdir_ok (hok : fs.rmdir h p = .ok fs') :
    fs.IsDir p ∧ (∀ q, p <+: q → q ≠ p → fs.lookup q = none) ∧
      fs' = { fs with entries := fs.entries.erase p } := by
  have hact := (Host.attempt_eq_ok hok).2
  split at hact
  · cases hact
  rename_i n hn
  split_ifs at hact with hk hbelow
  cases hact
  refine ⟨?_, PathTree.Entries.hasBelow_eq_false_iff.mp (by simpa using hbelow), rfl⟩
  rw [Fs.IsDir, kindAt_of_node hn, not_not.mp hk]

theorem Fs.unlink_ok (hok : fs.unlink h p = .ok fs') :
    fs.lookup p ≠ none ∧ ¬ fs.IsDir p ∧ fs' = { fs with entries := fs.entries.erase p } := by
  have hact := (Host.attempt_eq_ok hok).2
  split at hact
  · cases hact
  rename_i n hn
  split_ifs at hact with hk
  cases hact
  refine ⟨?_, ?_, rfl⟩
  · rw [ne_eq, ← node_eq_none_iff, hn]
    exact some_ne_none n
  · rw [Fs.IsDir, kindAt_of_node hn]
    exact fun hdir => hk (some_injective _ hdir)

theorem Fs.isDir_iff_any : fs.IsDir p ↔ ((fs.node p).any fun n => n.kind = .directory) = true := by
  cases hn : fs.node p with
  | none => simp [Fs.IsDir, kindAt, hn]
  | some n => simp [Fs.IsDir, kindAt_of_node hn]

theorem Fs.IsDir.lookup_ne_none (hd : fs.IsDir p) : fs.lookup p ≠ none := fun hnone =>
  not_isDir_of_free (kindAt_eq_none_iff.mpr (node_eq_none_iff.mpr hnone)) hd

theorem Fs.settle_ok {result : Except Errno Fs} (hok : fs.settle result = (.ok (), fs')) :
    result = .ok fs' := by
  cases result with
  | ok u =>
    cases hok
    rfl
  | error e => cases hok

/-! ## Names that go -/

/-- `fs'` is `fs` without some of the names in `within`. -/
structure Pruned (within : PathBuf → Prop) (fs fs' : Fs) : Prop where
  inode : fs'.inode = fs.inode
  lookup : ∀ q, fs'.lookup q = fs.lookup q ∨ within q ∧ fs'.lookup q = none

namespace Pruned

theorem refl (within : PathBuf → Prop) (fs : Fs) : Pruned within fs fs :=
  ⟨rfl, fun _ => .inl rfl⟩

theorem trans (hu : Pruned within fs fs') (hv : Pruned within fs' u) : Pruned within fs u where
  inode := hv.inode.trans hu.inode
  lookup := by
    intro q
    rcases hv.lookup q with hsame | hgone
    · rw [hsame]
      exact hu.lookup q
    · exact .inr hgone

theorem mono (hu : Pruned within fs fs') (hle : ∀ q, within q → within' q) :
    Pruned within' fs fs' where
  inode := hu.inode
  lookup := fun q => (hu.lookup q).imp_right fun hgone => ⟨hle q hgone.1, hgone.2⟩

theorem of_erase (p : PathBuf) (fs : Fs) :
    Pruned (fun q => p <+: q) fs { fs with entries := fs.entries.erase p } where
  inode := rfl
  lookup := by
    intro q
    rw [lookup_erase, update_apply]
    split_ifs with hq
    · exact .inr ⟨by rw [hq], rfl⟩
    · exact .inl rfl

theorem lookup_of_outside (hu : Pruned within fs fs') (hq : ¬ within q) :
    fs'.lookup q = fs.lookup q :=
  (hu.lookup q).resolve_right fun hgone => hq hgone.1

theorem none_of_none (hu : Pruned within fs fs') (hq : fs.lookup q = none) :
    fs'.lookup q = none := by
  rcases hu.lookup q with hsame | hgone
  · rw [hsame, hq]
  · exact hgone.2

/-- What is still there is what was there. -/
theorem node_of_ne_none (hu : Pruned within fs fs') (hq : fs'.lookup q ≠ none) :
    fs'.node q = fs.node q := by
  have hsame := (hu.lookup q).resolve_right fun hgone => hq hgone.2
  rw [node, node, hsame, hu.inode]

theorem settle {result : Except Errno Fs} (hok : ∀ u, result = .ok u → Pruned within fs u) :
    Pruned within fs (fs.settle result).2 := by
  cases result with
  | ok u => exact hok u rfl
  | error e => exact .refl within fs

theorem removeEach (hremove : ∀ p fs, Pruned (fun q => p <+: q) fs (remove p fs).2)
    (cs : List PathBuf) (fs : Fs) :
    Pruned (fun q => ∃ c ∈ cs, c <+: q) fs (removeEach remove cs fs).2 := by
  induction cs generalizing fs with
  | nil => exact .refl _ fs
  | cons c cs ih =>
    have hhead : Pruned (fun q => ∃ d ∈ c :: cs, d <+: q) fs (remove c fs).2 :=
      (hremove c fs).mono fun q hq => ⟨c, mem_cons_self, hq⟩
    unfold ShitUndo.removeEach
    split
    · rename_i fs₁ hres
      rw [hres] at hhead
      refine hhead.trans ((ih fs₁).mono ?_)
      rintro q ⟨d, hd, hq⟩
      exact ⟨d, mem_cons_of_mem c hd, hq⟩
    · rename_i hres
      rwa [hres] at hhead

end Pruned

theorem Fs.mem_children : q ∈ fs.children p ↔ fs.lookup q ≠ none ∧ ∃ a, q = p ++ [a] := by
  have hkey : q ∈ fs.entries.map Prod.fst ↔ fs.lookup q ≠ none := by
    rw [← mem_entries_iff_lookup, List.mem_map]
    exact ⟨fun ⟨e, he, heq⟩ => ⟨e.2, heq ▸ he⟩, fun ⟨j, hj⟩ => ⟨(q, j), hj, rfl⟩⟩
  have hchild : (q ≠ [] ∧ q.dropLast = p) ↔ ∃ a, q = p ++ [a] := by
    constructor
    · rintro ⟨hne, rfl⟩
      exact ⟨_, (dropLast_append_getLast hne).symm⟩
    · rintro ⟨a, rfl⟩
      simp
  rw [Fs.children, mem_dedup, mem_filter, hkey, decide_eq_true_iff, hchild]

/-- **A removal takes nothing but names at or below its path**, wherever it stops. -/
theorem removeTree_pruned (h : Host) (fuel : Nat) (p : PathBuf) (fs : Fs) :
    Pruned (fun q => p <+: q) fs (removeTree h fuel p fs).2 := by
  induction fuel generalizing p fs with
  | zero => exact .refl _ fs
  | succ fuel ih =>
    have hinside : Pruned (fun q => p <+: q) fs
        (removeEach (removeTree h fuel) (fs.children p) fs).2 := by
      refine (Pruned.removeEach ih (fs.children p) fs).mono ?_
      rintro q ⟨c, hc, hq⟩
      obtain ⟨a, rfl⟩ := (mem_children.mp hc).2
      exact (prefix_append p [a]).trans hq
    unfold removeTree
    split_ifs
    · split
      · exact .refl _ fs
      split
      · rename_i fs₁ hres
        rw [hres] at hinside
        refine hinside.trans (.settle fun u hok => ?_)
        rw [(rmdir_ok hok).2.2]
        exact .of_erase p fs₁
      · rename_i hres
        rwa [hres] at hinside
    · refine .settle fun u hok => ?_
      rw [(unlink_ok hok).2.2]
      exact .of_erase p fs

/-- **A removal that succeeds leaves nothing** of a directory, and takes one name of anything
else. -/
theorem removeTree_ok {fuel : Nat} (hok : removeTree h fuel p fs = (.ok (), fs')) :
    fs.lookup p ≠ none ∧
      fs'.lookup = if fs.IsDir p then cut p fs.lookup else update fs.lookup p none := by
  have hpruned := removeTree_pruned h fuel p fs
  rw [hok] at hpruned
  cases fuel with
  | zero => cases hok
  | succ fuel =>
    unfold removeTree at hok
    split_ifs at hok with hdir
    · have hisdir := isDir_iff_any.mpr hdir
      split at hok
      · cases hok
      split at hok
      · obtain ⟨-, hempty, rfl⟩ := rmdir_ok (settle_ok hok)
        refine ⟨hisdir.lookup_ne_none, ?_⟩
        rw [if_pos hisdir]
        funext q
        unfold PathTree.cut
        split_ifs with hq
        · -- nothing was left below the directory, and now it is gone too
          rw [lookup_erase, update_apply]
          split_ifs with hqp
          · rfl
          · exact hempty q hq hqp
        · exact hpruned.lookup_of_outside hq
      · cases hok
    · obtain ⟨hne, hnot, rfl⟩ := unlink_ok (settle_ok hok)
      rw [if_neg hnot]
      exact ⟨hne, lookup_erase p fs⟩

/-! ## On a machine that refuses no call -/

/-- Every name below `p` lies in a directory. -/
def Fs.ClosedBelow (fs : Fs) (p : PathBuf) : Prop :=
  ∀ q a, p <+: q → fs.lookup (q ++ [a]) ≠ none → fs.IsDir q

theorem Fs.WellFormed.closedBelow (hwf : fs.WellFormed) (hp : p ≠ []) : fs.ClosedBelow p := by
  intro q a hpq hne
  have hq : q ≠ [] := by
    rintro rfl
    exact hp (prefix_nil.mp hpq)
  obtain ⟨j, hj⟩ := ne_none_iff_exists'.mp hne
  obtain ⟨kind, hkind, rfl⟩ := hwf.rooted q a _ hq (kindAt_of_lookup hj)
  exact hkind

/-- The entry of the directory that a name below it lies under. -/
theorem Fs.ClosedBelow.child (hclosed : fs.ClosedBelow p) (hpq : p <+: q) (hne : q ≠ p)
    (hq : fs.lookup q ≠ none) : ∃ c ∈ fs.children p, c <+: q := by
  obtain ⟨r, rfl⟩ := hpq
  cases r with
  | nil => exact absurd (append_nil p) hne
  | cons a r =>
    refine ⟨p ++ [a], mem_children.mpr ⟨?_, a, rfl⟩, by simp⟩
    -- up from the name, one directory after the other
    induction r using reverseRecOn with
    | nil => exact hq
    | append_singleton r b ih =>
      refine ih (by simp) (IsDir.lookup_ne_none (hclosed (p ++ a :: r) b (prefix_append _ _) ?_))
      simpa using hq

/-- Entries that do not lie in one another are removed one after the other. -/
theorem removeEach_ok {n : Nat} (hlen : ∀ c ∈ cs, c.length = n) (hnodup : cs.Nodup)
    (hpruned : ∀ p fs, Pruned (fun q => p <+: q) fs (remove p fs).2)
    (hremove : ∀ c ∈ cs, ∀ u, u.inode = fs.inode → (∀ q, c <+: q → u.lookup q = fs.lookup q) →
      ∃ u', remove c u = (.ok (), u') ∧ ∀ q, c <+: q → u'.lookup q = none)
    (hinode : u.inode = fs.inode) (hsame : ∀ c ∈ cs, ∀ q, c <+: q → u.lookup q = fs.lookup q) :
    ∃ u', removeEach remove cs u = (.ok (), u') ∧ ∀ c ∈ cs, ∀ q, c <+: q → u'.lookup q = none := by
  induction cs generalizing u with
  | nil => exact ⟨u, rfl, by simp⟩
  | cons c cs ih =>
    obtain ⟨hnew, hnodup⟩ := nodup_cons.mp hnodup
    obtain ⟨u₁, hu₁, hgone⟩ := hremove c mem_cons_self u hinode (hsame c mem_cons_self)
    have hstep := hpruned c u
    rw [hu₁] at hstep
    have hrest : ∀ d ∈ cs, ∀ q, d <+: q → u₁.lookup q = fs.lookup q := by
      intro d hd q hq
      rw [hstep.lookup_of_outside, hsame d (mem_cons_of_mem c hd) q hq]
      -- two entries of one length with a name in common below them are the same
      intro hcq
      have heq : c = d := by
        refine (prefix_of_prefix_length_le hcq hq ?_).eq_of_length ?_
        all_goals rw [hlen c mem_cons_self, hlen d (mem_cons_of_mem c hd)]
      exact hnew (heq ▸ hd)
    obtain ⟨u₂, hu₂, hgone₂⟩ := ih (fun d hd => hlen d (mem_cons_of_mem c hd)) hnodup
      (fun d hd => hremove d (mem_cons_of_mem c hd)) (hstep.inode.trans hinode) hrest
    refine ⟨u₂, by simp only [removeEach, hu₁, hu₂], ?_⟩
    intro d hd q hq
    rcases mem_cons.mp hd with rfl | hd
    · have hkept := Pruned.removeEach hpruned cs u₁
      rw [hu₂] at hkept
      exact hkept.none_of_none (hgone q hq)
    · exact hgone₂ d hd q hq

/-- The induction is on the fuel, which bounds how far below `p` names lie. -/
theorem removeTree_permissive (hp : h.Permissive) (fuel : Nat) (hpresent : fs.lookup p ≠ none)
    (hclosed : fs.ClosedBelow p)
    (hfuel : ∀ q, p <+: q → fs.lookup q ≠ none → q.length < p.length + fuel) :
    ∃ fs', removeTree h fuel p fs = (.ok (), fs') ∧ ∀ q, p <+: q → fs'.lookup q = none := by
  induction fuel generalizing p fs with
  | zero => exact absurd (hfuel p (prefix_refl p) hpresent) (by omega)
  | succ fuel ih =>
    by_cases hdir : fs.IsDir p
    · have hany := isDir_iff_any.mp hdir
      have hchildren : ∀ c ∈ fs.children p, ∀ u : Fs, u.inode = fs.inode →
          (∀ q, c <+: q → u.lookup q = fs.lookup q) →
          ∃ u', removeTree h fuel c u = (.ok (), u') ∧ ∀ q, c <+: q → u'.lookup q = none := by
        intro c hc u hinode hsame
        obtain ⟨hne, a, rfl⟩ := mem_children.mp hc
        have hkind : ∀ q, p ++ [a] <+: q → u.kindAt q = fs.kindAt q := by
          intro q hq
          rw [kindAt, kindAt, node, node, hsame q hq, hinode]
        refine ih (by rwa [hsame _ (prefix_refl _)]) ?_ ?_
        · intro q b hq hqb
          rw [hsame _ (hq.trans (prefix_append q [b]))] at hqb
          rw [Fs.IsDir, hkind q hq]
          exact hclosed q b ((prefix_append p [a]).trans hq) hqb
        · intro q hq hqne
          rw [hsame q hq] at hqne
          have hlt := hfuel q ((prefix_append p [a]).trans hq) hqne
          simp only [length_append, length_singleton]
          omega
      have hlen : ∀ c ∈ fs.children p, c.length = p.length + 1 := by
        intro c hc
        obtain ⟨-, a, rfl⟩ := mem_children.mp hc
        simp
      obtain ⟨fs₁, hres, hgone⟩ := removeEach_ok hlen (nodup_dedup _) (removeTree_pruned h fuel)
        hchildren rfl fun _ _ _ _ => rfl
      have hpruned := Pruned.removeEach (removeTree_pruned h fuel) (fs.children p) fs
      rw [hres] at hpruned
      have hself : fs₁.lookup p = fs.lookup p := by
        refine hpruned.lookup_of_outside ?_
        rintro ⟨c, hc, hcp⟩
        have hle := hcp.length_le
        rw [hlen c hc] at hle
        omega
      have hempty : ∀ q, p <+: q → q ≠ p → fs₁.lookup q = none := by
        intro q hpq hne
        by_contra hq
        have hold : fs.lookup q ≠ none := fun hnone => hq (hpruned.none_of_none hnone)
        obtain ⟨c, hc, hcq⟩ := hclosed.child hpq hne hold
        exact hq (hgone c hc q hcq)
      have hrm : fs₁.rmdir h p = .ok { fs₁ with entries := fs₁.entries.erase p } := by
        have hnode : fs₁.node p = fs.node p := hpruned.node_of_ne_none (by rwa [hself])
        obtain ⟨n, hn⟩ := ne_none_iff_exists'.mp (fun hnone => hpresent (node_eq_none_iff.mp hnone))
        rw [Fs.IsDir, kindAt_of_node hn] at hdir
        rw [rmdir, hp.attempt, hnode, hn]
        simp [some_injective _ hdir, PathTree.Entries.hasBelow_eq_false_iff.mpr hempty]
      refine ⟨{ fs₁ with entries := fs₁.entries.erase p }, ?_, ?_⟩
      · simp [removeTree, hany, hp _ p fs, hres, hrm, settle]
      · intro q hq
        rw [lookup_erase, update_apply]
        split_ifs with hqp
        · rfl
        · exact hempty q hq hqp
    · -- nothing lies below a file
      obtain ⟨n, hn⟩ := ne_none_iff_exists'.mp (fun hnone => hpresent (node_eq_none_iff.mp hnone))
      have hk : n.kind ≠ .directory := by
        intro hk
        exact hdir (by rw [Fs.IsDir, kindAt_of_node hn, hk])
      refine ⟨{ fs with entries := fs.entries.erase p }, ?_, ?_⟩
      · simp [removeTree, hn, hk, unlink, hp.attempt, settle]
      · intro q hq
        rw [lookup_erase, update_apply]
        split_ifs with hqp
        · rfl
        · by_contra hne
          obtain ⟨c, hc, -⟩ := hclosed.child hq hqp hne
          obtain ⟨hcne, a, rfl⟩ := mem_children.mp hc
          exact hdir (hclosed p a (prefix_refl p) hcne)

theorem Fs.length_le_depth (hq : fs.lookup q ≠ none) : q.length ≤ fs.depth := by
  obtain ⟨j, hj⟩ := ne_none_iff_exists'.mp hq
  refine List.le_max_of_le' 0 (List.mem_map.mpr ⟨(q, j), mem_entries_of_lookup hj, rfl⟩) le_rfl

/-- **`remove_dir_all` succeeds** where no call is refused and every name lies in a directory. -/
theorem removeDirAll_permissive (hp : h.Permissive) (hpresent : fs.lookup p ≠ none)
    (hclosed : fs.ClosedBelow p) : ∃ fs', fs.removeDirAll h p = (.ok (), fs') := by
  obtain ⟨fs', hres, -⟩ := removeTree_permissive hp (fs.depth + 1) hpresent hclosed
    (fun q _ hq => by have := length_le_depth hq; omega)
  exact ⟨fs', hres⟩

end ShitUndo
