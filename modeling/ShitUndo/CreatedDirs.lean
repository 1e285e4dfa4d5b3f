import ShitUndo.OpFrames

/-!
# Undoing a created directory

The inverse of a directory's creation is `Unlink`, and `unlink_inner` removes a directory that is
not empty with everything in it: whatever is inside "was also created by the command". Between the
command and its undo anybody may have put something there.

* `Spares`: a name of the later tree stays through all ops of the run, wherever the run's renames
  take it.
-/

namespace ShitUndo

open List PathBuf Fs

variable {h : Host} {fs fs' : Fs} {p q : PathBuf} {filter : PathsFilter} {policy : ConflictPolicy}
  {src dst : PathBuf} {c : Call Fs} {cs : List (Call Fs)}

/-! ## Names that stay -/

/-- Where a call leaves the name `q`. -/
def Call.carries (c : Call Fs) (q : PathBuf) : PathBuf :=
  match c.op, c.outcome with
  | .rename src dst, .applied => PathTree.Entries.relocate src dst q
  | _, _ => q

/-- The name `q` is there after every call, where the calls have taken it. -/
def Spares : List (Call Fs) → PathBuf → Prop
  | [], _ => True
  | c :: cs, q => c.after.lookup (c.carries q) ≠ none ∧ Spares cs (c.carries q)

instance decidableSpares : ∀ (cs : List (Call Fs)) (q : PathBuf), Decidable (Spares cs q)
  | [], _ => isTrue trivial
  | c :: cs, q =>
    have := decidableSpares cs (c.carries q)
    inferInstanceAs (Decidable (c.after.lookup (c.carries q) ≠ none ∧ _))

/-- When a call comes up the name is not at or below the path of an unlink, nor below the path a
rename goes to (nothing is below a free path, other than in a broken tree). -/
def OutOfReach : List (Call Fs) → PathBuf → Prop
  | [], _ => True
  | c :: cs, q =>
    (∀ p, c.op = .unlink p → ¬ p <+: q) ∧ (∀ src dst, c.op = .rename src dst → ¬ dst <+: q) ∧
      OutOfReach cs (c.carries q)

/-! ## One call -/

theorem execute_cases (h : Host) (op : InverseOp) (dryRun : Bool) (policy : ConflictPolicy)
    (fs : Fs) :
    (fileRuntime h).execute op dryRun policy fs = applyFileOp h op fs ∨
      ((fileRuntime h).execute op dryRun policy fs).1 ≠ .applied ∧
        ((fileRuntime h).execute op dryRun policy fs).2 = fs := by
  unfold fileRuntime executeFileOp
  dsimp only
  split_ifs
  · exact .inr ⟨by simp, rfl⟩
  · exact .inr ⟨by simp, rfl⟩
  · exact .inl rfl

theorem Call.carries_of_not_applied (hout : c.outcome ≠ .applied) (q : PathBuf) :
    c.carries q = q := by
  unfold Call.carries
  split
  · rename_i happlied
    exact absurd happlied hout
  · rfl

theorem Call.carries_of_not_rename (hop : ∀ src dst, c.op ≠ .rename src dst) (q : PathBuf) :
    c.carries q = q := by
  unfold Call.carries
  split
  · rename_i src dst hrename _
    exact absurd hrename (hop src dst)
  · rfl

theorem lookup_relocate_ne_none (hout : ¬ dst <+: q) (hq : fs.lookup q ≠ none) :
    lookup { fs with entries := fs.entries.move src dst }
      (PathTree.Entries.relocate src dst q) ≠ none := by
  obtain ⟨j, hj⟩ := mem_entries_iff_lookup.mpr hq
  refine mem_entries_iff_lookup.mp ⟨j, mem_map.mpr ⟨(q, j), ?_, rfl⟩⟩
  exact PathTree.Entries.mem_keep.mpr ⟨hj, by simpa using hout⟩

theorem rename_spares (hop : c.op = .rename src dst)
    (hres : (c.outcome, c.after) = applyFileOp h c.op c.before) (hfree : c.before.lookup dst = none)
    (hout : ¬ dst <+: q) (hq : c.before.lookup q ≠ none) :
    c.after.lookup (c.carries q) ≠ none := by
  obtain ⟨op, fs, outcome, fs'⟩ := c
  dsimp only at hop hres hfree hq ⊢
  subst hop
  rw [applyFileOp] at hres
  rcases applyRename_cases h src dst fs with ⟨e, heq⟩ | ⟨hne, -⟩ | ⟨-, heq⟩
  · rw [heq] at hres
    cases hres
    exact hq
  · exact absurd hfree hne
  rw [heq] at hres
  cases hres
  exact lookup_relocate_ne_none hout hq

/-- **One call.** A dispatched op, however it ends, leaves a name out of its reach where its
rename takes it. -/
theorem execute_spares (hhelper : h.HelperConfined) {dryRun : Bool}
    (hpre : preconditionConflict (c.before.probe h) c.op = none)
    (hres : (c.outcome, c.after) = (fileRuntime h).execute c.op dryRun policy c.before)
    (hunlinks : ∀ p, c.op = .unlink p → ¬ p <+: q)
    (hrenames : ∀ src dst, c.op = .rename src dst → ¬ dst <+: q)
    (hq : c.before.lookup q ≠ none) : c.after.lookup (c.carries q) ≠ none := by
  rcases execute_cases h c.op dryRun policy c.before with happly | ⟨hout, hsame⟩
  · rw [happly] at hres
    by_cases hunlink : ∃ p, c.op = .unlink p
    · obtain ⟨p, hop⟩ := hunlink
      rw [hop, applyFileOp] at hres
      have hafter : c.after = (unlinkInner h p c.before).2 := by
        rw [← stepOutcome_snd, ← hres]
      rw [Call.carries_of_not_rename (by simp [hop]), hafter,
        (unlinkInner_pruned h p c.before).lookup_of_outside (hunlinks p hop)]
      exact hq
    by_cases hrename : ∃ src dst, c.op = .rename src dst
    · obtain ⟨src, dst, hop⟩ := hrename
      exact rename_spares hop hres (free_of_precondition (hop ▸ hpre)) (hrenames src dst hop) hq
    · rw [Call.carries_of_not_rename fun src dst hop => hrename ⟨src, dst, hop⟩]
      have hkeep := applyFileOp_keeps_names hhelper (fun p hop => hunlink ⟨p, hop⟩)
        (fun src dst hop => hrename ⟨src, dst, hop⟩) c.before hq
      rwa [← hres] at hkeep
  · -- nothing was done
    rw [← hres] at hout hsame
    dsimp only at hout hsame
    rw [Call.carries_of_not_applied hout, hsame]
    exact hq

/-! ## A run -/

theorem spares_of_chained (hhelper : h.HelperConfined) {dryRun : Bool} (hchain : Chained fs cs)
    (hdispatched : ∀ c ∈ cs, preconditionConflict (c.before.probe h) c.op = none ∧
      (c.outcome, c.after) = (fileRuntime h).execute c.op dryRun policy c.before)
    (hq : fs.lookup q ≠ none) (hclear : OutOfReach cs q) : Spares cs q := by
  induction cs generalizing fs q with
  | nil => trivial
  | cons c cs ih =>
    obtain ⟨rfl, hchain⟩ := hchain
    obtain ⟨hunlinks, hrenames, hrest⟩ := hclear
    obtain ⟨hpre, hres⟩ := hdispatched c mem_cons_self
    have hkept := execute_spares hhelper hpre hres hunlinks hrenames hq
    exact ⟨hkept, ih hchain (fun c hc => hdispatched c (mem_cons_of_mem _ hc)) hkept hrest⟩

section Undo

variable (h : Host) (r : Renderers) (order : HashOrder) (command : CommandRecord)
  (events : List CaptureEvent) (store : PlannerStore) (fs : Fs) (filter : PathsFilter)
  (policy : ConflictPolicy)

/-- The executor calls of undoing the command under the given filter and policy. -/
def undoCalls : List (Call Fs) :=
  calls (fileRuntime h) filter false policy
    (plan r order command events (fs.probe h) store).nodes fs

/-- The undo of a command, planned and run in the later tree `fs`, deletes none of the entries
there that are somebody else's. -/
def UndoSparesOthers (others : PathBuf → Prop) : Prop :=
  ∀ q, fs.lookup q ≠ none → others q →
    Spares (undoCalls h r order command events store fs filter policy) q

variable {h r order command events store fs filter policy}

end Undo

/-! ## A directory others have used since -/

/-- The journal of `mkdir /d`. -/
def madeDir : List CaptureEvent :=
  journalOf [.treeOp (.create ⟨1, 2⟩ (ofString "/d") .directory 0o040755)]

/-- A tree with `/d` and, out of its way, `/e/x`. -/
def besideMadeDir : Fs := ofList [("/d", .dir), ("/e", .dir), ("/e/x", .file [1])]

/-- A tree in which somebody has put `/d/x` into the directory made. -/
def usedMadeDir : Fs := ofList [("/d", .dir), ("/d/x", .file [1])]

/-- What the undo of `mkdir /d` reports there. -/
def usedDirRecords (policy : ConflictPolicy) : List (InverseOp × OutcomeKind) :=
  (run (fileRuntime .sample) none (plan .silent .insertion plainCommand madeDir
    (usedMadeDir.probe .sample) fullStore) false policy usedMadeDir).1.records.map
    fun rec => (rec.op, rec.outcomeKind)

end ShitUndo
