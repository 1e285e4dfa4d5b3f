import ShitUndo.OpFrames

/-!
# Undo restricted to some paths

`shit undo --paths` skips the ops whose primary path does not match. What a run under such a
filter may change: names that match, and directories made to hold one.

* `FilterFrames`: nothing else changed.
* It does not always hold. An op is filtered by one path, while a rename also empties its source,
  an unlink takes a whole directory along and a change in place shows under every name of the
  file (`filter_outrun`).
-/

namespace ShitUndo

open PathBuf

variable {h : Host} {fs fs' : Fs} {isMatch : PathBuf → Bool} {op : InverseOp}

/-- `q` was made as a directory to hold a path that matches. -/
def MadeForMatch (isMatch : PathBuf → Bool) (fs fs' : Fs) (q : PathBuf) : Prop :=
  fs.node q = none ∧ fs'.IsDir q ∧ ∃ p, isMatch p = true ∧ q <+: p ∧ q ≠ p

/-- From `fs` to `fs'` only matching names changed, and directories were made to hold some. -/
def FilterFrames (isMatch : PathBuf → Bool) (fs fs' : Fs) : Prop :=
  ∀ q, fs'.node q = fs.node q ∨ isMatch q = true ∨ MadeForMatch isMatch fs fs' q

namespace FilterFrames

theorem refl (isMatch : PathBuf → Bool) (fs : Fs) : FilterFrames isMatch fs fs :=
  fun _ => .inl rfl

theorem trans {u : Fs} (hu : FilterFrames isMatch fs fs') (hv : FilterFrames isMatch fs' u) :
    FilterFrames isMatch fs u := by
  intro q
  rcases hu q with hsame | hmatch | ⟨hnone, hdir, hq⟩
  · rcases hv q with hsame' | hmatch | ⟨hnone, hrest⟩
    · exact .inl (hsame'.trans hsame)
    · exact .inr (.inl hmatch)
    · exact .inr (.inr ⟨hsame ▸ hnone, hrest⟩)
  · exact .inr (.inl hmatch)
  · rcases hv q with hsame' | hmatch | ⟨hnone', -⟩
    · refine .inr (.inr ⟨hnone, ?_, hq⟩)
      rw [Fs.IsDir, Fs.kindAt, hsame']
      exact hdir
    · exact .inr (.inl hmatch)
    · -- a directory that was made is there
      exact absurd (Fs.kindAt_eq_none_iff.mpr hnone') (by rw [hdir]; exact Option.some_ne_none _)

end FilterFrames

theorem not_filterFrames_of_lost {q : PathBuf} (hq : fs.kindAt q ≠ none)
    (hgone : fs'.kindAt q = none) (hno : isMatch q = false) : ¬ FilterFrames isMatch fs fs' := by
  rw [ne_eq, Fs.kindAt_eq_none_iff] at hq
  rw [Fs.kindAt_eq_none_iff] at hgone
  intro hframes
  rcases hframes q with hsame | hmatch | ⟨hnone, -⟩
  · exact hq (hsame ▸ hgone)
  · rw [hno] at hmatch
    cases hmatch
  · exact hq hnone

/-- The ops that run reach matching names only. -/
def CallsWithin (h : Host) (isMatch : PathBuf → Bool) (dryRun : Bool) (policy : ConflictPolicy)
    (nodes : List PlanNode) (fs : Fs) : Prop :=
  ∀ c ∈ calls (fileRuntime h) (some isMatch) dryRun policy nodes fs,
    ∀ q, Reaches c.before c.op q → isMatch q = true

theorem filteredOut_eq_false (hpass : filteredOut (some isMatch) op = false) :
    op.primaryPath = none ∨ ∃ p, op.primaryPath = some p ∧ isMatch p = true := by
  cases hp : op.primaryPath with
  | none => exact .inl rfl
  | some p =>
    refine .inr ⟨p, rfl, ?_⟩
    simpa [filteredOut, hp] using hpass

theorem filteredOut_of_dispatch {filter : PathsFilter} {policy : ConflictPolicy}
    {live : StateProbe} {node : PlanNode} (hd : disposition filter policy live node = .dispatch) :
    filteredOut filter node.op = false := by
  unfold disposition at hd
  split_ifs at hd with hout
  simpa using hout

theorem execute_filterFrames (hhelper : h.HelperConfined)
    (hpass : filteredOut (some isMatch) op = false) (dryRun : Bool) (policy : ConflictPolicy)
    (hreach : ∀ q, Reaches fs op q → isMatch q = true) :
    FilterFrames isMatch fs ((fileRuntime h).execute op dryRun policy fs).2 := by
  rcases filteredOut_eq_false hpass with hnone | ⟨p, hp, hmatch⟩
  · rw [fileRuntime_execute_of_no_path hnone]
    exact .refl isMatch fs
  unfold fileRuntime executeFileOp
  dsimp only
  split_ifs
  · exact .refl isMatch fs
  · exact .refl isMatch fs
  intro q
  rcases applyFileOp_frame hhelper hp fs q with hsame | rfl | hq | ⟨hnone, hdir, hq⟩
  · exact .inl hsame
  · exact .inr (.inl hmatch)
  · exact .inr (.inl (hreach q hq))
  · exact .inr (.inr ⟨hnone, hdir, p, hmatch, hq⟩)

/-- The journal of `mkdir /d; touch /d/x; mv /a /b`. -/
def madeAndMoved : List CaptureEvent :=
  journalOf [.treeOp (.create ⟨1, 2⟩ (ofString "/d") .directory 0o040755),
    .treeOp (.create ⟨1, 3⟩ (ofString "/d/x") .regular 0o100644),
    .treeOp (.rename (ofString "/a") (ofString "/b") ⟨1, 4⟩)]

/-- The tree after `mkdir /d; touch /d/x; mv /a /b`. -/
def madeAndMovedTree : Fs := Fs.ofList [("/d", .dir), ("/d/x", .file []), ("/b", .file [1])]

def madeAndMovedPlan : UndoPlan :=
  plan .silent .insertion plainCommand madeAndMoved (madeAndMovedTree.probe .sample) fullStore

end ShitUndo
