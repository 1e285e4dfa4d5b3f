import ShitUndo.Inverse
import ShitUndo.Lib.FirstFit

/-!
# Cohort assignment

`cohort.rs`: a greedy pass that puts each node into the first cohort none of whose earlier nodes
touches the same path or inode. It only writes the `cohort` field: ops, conflicts and order of
the nodes are untouched (`assignCohorts_map_of_ignores`), which is all the sequential runner
depends on.
-/

namespace ShitUndo

open List PathBuf PlanNode

/-- `TouchKey`: a path or inode an op writes or depends on. -/
inductive TouchKey where
  | path (p : PathBuf)
  | inode (i : InodeRef)
deriving DecidableEq, Repr

def touches : InverseOp → List TouchKey
  | .rename src dst => [.path src, .path dst]
  | .restoreContent inode path _ => [.path path, .inode inode]
  | .restoreMetadata inode path _ => [.path path, .inode inode]
  | .restoreFlags inode path _ => [.path path, .inode inode]
  | .unlink path => [.path path]
  | .recreatePath path _ _ => [.path path]
  | .createSymlink _ path => [.path path]
  | .fileExtend path _ => [.path path]
  | .createHardlink source target => [.path source, .path target]
  | _ => []

/-- The ops touch a common path or inode. -/
def Overlaps (a b : InverseOp) : Prop := ∃ k ∈ touches a, k ∈ touches b

instance : DecidableRel Overlaps := fun a b =>
  inferInstanceAs (Decidable (∃ k ∈ touches a, k ∈ touches b))

/-- The first cohort whose keys are disjoint from `keys`; one past the end if there is none. -/
def chooseCohort (keys : List TouchKey) (cohortTouches : List (List TouchKey)) : Nat :=
  cohortTouches.findIdx (fun existing => keys.all (fun k => !existing.contains k))

/-- Add `keys` to cohort `idx`, opening it if it is new. -/
def insertKeys (cohortTouches : List (List TouchKey)) (idx : Nat) (keys : List TouchKey) :
    List (List TouchKey) :=
  if idx < cohortTouches.length then cohortTouches.modify idx (keys ++ ·)
  else cohortTouches ++ [keys]

/-- The loop of `assign_cohorts`, with the per-cohort key sets as accumulator. -/
def assignCohortsFrom : List (List TouchKey) → List PlanNode → List PlanNode
  | _, [] => []
  | cohortTouches, node :: rest =>
    let keys := touches node.op
    if keys = [] then
      -- informational op: always cohort 0, which is opened if nothing is assigned yet
      let opened := if cohortTouches = [] then [[]] else cohortTouches
      { node with cohort := 0 } :: assignCohortsFrom opened rest
    else
      let idx := chooseCohort keys cohortTouches
      { node with cohort := idx } :: assignCohortsFrom (insertKeys cohortTouches idx keys) rest

def assignCohorts (nodes : List PlanNode) : List PlanNode :=
  assignCohortsFrom [] nodes

theorem assignCohortsFrom_map_of_ignores {α : Type} {f : PlanNode → α}
    (hf : ∀ node c, f { node with cohort := c } = f node) (ct : List (List TouchKey))
    (nodes : List PlanNode) :
    (assignCohortsFrom ct nodes).map f = nodes.map f := by
  induction nodes generalizing ct with
  | nil => rfl
  | cons node rest ih =>
    simp only [assignCohortsFrom]
    split <;> simp [hf, ih]

theorem assignCohorts_map_of_ignores {α : Type} {f : PlanNode → α}
    (hf : ∀ node c, f { node with cohort := c } = f node) (nodes : List PlanNode) :
    (assignCohorts nodes).map f = nodes.map f :=
  assignCohortsFrom_map_of_ignores hf [] nodes

/-! ## The pass as a first-fit colouring -/

section FirstFit

variable {ct : List (List TouchKey)} {earlier : List (InverseOp × Nat)} {keys : List TouchKey}
  {op : InverseOp} {idx c : Nat} {k : TouchKey}

/-- Key `k` is recorded for cohort `c`. -/
def Recorded (ct : List (List TouchKey)) (c : Nat) (k : TouchKey) : Prop :=
  ∃ ks, ct[c]? = some ks ∧ k ∈ ks

/-- The accumulator records for each cohort exactly the keys of the ops put into it so far. -/
def Tracks (ct : List (List TouchKey)) (earlier : List (InverseOp × Nat)) : Prop :=
  ∀ c k, Recorded ct c k ↔ ∃ e ∈ earlier, e.2 = c ∧ k ∈ touches e.1

theorem chooseCohort_le : chooseCohort keys ct ≤ ct.length :=
  findIdx_le_length

theorem not_recorded_chooseCohort (hk : k ∈ keys) : ¬ Recorded ct (chooseCohort keys ct) k := by
  rintro ⟨ks, hks, hmem⟩
  obtain ⟨hlt, rfl⟩ := List.getElem?_eq_some_iff.mp hks
  have hfree := findIdx_getElem (w := hlt)
  have hno := all_eq_true.mp hfree k hk
  rw [Bool.not_eq_true', ← Bool.not_eq_true, contains_iff_mem] at hno
  exact hno hmem

theorem recorded_of_lt_chooseCohort (h : c < chooseCohort keys ct) :
    ∃ k ∈ keys, Recorded ct c k := by
  have hlt : c < ct.length := h.trans_le chooseCohort_le
  have htaken : (keys.all fun k => !ct[c].contains k) = false := not_of_lt_findIdx h
  obtain ⟨k, hk, hmem⟩ := all_eq_false.mp htaken
  refine ⟨k, hk, ct[c], getElem?_eq_getElem hlt, ?_⟩
  simpa using hmem

theorem recorded_insertKeys (hidx : idx ≤ ct.length) :
    Recorded (insertKeys ct idx keys) c k ↔ Recorded ct c k ∨ (c = idx ∧ k ∈ keys) := by
  unfold Recorded insertKeys
  split
  · rename_i hlt
    by_cases hc : idx = c
    · subst hc
      simp [getElem?_eq_getElem hlt, or_comm]
    · simp [hc, Ne.symm hc]
  · rename_i hge
    have hlen : idx = ct.length := by omega
    subst hlen
    rcases Nat.lt_trichotomy c ct.length with hlt | rfl | hgt
    · simp [getElem?_append_left hlt, hlt.ne]
    · simp
    · have hnone : (ct ++ [keys])[c]? = none := getElem?_eq_none (by simp; omega)
      simp [hnone, getElem?_eq_none hgt.le, hgt.ne']

section

variable (h : Tracks ct earlier)

include h

theorem Tracks.isFirstFree (op : InverseOp) :
    FirstFit.IsFirstFree Overlaps earlier op (chooseCohort (touches op) ct) := by
  constructor
  · rintro e he ⟨k, hk, hop⟩ heq
    exact not_recorded_chooseCohort hop ((h _ k).mpr ⟨e, he, heq, hk⟩)
  · intro m hm
    obtain ⟨k, hk, hrec⟩ := recorded_of_lt_chooseCohort hm
    obtain ⟨e, he, hcohort, hke⟩ := (h m k).mp hrec
    exact ⟨e, he, ⟨k, hke, hk⟩, hcohort⟩

theorem Tracks.insert (hidx : idx ≤ ct.length) :
    Tracks (insertKeys ct idx (touches op)) (earlier ++ [(op, idx)]) := by
  intro c k
  rw [recorded_insertKeys hidx, h c k]
  constructor
  · rintro (⟨e, he, hrest⟩ | ⟨rfl, hk⟩)
    · exact ⟨e, mem_append_left _ he, hrest⟩
    · exact ⟨(op, c), mem_append_right _ (mem_singleton_self _), rfl, hk⟩
  · rintro ⟨e, he, hcohort, hk⟩
    rcases mem_append.mp he with he | he
    · exact .inl ⟨e, he, hcohort, hk⟩
    · rw [mem_singleton] at he
      subst he
      exact .inr ⟨hcohort.symm, hk⟩

theorem Tracks.open (hop : touches op = []) :
    Tracks (if ct = [] then [[]] else ct) (earlier ++ [(op, 0)]) := by
  intro c k
  have hrec : Recorded (if ct = [] then [[]] else ct) c k ↔ Recorded ct c k := by
    split
    · rename_i hnil
      subst hnil
      cases c <;> simp [Recorded]
    · exact Iff.rfl
  rw [hrec, h c k]
  simp [hop]

theorem greedy_assignCohortsFrom (nodes : List PlanNode) :
    FirstFit.Greedy Overlaps earlier
      ((assignCohortsFrom ct nodes).map fun n => (n.op, n.cohort)) := by
  induction nodes generalizing ct earlier with
  | nil => trivial
  | cons node rest ih =>
    rw [assignCohortsFrom]
    split
    · -- informational op: it overlaps nothing, so cohort 0 is free
      rename_i hnil
      refine ⟨⟨?_, fun m hm => absurd hm (Nat.not_lt_zero m)⟩, ih (h.open hnil)⟩
      rintro e - ⟨k, -, hk⟩
      exact absurd hk (by simp [hnil])
    · exact ⟨h.isFirstFree node.op, ih (h.insert chooseCohort_le)⟩

end

theorem greedy_assignCohorts (nodes : List PlanNode) :
    FirstFit.Greedy Overlaps [] ((assignCohorts nodes).map fun n => (n.op, n.cohort)) :=
  greedy_assignCohortsFrom (fun c k => by simp [Recorded]) nodes

theorem assignCohorts_separates (nodes : List PlanNode) :
    (assignCohorts nodes).Pairwise fun a b => Overlaps a.op b.op → a.cohort ≠ b.cohort := by
  simpa only [pairwise_map] using (greedy_assignCohorts nodes).proper

end FirstFit

/-! ## Order of the cohorts -/

/-- Of two nodes that overlap, the one later in the plan is in a later cohort. -/
def CohortOrder (nodes : List PlanNode) : Prop :=
  nodes.Pairwise fun a b => Overlaps a.op b.op → a.cohort < b.cohort

instance (nodes : List PlanNode) : Decidable (CohortOrder nodes) :=
  inferInstanceAs (Decidable (nodes.Pairwise _))

/-- No op skips a layer: with each op's layer the length of the longest chain of overlapping ops
that ends in it, an op that overlaps an earlier op of some layer overlaps earlier ops of all the
layers below. -/
def ChainsGapFree (ops : List InverseOp) : Prop := FirstFit.GapFree Overlaps [] ops

/-- The cohorts respect the plan order of overlapping nodes exactly when no op skips a layer. -/
theorem cohortOrder_iff_gapFree (nodes : List PlanNode) :
    CohortOrder (assignCohorts nodes) ↔ ChainsGapFree (nodes.map op) := by
  have hops : ((assignCohorts nodes).map fun n => (n.op, n.cohort)).map Prod.fst =
      nodes.map op := by
    rw [map_map]
    exact assignCohorts_map_of_ignores (fun _ _ => rfl) nodes
  rw [ChainsGapFree, ← hops, ← (greedy_assignCohorts nodes).increasing_iff, pairwise_map]
  exact Iff.rfl

/-- The rename is held back to cohort 1 by the first op; the last op, free of the first one's
keys, falls into cohort 0, before the rename it has a path in common with. -/
theorem unlink_overtakes_rename :
    ¬ CohortOrder (assignCohorts
      [fresh (.unlink (ofString "/a")) none,
       fresh (.rename (ofString "/a") (ofString "/b")) none,
       fresh (.unlink (ofString "/b")) none]) := by
  decide

end ShitUndo
