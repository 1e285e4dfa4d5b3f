import ShitUndo.FileExecutor
import ShitUndo.Lib.Transition

/-!
# The parallel runner

`Orchestrator::run_parallel` (`orchestrator.rs`) cuts the plan into runs of adjacent nodes with
the same cohort. For each of these groups it spawns one thread per node, lets at most
`max_parallel` of them into `execute_one` at a time, joins them all and goes on with the next
group unless one of them raised the abort flag.

The threads are a guarded step function: `parStep` says what one step of the main thread or of
one worker does, and an interleaving is a list of such steps. `execute_one` takes two of them,
the checks (`starts`) and the executor call with the end of the op (`ends`), so that other
workers can act in between.

* `ParInv`: what holds after every interleaving.
-/

namespace ShitUndo

open List Transition

open Transition (Runs Precedes)

/-! ## Groups -/

/-- One round of `group_by_cohort`: node `i` joins the last group if that has its cohort. -/
def pushIndex (groups : List (Nat × List Nat)) (i cohort : Nat) : List (Nat × List Nat) :=
  match groups.getLast? with
  | some (c, idx) =>
    if c = cohort then groups.dropLast ++ [(c, idx ++ [i])] else groups ++ [(cohort, [i])]
  | none => [(cohort, [i])]

def groupByCohort (nodes : List PlanNode) : List (Nat × List Nat) :=
  nodes.zipIdx.foldl (fun groups e => pushIndex groups e.2 e.1.cohort) []

/-- The groups are the first `k` nodes in plan order, and each holds nodes of its own cohort. -/
structure GroupsOf (nodes : List PlanNode) (k : Nat) (groups : List (Nat × List Nat)) : Prop where
  indices : groups.flatMap Prod.snd = range k
  cohort : ∀ g ∈ groups, ∀ i ∈ g.2, ∃ node, nodes[i]? = some node ∧ node.cohort = g.1

theorem GroupsOf.push {nodes : List PlanNode} {k : Nat} {groups : List (Nat × List Nat)}
    {node : PlanNode} (hg : GroupsOf nodes k groups) (hk : nodes[k]? = some node) :
    GroupsOf nodes (k + 1) (pushIndex groups k node.cohort) := by
  -- a group of its own
  have hnew : GroupsOf nodes (k + 1) (groups ++ [(node.cohort, [k])]) := by
    refine ⟨by simp [hg.indices, range_succ], fun g hmem i hi => ?_⟩
    rcases mem_append.mp hmem with hmem | hmem
    · exact hg.cohort g hmem i hi
    · rw [mem_singleton.mp hmem] at hi ⊢
      rw [mem_singleton.mp hi]
      exact ⟨node, hk, rfl⟩
  unfold pushIndex
  split
  · rename_i c idx hlast
    split
    · -- the last group grows
      rename_i hc
      have hsplit : groups = groups.dropLast ++ [(c, idx)] :=
        (dropLast_append_getLast? _ hlast).symm
      refine ⟨?_, fun g hmem i hi => ?_⟩
      · have hind := hg.indices
        rw [hsplit] at hind
        simp only [flatMap_append, flatMap_singleton] at hind ⊢
        rw [← append_assoc, hind, range_succ]
      · rcases mem_append.mp hmem with hmem | hmem
        · exact hg.cohort g (dropLast_subset _ hmem) i hi
        rw [mem_singleton.mp hmem] at hi ⊢
        rcases mem_append.mp hi with hi | hi
        · exact hg.cohort (c, idx) (by rw [hsplit]; simp) i hi
        · rw [mem_singleton.mp hi]
          exact ⟨node, hk, hc.symm⟩
    · exact hnew
  · rename_i hnone
    rw [getLast?_eq_none_iff.mp hnone] at hnew
    exact hnew

theorem groupsOf_groupByCohort (nodes : List PlanNode) :
    GroupsOf nodes nodes.length (groupByCohort nodes) := by
  suffices h : ∀ rest k groups, nodes.drop k = rest → GroupsOf nodes k groups →
      GroupsOf nodes (k + rest.length)
        ((rest.zipIdx k).foldl (fun groups e => pushIndex groups e.2 e.1.cohort) groups) by
    have hall := h nodes 0 [] rfl ⟨rfl, by simp⟩
    rw [Nat.zero_add] at hall
    exact hall
  intro rest
  induction rest with
  | nil =>
    intro k groups _ hg
    exact hg
  | cons node rest ih =>
    intro k groups hdrop hg
    have hk : nodes[k]? = some node := by
      rw [← head?_drop, hdrop]
      rfl
    have hnext := ih (k + 1) _ (by rw [← tail_drop, hdrop]; rfl) (hg.push hk)
    rw [length_cons, Nat.add_comm rest.length, ← Nat.add_assoc]
    exact hnext

/-! ## Threads -/

/-- How far a worker thread has come. -/
inductive Worker where
  /-- spinning for a free slot -/
  | waiting
  /-- holds a slot and is about to call `execute_one` -/
  | admitted
  /-- inside `execute_one`, past its checks -/
  | executing (d : Disposition)
  | executed (record : ExecutionRecord)
  /-- has raised the abort flag if its record asks for it -/
  | flagged (record : ExecutionRecord)
  | recorded
  | finished
deriving DecidableEq, Repr

/-- How often the worker has entered `execute_one`. -/
def Worker.entered : Worker → Nat
  | waiting | admitted => 0
  | _ => 1

/-- How often the worker has come back from `execute_one`. -/
def Worker.returned : Worker → Nat
  | waiting | admitted | executing _ => 0
  | _ => 1

theorem Worker.entered_le_one (w : Worker) : w.entered ≤ 1 := by
  cases w <;> simp [entered]

theorem Worker.returned_le_one (w : Worker) : w.returned ≤ 1 := by
  cases w <;> simp [returned]

/-- The arguments of one `run_parallel` call. -/
structure ParallelCall (σ : Type) where
  rt : Runtime σ
  filter : PathsFilter
  nodes : List PlanNode
  dryRun : Bool
  policy : ConflictPolicy
  maxParallel : Nat

/-- The state of a `run_parallel` call. `pending` are the groups the main thread has not entered;
the fields from `inScope` on are those of the current `thread::scope`. -/
structure ParState (σ : Type) where
  world : σ
  records : List (Option ExecutionRecord)
  pending : List (List Nat)
  stopped : Bool
  inScope : Bool
  unspawned : List Nat
  workers : List (Nat × Worker)
  inFlight : Nat
  abortFlag : Bool

/-- Steps of the main thread, and of the worker of node `i`. -/
inductive ParAction where
  | enter
  | spawn
  | leave
  | acquire (i : Nat)
  | starts (i : Nat)
  | ends (i : Nat)
  | flag (i : Nat)
  | record (i : Nat)
  | release (i : Nat)
deriving DecidableEq, Repr

variable {σ : Type} {a : ParAction}

/-- Before the first group. -/
def ParallelCall.initial (call : ParallelCall σ) (world : σ) : ParState σ where
  world := world
  records := replicate call.nodes.length none
  pending := (groupByCohort call.nodes).map Prod.snd
  stopped := false
  inScope := false
  unspawned := []
  workers := []
  inFlight := 0
  abortFlag := false

namespace ParState

/-- The worker of node `i`, if it has been spawned. -/
def worker (s : ParState σ) (i : Nat) : Option Worker := s.workers.lookup i

/-- Let the worker of node `i` move on to `w`. -/
def setWorker (s : ParState σ) (i : Nat) (w : Worker) : ParState σ :=
  { s with workers := s.workers.map fun e => if e.1 = i then (i, w) else e }

end ParState

/-- The end of `execute_one`, once its checks are done: the record and the world. -/
def finishOne (call : ParallelCall σ) (i : Nat) (node : PlanNode) (d : Disposition) (world : σ) :
    ExecutionRecord × σ :=
  match d with
  | .settled kind detail => (recordOf i node.op kind (some detail), world)
  | .dispatch =>
    let r := call.rt.execute node.op call.dryRun call.policy world
    (recordOf i node.op (OutcomeKind.fromOutcome r.1) (outcomeDetail r.1), r.2)

/-- One step of a `run_parallel` call. The executor call of an op is one step: how the system calls
of two ops fall in between each other is not told apart, only when each op starts and ends. -/
def parStep (call : ParallelCall σ) (s : ParState σ) : ParAction → Option (ParState σ)
  | .enter =>
    if s.stopped || s.inScope then none
    else match s.pending with
      | [] => some { s with stopped := true }
      | group :: rest =>
        some { s with
          pending := rest, inScope := true, unspawned := group, inFlight := 0
          abortFlag := false }
  | .spawn =>
    match s.unspawned with
    | [] => none
    | i :: rest => some { s with unspawned := rest, workers := s.workers ++ [(i, .waiting)] }
  | .leave =>
    -- every thread is joined before the scope ends
    if s.inScope ∧ s.unspawned = [] ∧ s.workers.all (fun e => e.2 = .finished) then
      some { s with inScope := false, workers := [], stopped := s.abortFlag }
    else none
  | .acquire i =>
    match s.worker i with
    | some .waiting =>
      if s.inFlight < max call.maxParallel 1 then
        some { s.setWorker i .admitted with inFlight := s.inFlight + 1 }
      else none
    | _ => none
  | .starts i =>
    match s.worker i, call.nodes[i]? with
    | some .admitted, some node =>
      some (s.setWorker i
        (.executing (disposition call.filter call.policy (call.rt.probe s.world) node)))
    | _, _ => none
  | .ends i =>
    match s.worker i, call.nodes[i]? with
    | some (.executing d), some node =>
      let r := finishOne call i node d s.world
      some { s.setWorker i (.executed r.1) with world := r.2 }
    | _, _ => none
  | .flag i =>
    match s.worker i with
    | some (.executed record) =>
      some { s.setWorker i (.flagged record) with
        abortFlag := s.abortFlag || halts call.policy record.outcomeKind }
    | _ => none
  | .record i =>
    match s.worker i with
    | some (.flagged record) =>
      some { s.setWorker i .recorded with records := s.records.set i (some record) }
    | _ => none
  | .release i =>
    match s.worker i with
    | some .recorded => some { s.setWorker i .finished with inFlight := s.inFlight - 1 }
    | _ => none

/-- The records of the report: the slots that were filled. -/
def ParState.report (s : ParState σ) : List ExecutionRecord := s.records.filterMap id

/-! ## What a step does to the threads -/

section Steps

variable {call : ParallelCall σ} {s s' : ParState σ} {i j : Nat} {w w' : Worker}

@[simp] theorem ParState.setWorker_indices :
    (s.setWorker i w).workers.map Prod.fst = s.workers.map Prod.fst := by
  simp only [setWorker, map_map]
  refine map_congr_left fun e _ => ?_
  by_cases he : e.1 = i <;> simp [he]

theorem ParState.mem_setWorker (hmem : (j, w') ∈ (s.setWorker i w).workers) :
    (j = i ∧ w' = w) ∨ (j ≠ i ∧ (j, w') ∈ s.workers) := by
  obtain ⟨e, he, heq⟩ := mem_map.mp hmem
  split at heq
  · cases heq
    exact .inl ⟨rfl, rfl⟩
  · rename_i hne
    subst heq
    exact .inr ⟨hne, he⟩

theorem ParState.mem_of_worker (h : s.worker i = some w) : (i, w) ∈ s.workers := by
  obtain ⟨l₁, l₂, hl, -⟩ := lookup_eq_some_iff.mp h
  rw [hl]
  exact mem_append_right _ mem_cons_self

/-- A worker of node `i` moves on from `w` to `w'`; nothing else about the threads changes. -/
structure Moves (s s' : ParState σ) (i : Nat) (w w' : Worker) : Prop where
  mem : (i, w) ∈ s.workers
  workers : s'.workers = (s.setWorker i w').workers
  unspawned : s'.unspawned = s.unspawned
  pending : s'.pending = s.pending
  inScope : s'.inScope = s.inScope

/-- Everything a step can do, with the state it leads to. -/
inductive ParCase (call : ParallelCall σ) (s : ParState σ) : ParAction → ParState σ → Prop
  | idle (hgo : s.stopped = false) (hscope : s.inScope = false) (hpending : s.pending = []) :
      ParCase call s .enter { s with stopped := true }
  | enter {group : List Nat} {rest : List (List Nat)} (hgo : s.stopped = false)
      (hscope : s.inScope = false) (hpending : s.pending = group :: rest) :
      ParCase call s .enter { s with
        pending := rest, inScope := true, unspawned := group, inFlight := 0
        abortFlag := false }
  | spawn {i : Nat} {rest : List Nat} (hunspawned : s.unspawned = i :: rest) :
      ParCase call s .spawn { s with
        unspawned := rest, workers := s.workers ++ [(i, .waiting)] }
  | leave (hscope : s.inScope = true) (hunspawned : s.unspawned = [])
      (hdone : ∀ e ∈ s.workers, e.2 = .finished) :
      ParCase call s .leave { s with inScope := false, workers := [], stopped := s.abortFlag }
  | acquire {i : Nat} (hw : s.worker i = some .waiting)
      (hslot : s.inFlight < max call.maxParallel 1) :
      ParCase call s (.acquire i) { s.setWorker i .admitted with inFlight := s.inFlight + 1 }
  | starts {i : Nat} {node : PlanNode} (hw : s.worker i = some .admitted)
      (hnode : call.nodes[i]? = some node) :
      ParCase call s (.starts i) (s.setWorker i
        (.executing (disposition call.filter call.policy (call.rt.probe s.world) node)))
  | ends {i : Nat} {node : PlanNode} {d : Disposition} (hw : s.worker i = some (.executing d))
      (hnode : call.nodes[i]? = some node) :
      ParCase call s (.ends i)
        { s.setWorker i (.executed (finishOne call i node d s.world).1) with
          world := (finishOne call i node d s.world).2 }
  | flag {i : Nat} {record : ExecutionRecord} (hw : s.worker i = some (.executed record)) :
      ParCase call s (.flag i) { s.setWorker i (.flagged record) with
        abortFlag := s.abortFlag || halts call.policy record.outcomeKind }
  | record {i : Nat} {record : ExecutionRecord} (hw : s.worker i = some (.flagged record)) :
      ParCase call s (.record i) { s.setWorker i .recorded with
        records := s.records.set i (some record) }
  | release {i : Nat} (hw : s.worker i = some .recorded) :
      ParCase call s (.release i) { s.setWorker i .finished with inFlight := s.inFlight - 1 }

theorem parStep_inv (hstep : parStep call s a = some s') : ParCase call s a s' := by
  cases a with
  | enter =>
    simp only [parStep] at hstep
    split at hstep
    · cases hstep
    rename_i hgo
    rw [Bool.or_eq_true, not_or, Bool.not_eq_true, Bool.not_eq_true] at hgo
    split at hstep
    · cases hstep
      exact .idle hgo.1 hgo.2 ‹_›
    · cases hstep
      exact .enter hgo.1 hgo.2 ‹_›
  | spawn =>
    simp only [parStep] at hstep
    split at hstep
    · cases hstep
    · cases hstep
      exact .spawn ‹_›
  | leave =>
    simp only [parStep] at hstep
    split at hstep
    · rename_i hdone
      obtain ⟨hscope, hunspawned, hdone⟩ := hdone
      cases hstep
      exact .leave hscope hunspawned (by simpa using hdone)
    · cases hstep
  | acquire i =>
    simp only [parStep] at hstep
    split at hstep
    · split at hstep
      · cases hstep
        exact .acquire ‹_› ‹_›
      · cases hstep
    · cases hstep
  | starts i | ends i | flag i | record i | release i =>
    -- one thing to match, and the rule of the action takes what was matched
    simp only [parStep] at hstep
    split at hstep
    · cases hstep
      constructor <;> assumption
    · cases hstep

end Steps

/-! ## Conflicting ops run in plan order -/

/-- The nodes of the current group, in plan order: spawned, then not yet spawned. -/
def ParState.current (s : ParState σ) : List Nat := s.workers.map Prod.fst ++ s.unspawned

/-- All the nodes have the same cohort. -/
def SameCohort (nodes : List PlanNode) (group : List Nat) : Prop :=
  ∀ i ∈ group, ∀ j ∈ group, nodes[i]?.map PlanNode.cohort = nodes[j]?.map PlanNode.cohort

/-- Nodes that overlap are in different cohorts. -/
def Separated (nodes : List PlanNode) : Prop :=
  nodes.Pairwise fun a b => Overlaps a.op b.op → a.cohort ≠ b.cohort

/-- What holds after every interleaving `as` of the threads. -/
structure ParInv (nodes : List PlanNode) (as : List ParAction) (s : ParState σ) : Prop where
  /-- the groups left behind, the current one and the pending ones are the plan, in order -/
  split : ∃ left, left ++ (s.current ++ s.pending.flatten) = range nodes.length ∧
    ∀ i ∈ left, .ends i ∈ as
  idle : s.inScope = false → s.current = []
  cohort : SameCohort nodes s.current
  groups : ∀ g ∈ s.pending, SameCohort nodes g
  fresh : ∀ i ∈ s.unspawned ++ s.pending.flatten, .starts i ∉ as ∧ .ends i ∉ as
  workers : ∀ e ∈ s.workers,
    as.count (.starts e.1) = e.2.entered ∧ as.count (.ends e.1) = e.2.returned
  once : ∀ i, as.count (.starts i) ≤ 1 ∧ as.count (.ends i) ≤ 1
  ordered : ∀ i j, i < j → ∀ a b, nodes[i]? = some a → nodes[j]? = some b →
    Overlaps a.op b.op → Precedes (.ends i) (.starts j) as

section Invariant

variable {nodes : List PlanNode} {as : List ParAction} {s s' : ParState σ} {i j : Nat}
  {w w' : Worker}

theorem ParInv.initial (call : ParallelCall σ) (world : σ) :
    ParInv call.nodes [] (call.initial world) := by
  have hgroups := groupsOf_groupByCohort call.nodes
  refine ⟨⟨[], ?_, by simp⟩, fun _ => rfl, by simp [ParState.current, ParallelCall.initial,
    SameCohort], ?_, by simp, by simp [ParallelCall.initial], by simp, fun _ _ _ _ _ _ _ _ =>
    precedes_nil⟩
  · rw [← hgroups.indices, flatMap_def]
    rfl
  · intro g hg i hi j hj
    obtain ⟨e, he, rfl⟩ := mem_map.mp hg
    obtain ⟨m, hm, hcm⟩ := hgroups.cohort e he i hi
    obtain ⟨n, hn, hcn⟩ := hgroups.cohort e he j hj
    simp [hm, hn, hcm, hcn]

section

variable (hinv : ParInv nodes as s)

include hinv

theorem ParInv.ended_of_overlap (hsep : Separated nodes)
    (hmem : j ∈ s.workers.map Prod.fst) (hij : i < j) {m n : PlanNode} (hm : nodes[i]? = some m)
    (hn : nodes[j]? = some n) (hoverlap : Overlaps m.op n.op) : .ends i ∈ as := by
  obtain ⟨left, hsplit, hended⟩ := hinv.split
  have hcur : j ∈ s.current := mem_append_left _ hmem
  have hrange : i ∈ left ++ (s.current ++ s.pending.flatten) := by
    rw [hsplit, mem_range]
    exact (List.getElem?_eq_some_iff.mp hm).1
  have hsorted : (left ++ (s.current ++ s.pending.flatten)).Pairwise (· < ·) := by
    rw [hsplit]
    exact pairwise_lt_range
  rcases mem_append.mp hrange with hleft | hrest
  · exact hended i hleft
  rcases mem_append.mp hrest with hcur' | hpending
  · -- one group: the same cohort, which overlapping nodes never share
    obtain ⟨hi, rfl⟩ := List.getElem?_eq_some_iff.mp hm
    obtain ⟨hj, rfl⟩ := List.getElem?_eq_some_iff.mp hn
    have hsame := hinv.cohort i hcur' j hcur
    rw [getElem?_eq_getElem hi, getElem?_eq_getElem hj] at hsame
    exact absurd (Option.some.inj hsame) (pairwise_iff_getElem.mp hsep i j hi hj hij hoverlap)
  · -- a later group comes later in the plan
    have hrest := (pairwise_append.mp hsorted).2.1
    have hlt := (pairwise_append.mp hrest).2.2 j hcur i hpending
    omega

theorem ParInv.nodup :
    (s.workers.map Prod.fst ++ (s.unspawned ++ s.pending.flatten)).Nodup := by
  obtain ⟨left, hsplit, -⟩ := hinv.split
  have hnodup : (left ++ (s.current ++ s.pending.flatten)).Nodup := hsplit ▸ nodup_range
  rw [ParState.current, append_assoc] at hnodup
  exact (nodup_append.mp hnodup).2.1

/-- A step of a worker that does not enter or leave `execute_one` more than its new place says. -/
theorem ParInv.moves (hmoves : Moves s s' i w w')
    (hcount : ∀ j, j ≠ i → (as ++ [a]).count (.starts j) = as.count (.starts j) ∧
      (as ++ [a]).count (.ends j) = as.count (.ends j))
    (hself : (as ++ [a]).count (.starts i) = w'.entered ∧ (as ++ [a]).count (.ends i) = w'.returned)
    (hordered : ∀ i j, i < j → ∀ m n, nodes[i]? = some m → nodes[j]? = some n →
      Overlaps m.op n.op → Precedes (.ends i) (.starts j) (as ++ [a])) :
    ParInv nodes (as ++ [a]) s' := by
  have hcurrent : s'.current = s.current := by
    rw [ParState.current, hmoves.workers, ParState.setWorker_indices, hmoves.unspawned]
    rfl
  obtain ⟨left, hsplit, hended⟩ := hinv.split
  refine ⟨⟨left, ?_, fun k hk => mem_append_left _ (hended k hk)⟩, ?_, ?_, ?_, ?_, ?_, ?_, hordered⟩
  · rw [hcurrent, hmoves.pending]
    exact hsplit
  · rw [hmoves.inScope, hcurrent]
    exact hinv.idle
  · rw [hcurrent]
    exact hinv.cohort
  · rw [hmoves.pending]
    exact hinv.groups
  · intro k hk
    rw [hmoves.unspawned, hmoves.pending] at hk
    have hne : k ≠ i := by
      rintro rfl
      exact (nodup_append.mp hinv.nodup).2.2 k (mem_map.mpr ⟨_, hmoves.mem, rfl⟩) k hk rfl
    obtain ⟨hstarts, hends⟩ := hcount k hne
    rw [← count_eq_zero, ← count_eq_zero, hstarts, hends, count_eq_zero, count_eq_zero]
    exact hinv.fresh k hk
  · rintro ⟨k, v⟩ hv
    rw [hmoves.workers] at hv
    rcases ParState.mem_setWorker hv with ⟨rfl, rfl⟩ | ⟨hne, hv⟩
    · exact hself
    · rw [(hcount k hne).1, (hcount k hne).2]
      exact hinv.workers (k, v) hv
  · intro k
    by_cases hk : k = i
    · rw [hk, hself.1, hself.2]
      exact ⟨w'.entered_le_one, w'.returned_le_one⟩
    · rw [(hcount k hk).1, (hcount k hk).2]
      exact hinv.once k

theorem ParInv.ordered_concat (ha : ∀ j, a ≠ .starts j) (i j : Nat)
    (hij : i < j) (m n : PlanNode) (hm : nodes[i]? = some m) (hn : nodes[j]? = some n)
    (hoverlap : Overlaps m.op n.op) : Precedes (.ends i) (.starts j) (as ++ [a]) :=
  precedes_concat (hinv.ordered i j hij m n hm hn hoverlap)
    fun heq => absurd heq (ha j)

theorem ParInv.moves_on (hmoves : Moves s s' i w w')
    (hentered' : w'.entered = w.entered) (hreturned' : w'.returned = w.returned)
    (hstarts : ∀ j, a ≠ .starts j) (hends : ∀ j, a ≠ .ends j) : ParInv nodes (as ++ [a]) s' := by
  obtain ⟨hentered, hreturned⟩ := hinv.workers _ hmoves.mem
  refine hinv.moves hmoves (fun j _ => ?_) ?_ (hinv.ordered_concat hstarts)
  · simp [count_append, hstarts j, hends j]
  · simp [count_append, hstarts, hends, hentered, hreturned, hentered', hreturned']

end

theorem ParInv.step {call : ParallelCall σ} (hinv : ParInv call.nodes as s)
    (hsep : Separated call.nodes) (hstep : parStep call s a = some s') :
    ParInv call.nodes (as ++ [a]) s' := by
  obtain ⟨left, hsplit, hended⟩ := hinv.split
  cases parStep_inv hstep with
  | idle hgo hscope hpending =>
    refine ⟨⟨left, hsplit, fun k hk => mem_append_left _ (hended k hk)⟩, hinv.idle,
      hinv.cohort, hinv.groups, ?_, ?_, ?_, hinv.ordered_concat (by simp)⟩
    · simpa using hinv.fresh
    · simpa using hinv.workers
    · simpa using hinv.once
  | @enter group rest hgo hscope hpending =>
    -- the next group becomes the current one
    have hempty := hinv.idle hscope
    obtain ⟨hworkers, hunspawned⟩ := append_eq_nil_iff.mp hempty
    rw [hempty, hpending] at hsplit
    have hfresh := hinv.fresh
    rw [hpending, hunspawned] at hfresh
    refine ⟨⟨left, ?_, fun k hk => mem_append_left _ (hended k hk)⟩, by simp, ?_, ?_, ?_,
      ?_, ?_, hinv.ordered_concat (by simp)⟩
    · simpa [ParState.current, hworkers] using hsplit
    · simp only [ParState.current, hworkers, nil_append]
      exact hinv.groups group (hpending ▸ mem_cons_self)
    · exact fun g hg => hinv.groups g (hpending ▸ mem_cons_of_mem _ hg)
    · simpa using hfresh
    · simpa using hinv.workers
    · simpa using hinv.once
  | @spawn k rest hunspawned =>
    have hcurrent : ∀ t : ParState σ, t.workers = s.workers ++ [(k, .waiting)] →
        t.unspawned = rest → t.current = s.current := by
      intro t hw hu
      simp [ParState.current, hw, hu, hunspawned]
    have hnew := hinv.fresh k (by simp [hunspawned])
    refine ⟨⟨left, ?_, fun k hk => mem_append_left _ (hended k hk)⟩, ?_, ?_, hinv.groups, ?_,
      ?_, ?_, hinv.ordered_concat (by simp)⟩
    · rw [hcurrent _ rfl rfl]
      exact hsplit
    · rw [hcurrent _ rfl rfl]
      exact hinv.idle
    · rw [hcurrent _ rfl rfl]
      exact hinv.cohort
    · intro n hn
      simpa using hinv.fresh n (by rw [hunspawned]; exact mem_cons_of_mem _ hn)
    · intro e he
      rcases mem_append.mp he with he | he
      · simpa using hinv.workers e he
      · rw [mem_singleton.mp he]
        simpa [Worker.entered, Worker.returned, count_eq_zero] using hnew
    · simpa using hinv.once
  | leave hscope hunspawned hdone =>
    -- every worker of the group has come back: the group is left behind
    refine ⟨⟨left ++ s.workers.map Prod.fst, ?_, ?_⟩, fun _ => ?_, ?_, hinv.groups, ?_, by simp, ?_,
      hinv.ordered_concat (by simp)⟩
    · simpa [ParState.current, hunspawned] using hsplit
    · intro k hk
      refine mem_append_left _ ?_
      rcases mem_append.mp hk with hk | hk
      · exact hended k hk
      · obtain ⟨e, he, rfl⟩ := mem_map.mp hk
        have hcount := (hinv.workers e he).2
        rw [hdone e he] at hcount
        exact count_pos_iff.mp (by rw [hcount]; decide)
    · simp [ParState.current, hunspawned]
    · simp [ParState.current, hunspawned, SameCohort]
    · simpa using hinv.fresh
    · simpa using hinv.once
  | @starts k node hw hnode =>
    have hmem := ParState.mem_of_worker hw
    obtain ⟨hentered, hreturned⟩ := hinv.workers _ hmem
    refine hinv.moves ⟨hmem, rfl, rfl, rfl, rfl⟩ (fun j hj => ?_) ?_
      fun i j hij m n hm hn hoverlap => ?_
    · simp [count_append, Ne.symm hj]
    · simp [count_append, hentered, hreturned, Worker.entered, Worker.returned]
    · refine precedes_concat (hinv.ordered i j hij m n hm hn hoverlap) fun heq => ?_
      cases heq
      exact hinv.ended_of_overlap hsep (mem_map.mpr ⟨_, hmem, rfl⟩) hij hm hn hoverlap
  | ends hw hnode =>
    have hmem := ParState.mem_of_worker hw
    obtain ⟨hentered, hreturned⟩ := hinv.workers _ hmem
    refine hinv.moves ⟨hmem, rfl, rfl, rfl, rfl⟩ (fun j hj => ?_) ?_ (hinv.ordered_concat (by simp))
    · simp [count_append, Ne.symm hj]
    · simp [count_append, hentered, hreturned, Worker.entered, Worker.returned]
  | acquire hw hfree | flag hw | record hw | release hw =>
    exact hinv.moves_on ⟨ParState.mem_of_worker hw, rfl, rfl, rfl, rfl⟩ rfl rfl (by simp) (by simp)

end Invariant

/-- For every plan with cohorts from the cohort pass and every interleaving of the threads: no op
is executed twice, and of two ops that touch a common path or inode the one later in the plan
starts after the end of the other. -/
theorem conflicting_ops_in_plan_order (call : ParallelCall σ) (nodes : List PlanNode)
    (hnodes : call.nodes = assignCohorts nodes) (world : σ) (as : List ParAction)
    (s : ParState σ) (hrun : Runs (parStep call) (call.initial world) as s) :
    (∀ i, as.count (.starts i) ≤ 1 ∧ as.count (.ends i) ≤ 1) ∧
      ∀ i j, i < j → ∀ a b, call.nodes[i]? = some a → call.nodes[j]? = some b →
        Overlaps a.op b.op → Precedes (.ends i) (.starts j) as := by
  have hsep : Separated call.nodes := hnodes ▸ assignCohorts_separates nodes
  have hinv : ParInv call.nodes as s :=
    hrun.invariant (P := ParInv call.nodes) (ParInv.initial call world)
      fun _ _ _ _ _ hinv hstep => hinv.step hsep hstep
  exact ⟨hinv.once, hinv.ordered⟩

/-- A link is put back where a file was created: the two ops fall into two groups. -/
theorem replaced_link_in_plan_order :
    let call : ParallelCall Fs :=
      { rt := fileRuntime .sample, filter := none, dryRun := false, policy := .abort
        maxParallel := 4
        nodes := assignCohorts
          [.fresh (.unlink (PathBuf.ofString "/a")) none,
           .fresh (.createSymlink "b" (PathBuf.ofString "/a")) none] }
    let as := [ParAction.enter, .spawn, .acquire 0, .starts 0, .ends 0, .flag 0, .record 0,
      .release 0, .leave, .enter, .spawn, .acquire 1, .starts 1, .ends 1]
    ∃ s, Runs (parStep call) (call.initial (Fs.ofList [("/a", .file [1])])) as s ∧
      Precedes (.ends 0) (.starts 1) as := by
  intro call as
  have hruns : (as.foldlM (parStep call)
      (call.initial (Fs.ofList [("/a", .file [1])]))).isSome := by decide
  obtain ⟨s, hs⟩ := Option.isSome_iff_exists.mp hruns
  exact ⟨s, hs, (conflicting_ops_in_plan_order call _ rfl _ as s hs).2 0 1 (by decide) _ _ rfl rfl
    (by decide)⟩

end ShitUndo
