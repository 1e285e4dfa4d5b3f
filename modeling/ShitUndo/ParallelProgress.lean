import Mathlib.Algebra.GroupWithZero.Nat
import ShitUndo.Parallel

/-!
# The parallel runner comes to an end

`run_parallel` spins for a free slot and joins threads, so that it returns is not seen from its
text. Here it is shown for every interleaving.

* `ParState.remaining`: how many steps are left at most, one less after every step;
* `SlotInv`: the semaphore counts the workers between `acquire` and `release`.
-/

namespace ShitUndo

open List Worker ParState Bool

open Transition (Runs)

variable {σ : Type} {i : Nat}

/-! ## Sums over the workers -/

section Sums

variable {s : ParState σ} {w w' : Worker}

/-- A sum over the workers. -/
def ParState.total (s : ParState σ) (f : Worker → Nat) : Nat :=
  (s.workers.map fun e => f e.2).sum

theorem ParState.total_setWorker (f : Worker → Nat) (hnodup : (s.workers.map Prod.fst).Nodup)
    (hmem : (i, w) ∈ s.workers) :
    (s.setWorker i w').total f + f w = s.total f + f w' := by
  simp only [total, setWorker]
  generalize s.workers = workers at hnodup hmem ⊢
  induction workers with
  | nil => cases hmem
  | cons e rest ih =>
    rw [map_cons, nodup_cons] at hnodup
    obtain ⟨hfirst, hnodup⟩ := hnodup
    rcases mem_cons.mp hmem with heq | hrest
    · -- the others have other positions
      have hsame : (rest.map fun e => if e.1 = i then (i, w') else e) = rest := by
        refine (map_congr_left ?_).trans (map_id rest)
        intro e' he'
        refine if_neg ?_
        rintro rfl
        rw [← heq] at hfirst
        exact hfirst (mem_map.mpr ⟨e', he', rfl⟩)
      rw [← heq, map_cons, hsame]
      simp only [if_true, map_cons, sum_cons]
      omega
    · have hne : e.1 ≠ i := by
        rintro rfl
        exact hfirst (mem_map.mpr ⟨_, hrest, rfl⟩)
      have hih := ih hnodup hrest
      simp only [map_cons, if_neg hne, sum_cons]
      omega

end Sums

/-! ## Every run is bounded -/

/-- Steps a worker has before it. -/
def Worker.remaining : Worker → Nat
  | waiting => 6
  | admitted => 5
  | executing _ => 4
  | executed _ => 3
  | flagged _ => 2
  | recorded => 1
  | finished => 0

/-- A bound on the steps a call has before it. -/
def ParState.remaining (s : ParState σ) : Nat :=
  s.stopped.not.toNat + s.inScope.toNat + s.total Worker.remaining + 7 * s.unspawned.length +
    (s.pending.map fun group => 7 * group.length + 2).sum

/-- Whether a worker holds a slot. -/
def Worker.slot : Worker → Nat
  | waiting | finished => 0
  | _ => 1

/-- A call that is in a scope has not stopped, and its semaphore counts the workers that hold a
slot. -/
structure SlotInv (s : ParState σ) : Prop where
  running : s.inScope = true → s.stopped = false
  slots : s.inScope = true → s.inFlight = s.total slot

section Progress

variable {call : ParallelCall σ} {s s' : ParState σ} {a : ParAction} {as : List ParAction}
  {w w' : Worker}

theorem SlotInv.initial (call : ParallelCall σ) (world : σ) : SlotInv (call.initial world) :=
  ⟨nofun, nofun⟩

theorem ParState.total_eq_zero {f : Worker → Nat} (hzero : ∀ e ∈ s.workers, f e.2 = 0) :
    s.total f = 0 := by
  rw [total, map_congr_left hzero]
  simp

section Step

variable (hinv : ParInv call.nodes as s)

include hinv

theorem ParInv.nodup_workers : (s.workers.map Prod.fst).Nodup :=
  (nodup_append.mp hinv.nodup).1

theorem ParInv.inScope_of_worker (hw : s.worker i = some w) :
    s.inScope = true := by
  rw [← not_eq_false]
  intro hscope
  have hnone := (append_eq_nil_iff.mp (hinv.idle hscope)).1
  rw [map_eq_nil_iff] at hnone
  have hmem := mem_of_worker hw
  rw [hnone] at hmem
  cases hmem

theorem ParInv.total_moves (hw : s.worker i = some w) (w' : Worker) (f : Worker → Nat) :
    (s.setWorker i w').total f + f w = s.total f + f w' :=
  total_setWorker f hinv.nodup_workers (mem_of_worker hw)

theorem SlotInv.moves (hslot : SlotInv s)
    (hw : s.worker i = some w) (hworkers : s'.workers = (s.setWorker i w').workers)
    (hstopped : s'.stopped = s.stopped)
    (hcount : s'.inFlight + w.slot = s.inFlight + w'.slot) : SlotInv s' := by
  have hscope := hinv.inScope_of_worker hw
  constructor
  · intro _
    rw [hstopped]
    exact hslot.running hscope
  · intro _
    have hmoves := hinv.total_moves hw w' slot
    have hold := hslot.slots hscope
    have htotal : s'.total slot = (s.setWorker i w').total Worker.slot := by
      rw [total, hworkers]
      rfl
    omega

theorem SlotInv.step (hslot : SlotInv s) (hstep : parStep call s a = some s') : SlotInv s' := by
  cases parStep_inv hstep with
  | idle hgo hscope hpending =>
    constructor
    · intro hin
      exact absurd hin (by rw [hscope]; decide)
    · intro hin
      exact hslot.slots hin
  | enter hgo hscope hpending =>
    refine ⟨fun _ => hgo, ?_⟩
    intro _
    have hnone := (append_eq_nil_iff.mp (hinv.idle hscope)).1
    rw [map_eq_nil_iff] at hnone
    simp [total, hnone]
  | spawn hunspawned =>
    refine ⟨hslot.running, ?_⟩
    intro hin
    have hold := hslot.slots hin
    simp only [total, map_append, map_cons, map_nil, sum_append, sum_singleton, slot] at hold ⊢
    exact hold
  | leave hscope hunspawned hdone => exact ⟨nofun, nofun⟩
  | acquire hw hfree | starts hw hnode | ends hw hnode | flag hw | record hw =>
    exact hslot.moves hinv hw rfl rfl rfl
  | release hw =>
    -- the worker's own slot is among those counted
    have hmoves := hinv.total_moves hw .finished slot
    have hold := hslot.slots (hinv.inScope_of_worker hw)
    refine hslot.moves hinv hw rfl rfl ?_
    simp only [slot] at hmoves ⊢
    omega

theorem ParInv.remaining_moves (hw : s.worker i = some w)
    (hworkers : s'.workers = (s.setWorker i w').workers) (hstopped : s'.stopped = s.stopped)
    (hscope : s'.inScope = s.inScope) (hunspawned : s'.unspawned = s.unspawned)
    (hpending : s'.pending = s.pending) (hless : w'.remaining + 1 = w.remaining) :
    s'.remaining + 1 = s.remaining := by
  have hmoves := hinv.total_moves hw w' remaining
  have htotal : s'.total remaining = (s.setWorker i w').total Worker.remaining := by
    rw [total, hworkers]
    rfl
  simp only [ParState.remaining, hstopped, hscope, hunspawned, hpending]
  omega

/-- **Every step is one less to go.** -/
theorem remaining_step (hslot : SlotInv s)
    (hstep : parStep call s a = some s') : s'.remaining + 1 ≤ s.remaining := by
  cases parStep_inv hstep with
  | idle hgo hscope hpending =>
    simp only [ParState.remaining, ParState.total, hgo, Bool.not_true, Bool.not_false,
      Bool.toNat_false, Bool.toNat_true]
    omega
  | enter hgo hscope hpending =>
    have hnone := (append_eq_nil_iff.mp (hinv.idle hscope)).2
    simp only [ParState.remaining, ParState.total, hscope, hnone, hpending, Bool.toNat_false,
      Bool.toNat_true, map_cons, sum_cons, length_nil]
    omega
  | spawn hunspawned =>
    simp only [ParState.remaining, ParState.total, hunspawned, map_append, map_cons,
      map_nil, sum_append, sum_singleton, Worker.remaining, length_cons]
    omega
  | leave hscope hunspawned hdone =>
    have hflag : s.abortFlag.not.toNat ≤ 1 := by
      cases s.abortFlag <;> decide
    simp only [ParState.remaining, ParState.total, hscope, hslot.running hscope, Bool.not_false,
      Bool.toNat_false, Bool.toNat_true, map_nil, sum_nil]
    omega
  | acquire hw hfree | starts hw hnode | ends hw hnode | flag hw | record hw | release hw =>
    exact (hinv.remaining_moves hw rfl rfl rfl rfl rfl rfl).le

/-! ## No deadlock -/

theorem ParInv.worker_of_mem (hmem : (i, w) ∈ s.workers) :
    s.worker i = some w := by
  have hnodup := hinv.nodup_workers
  obtain ⟨before, after, hsplit⟩ := append_of_mem hmem
  refine lookup_eq_some_iff.mpr ⟨before, after, hsplit, ?_⟩
  intro e he
  rw [hsplit, map_append, map_cons, nodup_append] at hnodup
  have hne := hnodup.2.2 e.1 (mem_map.mpr ⟨e, he, rfl⟩) i (by simp)
  simpa using hne.symm

theorem ParInv.node_of_mem (hmem : i ∈ s.current) :
    ∃ node, call.nodes[i]? = some node := by
  obtain ⟨left, hsplit, -⟩ := hinv.split
  have hrange : i ∈ range call.nodes.length := by
    rw [← hsplit]
    simp [hmem]
  exact ⟨_, getElem?_eq_getElem (mem_range.mp hrange)⟩

theorem ParInv.moves_of_slot (hmem : (i, w) ∈ s.workers)
    (hslot : w.slot ≠ 0) : ∃ a s', parStep call s a = some s' := by
  have hw := hinv.worker_of_mem hmem
  obtain ⟨node, hnode⟩ := hinv.node_of_mem (i := i)
    (mem_append_left _ (mem_map.mpr ⟨_, hmem, rfl⟩))
  cases w with
  | waiting | finished => exact absurd rfl hslot
  | admitted => exact ⟨.starts i, _, by simp only [parStep, hw, hnode]; rfl⟩
  | executing d => exact ⟨.ends i, _, by simp only [parStep, hw, hnode]; rfl⟩
  | executed record => exact ⟨.flag i, _, by simp only [parStep, hw]; rfl⟩
  | flagged record => exact ⟨.record i, _, by simp only [parStep, hw]; rfl⟩
  | recorded => exact ⟨.release i, _, by simp only [parStep, hw]; rfl⟩

/-- **No deadlock**: where no thread can move, the call has returned. -/
theorem stopped_of_stuck (hslot : SlotInv s)
    (hstuck : ∀ a, parStep call s a = none) : s.stopped = true := by
  by_contra hgo
  rw [not_eq_true] at hgo
  have hno : ¬ ∃ a s', parStep call s a = some s' := by
    rintro ⟨a, s', hstep⟩
    rw [hstuck a] at hstep
    cases hstep
  cases hscope : s.inScope with
  | false =>
    cases hpending : s.pending with
    | nil | cons group rest =>
      exact hno ⟨.enter, _, by simp only [parStep, hgo, hscope, hpending]; rfl⟩
  | true =>
    cases hunspawned : s.unspawned with
    | cons i rest => exact hno ⟨.spawn, _, by simp only [parStep, hunspawned]; rfl⟩
    | nil =>
      by_cases hdone : ∀ e ∈ s.workers, e.2 = .finished
      · have hleave := hstuck .leave
        rw [parStep, if_pos ⟨hscope, hunspawned, by simpa using hdone⟩] at hleave
        cases hleave
      -- nobody holds a slot, so a worker that waits for one gets it
      have hfree : ∀ e ∈ s.workers, e.2.slot = 0 := by
        intro e he
        by_contra hheld
        exact hno (hinv.moves_of_slot he hheld)
      have hzero : s.inFlight = 0 := by
        rw [hslot.slots hscope, total_eq_zero hfree]
      simp only [not_forall] at hdone
      obtain ⟨⟨i, w⟩, hmem, hne⟩ := hdone
      have hw := hinv.worker_of_mem hmem
      have hwaiting : w = .waiting := by
        have hslot' := hfree _ hmem
        cases w with
        | waiting => rfl
        | finished => exact absurd rfl hne
        | _ => cases hslot'
      subst hwaiting
      have hcap : s.inFlight < max call.maxParallel 1 := by omega
      exact hno ⟨.acquire i, _, by simp only [parStep, hw]; exact if_pos hcap⟩

end Step

/-- **`run_parallel` returns**: no interleaving is longer than the bound, and one that cannot go on
has stopped. -/
theorem parallel_returns (hsep : Separated call.nodes) {world : σ}
    (hrun : Runs (parStep call) (call.initial world) as s) :
    as.length ≤ (call.initial world).remaining ∧
      ((∀ a, parStep call s a = none) → s.stopped = true) := by
  have hall : ParInv call.nodes as s ∧ SlotInv s ∧
      as.length + s.remaining ≤ (call.initial world).remaining := by
    refine hrun.invariant (P := fun as s => ParInv call.nodes as s ∧ SlotInv s ∧
      as.length + s.remaining ≤ (call.initial world).remaining) ?_ ?_
    · exact ⟨.initial call world, .initial call world, by simp⟩
    · intro as t a t' _ hbefore hstep
      obtain ⟨hinv, hslot, hbound⟩ := hbefore
      have hless := remaining_step hinv hslot hstep
      refine ⟨hinv.step hsep hstep, hslot.step hinv hstep, ?_⟩
      rw [length_append, length_singleton]
      omega
  obtain ⟨hinv, hslot, hbound⟩ := hall
  exact ⟨by omega, stopped_of_stuck hinv hslot⟩

/-- **At most `max_parallel` workers at a time** hold a slot, in every interleaving; one where that
is 0. -/
theorem slots_within_cap (call : ParallelCall σ) (nodes : List PlanNode)
    (hnodes : call.nodes = assignCohorts nodes) (world : σ)
    (hrun : Runs (parStep call) (call.initial world) as s) :
    s.total slot ≤ max call.maxParallel 1 := by
  have hsep : Separated call.nodes := hnodes ▸ assignCohorts_separates nodes
  obtain ⟨hinv, hslot, hcap⟩ : ParInv call.nodes as s ∧ SlotInv s ∧
      s.inFlight ≤ max call.maxParallel 1 := by
    refine hrun.invariant (P := fun as s => ParInv call.nodes as s ∧ SlotInv s ∧
      s.inFlight ≤ _) ⟨.initial call world, .initial call world, Nat.zero_le _⟩ ?_
    rintro as t a t' - ⟨hinv, hslot, hcap⟩ hstep
    refine ⟨hinv.step hsep hstep, hslot.step hinv hstep, ?_⟩
    cases parStep_inv hstep with
    | enter => exact Nat.zero_le _
    | acquire hw hfree => exact hfree
    | release => exact (Nat.sub_le _ _).trans hcap
    | _ => exact hcap
  cases hscope : s.inScope with
  | true => exact hslot.slots hscope ▸ hcap
  | false =>
    -- between two groups there are no workers
    have hnone := (append_eq_nil_iff.mp (hinv.idle hscope)).1
    rw [map_eq_nil_iff] at hnone
    simp [total, hnone]

/-- Two removals of one cohort and one slot: while the second worker has it, the first waits. -/
theorem slots_within_cap_waiting :
    let call : ParallelCall Fs :=
      ⟨fileRuntime .sample, none, assignCohorts [.fresh (.unlink (.ofString "/a")) none,
        .fresh (.unlink (.ofString "/b")) none], false, .abort, 1⟩
    ∃ s, Runs (parStep call) (call.initial (.ofList [("/a", .file [1]), ("/b", .file [2])]))
        [.enter, .spawn, .spawn, .acquire 1, .starts 1] s ∧
      s.worker 0 = some .waiting ∧ (parStep call s (.acquire 0)).isNone ∧ s.total slot ≤ 1 := by
  intro call
  have hrun : (foldlM (parStep call) (call.initial (.ofList [("/a", .file [1]), ("/b", .file [2])]))
      [.enter, .spawn, .spawn, .acquire 1, .starts 1]).map
        (fun s => (s.worker 0, (parStep call s (.acquire 0)).isNone)) =
      some (some .waiting, true) := by decide +kernel
  obtain ⟨s, hs, heq⟩ := Option.map_eq_some_iff.mp hrun
  obtain ⟨hwaits, hnone⟩ := Prod.mk.inj heq
  exact ⟨s, hs, hwaits, hnone, slots_within_cap call _ rfl _ hs⟩

end Progress

end ShitUndo
