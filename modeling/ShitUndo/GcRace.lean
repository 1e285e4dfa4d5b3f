import ShitUndo.StoreCalls
import ShitUndo.Lib.Transition

/-!
# The collector and the captures

The daemon captures while a pass of the collector runs. Each store call is atomic, but neither side
is: a capture puts the blob file, records the row and inserts the event
(`handle_captured_pre_image`), a baseline walk does the first two and a later promotion the third
(`handle_baseline_captured`, `handle_baseline_promoted_pre_image`), and a pass deletes the file and
then the row of each blob on a list it made before.

* `raceStep`: any interleaving of one pass after another with any number of captures;
* `NoneStranded`: every event's blob has its row and its file;
* `GcApart`: what has to hold when the pass deletes a file or a row. Runs whose steps meet it never
  strand an event (`RaceInv.step`); nothing in the code makes them meet it.
-/

namespace ShitUndo

open IndexTables Transition List BlobStore Option

/-! ## States and steps -/

/-- How far a capture has come. A baseline entry stays cached after a promotion, and can be promoted
again for another command. -/
inductive CaptureStage where
  | filePut (hash : BlobHash) (stat : BlobStat) (baseline : Bool)
  | recorded (hash : BlobHash)
  | cached (hash : BlobHash) (promoted : Bool)
  | ended
deriving DecidableEq, Repr

namespace CaptureStage

/-- The blob a capture may still refer an event to. -/
def holds : CaptureStage → Option BlobHash
  | filePut hash _ _ => some hash
  | recorded hash => some hash
  | cached hash _ => some hash
  | ended => none

/-- That blob, once its row is recorded. -/
def hasRecorded : CaptureStage → Option BlobHash
  | filePut _ _ _ => none
  | recorded hash => some hash
  | cached hash _ => some hash
  | ended => none

/-- Begun, and its event not yet inserted. -/
def betweenSteps : CaptureStage → Bool
  | filePut _ _ _ => true
  | recorded _ => true
  | cached _ promoted => !promoted
  | ended => false

end CaptureStage

/-- How far a pass has come. -/
inductive GcPhase where
  | off
  | marking (cutoff : Nat) (limit : Int)
  | marked (cutoff : Nat) (limit : Int) (batch : List CommandId)
  | reaped
  | sweeping (todo : List BlobHash)
  | unlinked (hash : BlobHash) (todo : List BlobHash)
deriving DecidableEq, Repr

structure RaceState where
  store : Store
  captures : List CaptureStage
  gc : GcPhase

/-- One store call of a capture or of the pass, or the start of a command. -/
inductive RaceAction where
  | command (id : CommandId) (startedLogical : Nat)
  | put (ioErr : Option String) (bytes : Bytes) (baseline : Bool)
  | record (i : Nat) (created : TimePoint)
  | insert (i : Nat) (event : CaptureEvent)
  | abandon (i : Nat)
  | gcStart (config : GcConfig) (now : Nat)
  | gcMark
  | gcReap
  | gcList
  | gcUnlink (fails : Bool)
  | gcDropRow
  | gcStop
deriving Repr

namespace RaceState

def setIndex (s : RaceState) (idx : IndexTables) : RaceState :=
  { s with store := { s.store with index := idx } }

def setFiles (s : RaceState) (files : BlobDir) : RaceState :=
  { s with store := { s.store with files := files } }

def setCapture (s : RaceState) (i : Nat) (stage : CaptureStage) : RaceState :=
  { s with captures := s.captures.set i stage }

end RaceState

/-- What an action does, where it is enabled. -/
def raceStep (store : BlobStore) (s : RaceState) : RaceAction → Option RaceState
  | .command id started => some (s.setIndex (s.store.index.putCommand id started))
  | .put ioErr bytes baseline =>
    match store.put ioErr bytes s.store.files with
    | (.ok (hash, stat), files) =>
      some { s.setFiles files with captures := s.captures ++ [.filePut hash stat baseline] }
    | (.error _, files) => some (s.setFiles files)
  | .record i created =>
    match s.captures[i]? with
    | some (.filePut hash stat baseline) =>
      some ((s.setIndex
        (s.store.index.putBlobRecord hash stat.storedBytes stat.compressed created)).setCapture i
          (if baseline then .cached hash false else .recorded hash))
    | _ => none
  | .insert i event =>
    match s.captures[i]? with
    | some (.recorded hash) =>
      if event.kind.blobHash = some hash then
        some ((s.setIndex (committed s.store.index (s.store.index.putEvent event))).setCapture i
          .ended)
      else none
    | some (.cached hash _) =>
      if event.kind.blobHash = some hash then
        some ((s.setIndex (committed s.store.index (s.store.index.putEvent event))).setCapture i
          (.cached hash true))
      else none
    | _ => none
  -- a hash the helper claimed wrongly, an entry that is evicted
  | .abandon i => some (s.setCapture i .ended)
  | .gcStart config now =>
    match s.gc, s.store.index.totalBlobSize with
    | .off, .ok size =>
      some { s with gc := .marking (config.effectiveAgeCutoff now size) config.limit }
    | _, _ => none
  | .gcMark =>
    match s.gc with
    | .marking cutoff limit =>
      match s.store.index.markExpiredBatch cutoff limit with
      | [] => some { s with gc := .reaped }
      | batch => some { s with gc := .marked cutoff limit batch }
    | _ => none
  | .gcReap =>
    match s.gc with
    | .marked cutoff limit batch =>
      let reaped := s.store.index.reapCommands batch
      some { s.setIndex reaped.2 with
        gc := if reaped.1.commandsDropped = 0 then .reaped else .marking cutoff limit }
    | _ => none
  | .gcList =>
    match s.gc with
    | .reaped => some { s with gc := .sweeping s.store.index.unreferencedBlobs }
    | _ => none
  | .gcUnlink fails =>
    match s.gc with
    | .sweeping (hash :: todo) =>
      some { s.setFiles (if fails then s.store.files else store.delete s.store.files hash) with
        gc := .unlinked hash todo }
    | _ => none
  | .gcDropRow =>
    match s.gc with
    | .unlinked hash todo =>
      some { s.setIndex (s.store.index.dropBlobRecord hash).2 with gc := .sweeping todo }
    | _ => none
  -- done, or cancelled at a check
  | .gcStop =>
    match s.gc with
    | .marking _ _ => some { s with gc := .off }
    | .reaped => some { s with gc := .off }
    | .sweeping _ => some { s with gc := .off }
    | _ => none

/-- No capture has begun and not inserted its event. -/
def Quiescent (s : RaceState) : Prop := ∀ c ∈ s.captures, c.betweenSteps = false

/-- Every event's blob has a row that counts it, and a file. -/
def NoneStranded (store : BlobStore) (s : Store) : Prop :=
  ∀ e ∈ s.index.events, ∀ h ∈ e.blobHash,
    (∃ r ∈ s.index.blobs, r.hash = h ∧ 1 ≤ r.refcount) ∧ store.contains s.files h = true

/-- The blob whose file an action deletes. -/
def RaceState.unlinks (s : RaceState) : RaceAction → Option BlobHash
  | .gcUnlink _ =>
    match s.gc with
    | .sweeping (hash :: _) => some hash
    | _ => none
  | _ => none

/-- The blob whose row an action drops. -/
def RaceState.drops (s : RaceState) : RaceAction → Option BlobHash
  | .gcDropRow =>
    match s.gc with
    | .unlinked hash _ => some hash
    | _ => none
  | _ => none

/-- When the pass deletes a file, no event and no capture refers to it; when it drops a row, no
capture that has recorded the blob may still refer to it. -/
def GcApart (s : RaceState) (a : RaceAction) : Prop :=
  (∀ h ∈ s.unlinks a, refs s.store.index.events h = 0 ∧ ∀ c ∈ s.captures, c.holds ≠ some h) ∧
    ∀ h ∈ s.drops a, ∀ c ∈ s.captures, c.hasRecorded ≠ some h

instance (s : RaceState) (a : RaceAction) : Decidable (GcApart s a) :=
  inferInstanceAs (Decidable (_ ∧ _))

/-- A store before any capture or pass. -/
def RaceState.start (s : Store) : RaceState := ⟨s, [], .off⟩

/-- Whatever the interleaving, no event is stranded when every capture has inserted its event. -/
def NeverStrands (store : BlobStore) (s₀ : Store) : Prop :=
  ∀ as s, Runs (raceStep store) (.start s₀) as s → Quiescent s → NoneStranded store s.store

/-! ## The invariant -/

/-- The index is consistent; what an event or a capture refers to has its file, and what a capture
has recorded has its row. -/
structure RaceInv (store : BlobStore) (s : RaceState) : Prop where
  consistent : Consistent s.store.index
  eventFiles : ∀ e ∈ s.store.index.events, ∀ h ∈ e.blobHash, store.contains s.store.files h = true
  heldFiles : ∀ c ∈ s.captures, ∀ h ∈ c.holds, store.contains s.store.files h = true
  recordedRows : ∀ c ∈ s.captures, ∀ h ∈ c.hasRecorded, s.store.index.HasBlob h

namespace RaceInv

variable {store : BlobStore} {s s' : RaceState} {i : Nat} {stage : CaptureStage} {hash : BlobHash}
  {stat : BlobStat} {baseline : Bool} {event : CaptureEvent}

theorem start {st : Store} (hcon : Consistent st.index)
    (hfiles : ∀ e ∈ st.index.events, ∀ h ∈ e.blobHash, store.contains st.files h = true) :
    RaceInv store (.start st) where
  consistent := hcon
  eventFiles := hfiles
  heldFiles := by simp [RaceState.start]
  recordedRows := by simp [RaceState.start]

section

variable (hinv : RaceInv store s)

include hinv

theorem noneStranded : NoneStranded store s.store := by
  intro e he h hh
  obtain ⟨r, hr, rfl⟩ := hinv.consistent.recorded e he h hh
  have hpos := refs_pos he hh
  have hcount := hinv.consistent.counted r hr
  exact ⟨⟨r, hr, rfl, by omega⟩, hinv.eventFiles e he _ hh⟩

theorem setGc (gc : GcPhase) : RaceInv store { s with gc := gc } :=
  ⟨hinv.consistent, hinv.eventFiles, hinv.heldFiles, hinv.recordedRows⟩

/-- A change of the index that keeps it consistent, has no event of its own and loses no row that a
capture has recorded. -/
theorem setIndex {idx : IndexTables} (hcon : Consistent idx)
    (hevents : ∀ e ∈ idx.events, e ∈ s.store.index.events)
    (hrows : ∀ c ∈ s.captures, ∀ h ∈ c.hasRecorded, idx.HasBlob h) :
    RaceInv store (s.setIndex idx) where
  consistent := hcon
  eventFiles := fun e he => hinv.eventFiles e (hevents e he)
  heldFiles := hinv.heldFiles
  recordedRows := hrows

theorem setCapture (hheld : ∀ h ∈ stage.holds, store.contains s.store.files h = true)
    (hrows : ∀ h ∈ stage.hasRecorded, s.store.index.HasBlob h) :
    RaceInv store (s.setCapture i stage) where
  consistent := hinv.consistent
  eventFiles := hinv.eventFiles
  heldFiles := by
    intro c hc
    rcases mem_or_eq_of_mem_set hc with hc | rfl
    · exact hinv.heldFiles c hc
    · exact hheld
  recordedRows := by
    intro c hc
    rcases mem_or_eq_of_mem_set hc with hc | rfl
    · exact hinv.recordedRows c hc
    · exact hrows

theorem setFiles {files : BlobDir}
    (hevents : ∀ e ∈ s.store.index.events, ∀ h ∈ e.blobHash, store.contains files h = true)
    (hheld : ∀ c ∈ s.captures, ∀ h ∈ c.holds, store.contains files h = true) :
    RaceInv store (s.setFiles files) where
  consistent := hinv.consistent
  eventFiles := hevents
  heldFiles := hheld
  recordedRows := hinv.recordedRows

end

/-! ## One step -/

variable (hinv : RaceInv store s)

include hinv

theorem put (ioErr : Option String) (bytes : Bytes) :
    RaceInv store (s.setFiles (store.put ioErr bytes s.store.files).2) :=
  hinv.setFiles (fun e he h hh => contains_put (hinv.eventFiles e he h hh))
    fun c hc h hh => contains_put (hinv.heldFiles c hc h hh)

theorem append (hfile : store.contains s.store.files hash = true) :
    RaceInv store { s with captures := s.captures ++ [.filePut hash stat baseline] } where
  consistent := hinv.consistent
  eventFiles := hinv.eventFiles
  heldFiles := by
    intro c hc h hh
    rcases mem_append.mp hc with hc | hc
    · exact hinv.heldFiles c hc h hh
    · rw [mem_singleton.mp hc] at hh
      obtain rfl := some.inj hh
      exact hfile
  recordedRows := by
    intro c hc h hh
    rcases mem_append.mp hc with hc | hc
    · exact hinv.recordedRows c hc h hh
    · rw [mem_singleton.mp hc] at hh
      cases hh

theorem record (hi : s.captures[i]? = some (.filePut hash stat baseline)) (created : TimePoint) :
    RaceInv store ((s.setIndex
      (s.store.index.putBlobRecord hash stat.storedBytes stat.compressed created)).setCapture i
        (if baseline then .cached hash false else .recorded hash)) := by
  have hfile := hinv.heldFiles _ (mem_of_getElem? hi) hash rfl
  have hkeeps : ∀ h, s.store.index.HasBlob h →
      (s.store.index.putBlobRecord hash stat.storedBytes stat.compressed created).HasBlob h := by
    rintro h ⟨r, hr, hkey⟩
    exact ⟨r, Table.mem_insertOrIgnore.mpr (Or.inl hr), hkey⟩
  have hindex := hinv.setIndex
    (hinv.consistent.putBlobRecord hash stat.storedBytes stat.compressed created)
    (fun e he => he) fun c hc h hh => hkeeps h (hinv.recordedRows c hc h hh)
  have hrow := s.store.index.hasBlob_putBlobRecord hash stat.storedBytes stat.compressed created
  apply hindex.setCapture
  · intro h hh
    cases baseline <;> cases hh <;> exact hfile
  · intro h hh
    cases baseline <;> cases hh <;> exact hrow

theorem putEvent (hevent : event.kind.blobHash = some hash) (hrow : s.store.index.HasBlob hash)
    (hfile : store.contains s.store.files hash = true) :
    RaceInv store (s.setIndex (committed s.store.index (s.store.index.putEvent event))) := by
  cases hput : s.store.index.putEvent event with
  | error e => exact hinv
  | ok r =>
    obtain ⟨hcmd, -, hidx⟩ := putEvent_eq_ok.mp hput
    simp only [committed, hidx]
    constructor
    · apply hinv.consistent.appendEvent hcmd
      intro h hh
      obtain rfl := some.inj (hevent.symm.trans hh)
      exact hrow
    · intro e he h hh
      rcases mem_append.mp he with he | he
      · exact hinv.eventFiles e he h hh
      · -- the new event
        rw [mem_singleton.mp he] at hh
        obtain rfl := some.inj (hevent.symm.trans hh)
        exact hfile
    · exact hinv.heldFiles
    · intro c hc h hh
      exact hasBlob_appendEvent.mpr (hinv.recordedRows c hc h hh)

theorem insert {next : CaptureStage} (hi : s.captures[i]? = some stage)
    (hrecorded : stage.hasRecorded = some hash) (hheld : stage.holds = some hash)
    (hevent : event.kind.blobHash = some hash) (hnext : next = .ended ∨ next = .cached hash true) :
    RaceInv store ((s.setIndex
      (committed s.store.index (s.store.index.putEvent event))).setCapture i next) := by
  have hmem := mem_of_getElem? hi
  have hfile := hinv.heldFiles stage hmem hash hheld
  have hput := hinv.putEvent hevent (hinv.recordedRows stage hmem hash hrecorded) hfile
  apply hput.setCapture
  · intro h hh
    rcases hnext with rfl | rfl
    · cases hh
    · obtain rfl := some.inj hh
      exact hfile
  · intro h hh
    rcases hnext with rfl | rfl
    · cases hh
    · obtain rfl := some.inj hh
      exact hput.recordedRows stage hmem hash hrecorded

theorem reap (ids : List CommandId) :
    RaceInv store (s.setIndex (s.store.index.reapCommands ids).2) := by
  apply hinv.setIndex (hinv.consistent.reapCommands ids)
  · intro e he
    rw [hinv.consistent.toRefcountInvariant.reapCommands_snd] at he
    exact mem_of_mem_filter he
  · intro c hc h hh
    rw [hinv.consistent.toRefcountInvariant.reapCommands_snd]
    exact hasBlob_without.mpr (hinv.recordedRows c hc h hh)

theorem unlink (fails : Bool) (hrefs : refs s.store.index.events hash = 0)
    (hheld : ∀ c ∈ s.captures, c.holds ≠ some hash) :
    RaceInv store
      (s.setFiles (if fails then s.store.files else store.delete s.store.files hash)) := by
  cases fails with
  | true => exact hinv
  | false =>
    apply hinv.setFiles
    · intro e he h hh
      apply contains_delete
      · rintro rfl
        have hpos := refs_pos he hh
        omega
      · exact hinv.eventFiles e he h hh
    · intro c hc h hh
      apply contains_delete
      · rintro rfl
        exact hheld c hc hh
      · exact hinv.heldFiles c hc h hh

theorem dropRow (hrecorded : ∀ c ∈ s.captures, c.hasRecorded ≠ some hash) :
    RaceInv store (s.setIndex (s.store.index.dropBlobRecord hash).2) := by
  apply hinv.setIndex (hinv.consistent.dropBlobRecord hash) (fun e he => he)
  intro c hc h hh
  obtain ⟨r, hr, rfl⟩ := hinv.recordedRows c hc h hh
  refine ⟨r, mem_dropBlobRecord.mpr ⟨hr, ?_⟩, rfl⟩
  rintro ⟨rfl, -⟩
  exact hrecorded c hc hh

theorem step {a : RaceAction} (hapart : GcApart s a) (hstep : raceStep store s a = some s') :
    RaceInv store s' := by
  cases a with
  | command id started =>
    cases hstep
    exact hinv.setIndex (hinv.consistent.putCommand id started) (fun e he => he) hinv.recordedRows
  | put ioErr bytes baseline =>
    have hput := hinv.put ioErr bytes
    simp only [raceStep] at hstep
    split at hstep
    · rename_i hash stat files heq
      cases hstep
      have hok : (store.put ioErr bytes s.store.files).1 = .ok (hash, stat) := by rw [heq]
      have hfile := contains_of_put_ok hok
      rw [heq] at hput hfile
      exact hput.append hfile
    · rename_i e files heq
      cases hstep
      rw [heq] at hput
      exact hput
  | record i created =>
    simp only [raceStep] at hstep
    split at hstep
    · rename_i hi
      cases hstep
      exact hinv.record hi created
    · cases hstep
  | insert i event =>
    simp only [raceStep] at hstep
    split at hstep
    · -- a capture of its own
      rename_i hi
      split at hstep
      · rename_i hevent
        cases hstep
        exact hinv.insert hi rfl rfl hevent (Or.inl rfl)
      · cases hstep
    · -- a promotion from the baseline
      rename_i hi
      split at hstep
      · rename_i hevent
        cases hstep
        exact hinv.insert hi rfl rfl hevent (Or.inr rfl)
      · cases hstep
    · cases hstep
  | abandon i =>
    cases hstep
    apply hinv.setCapture
    · intro h hh
      cases hh
    · intro h hh
      cases hh
  | gcStart config now | gcMark | gcList | gcStop =>
    -- only the phase of the pass changes
    simp only [raceStep] at hstep
    repeat' split at hstep
    all_goals cases hstep
    all_goals exact hinv.setGc _
  | gcReap =>
    simp only [raceStep] at hstep
    split at hstep
    · cases hstep
      exact (hinv.reap _).setGc _
    · cases hstep
  | gcUnlink fails =>
    simp only [raceStep] at hstep
    split at hstep
    · rename_i hash todo hgc
      cases hstep
      obtain ⟨hrefs, hheld⟩ := hapart.1 hash (by simp [RaceState.unlinks, hgc])
      exact (hinv.unlink fails hrefs hheld).setGc _
    · cases hstep
  | gcDropRow =>
    simp only [raceStep] at hstep
    split at hstep
    · rename_i hash todo hgc
      cases hstep
      exact (hinv.dropRow (hapart.2 hash (by simp [RaceState.drops, hgc]))).setGc _
    · cases hstep

end RaceInv

/-! ## Runs -/

/-- In every run in which the pass deletes only what no event and no capture refers to, nothing is
ever stranded. -/
theorem noneStranded_of_gcApart (store : BlobStore) (s₀ : Store) (hcon : Consistent s₀.index)
    (hfiles : ∀ e ∈ s₀.index.events, ∀ h ∈ e.blobHash, store.contains s₀.files h = true)
    (as : List RaceAction) (s : RaceState) (hrun : Runs (raceStep store) (.start s₀) as s)
    (hapart : Meets GcApart (raceStep store) (.start s₀) as) : NoneStranded store s.store := by
  have hinv : RaceInv store s := by
    refine hrun.invariant_of_meets hapart (RaceInv.start hcon hfiles) ?_
    intro t a t' ht ha hstep
    exact ht.step ha hstep
  exact hinv.noneStranded

open GcSample in
/-- A pass that reaps an old command and sweeps its blob, while a newer command keeps its own and a
baseline walk is between file and row. -/
def sweepingRun : List RaceAction :=
  [.command ⟨1, 1⟩ 10, .put none [1] false, .record 0 ⟨10, 0⟩,
    .insert 0 (preImage 1 (sampleHash [1])), .command ⟨1, 2⟩ 400, .put none [2] false,
    .record 1 ⟨400, 0⟩, .insert 1 (preImage 2 (sampleHash [2])), .put none [3] true,
    .gcStart config 500, .gcMark,
    .gcReap, .gcMark, .gcList, .record 2 ⟨401, 0⟩, .gcUnlink false, .gcDropRow, .gcStop]

/-- The swept file is gone, and nothing is stranded. -/
theorem noneStranded_insert_first :
    ∃ s, Runs (raceStep sample) (.start .empty) sweepingRun s ∧
      sample.contains s.store.files (sampleHash [1]) = false ∧ NoneStranded sample s.store := by
  have hrun : (sweepingRun.foldlM (raceStep sample) (.start .empty)).map
      (fun s => sample.contains s.store.files (sampleHash [1])) = some false := by decide +kernel
  obtain ⟨s, hs, hswept⟩ := map_eq_some_iff.mp hrun
  exact ⟨s, hs, hswept, noneStranded_of_gcApart sample .empty consistent_empty
    (by simp [Store.empty, empty]) _ s hs (by decide +kernel)⟩

open GcSample in
/-- The blob is recorded when the pass makes its list. Before the event comes, the pass has deleted
the file and, its refcount still zero, the row. -/
theorem swept_before_insert : ¬ NeverStrands sample .empty := by
  intro hnever
  have hrun : (([.command ⟨1, 1⟩ 400, .put none [1] false, .record 0 ⟨400, 0⟩,
      .gcStart config 500, .gcMark, .gcList, .gcUnlink false, .gcDropRow,
      .insert 0 (preImage 1 (sampleHash [1]))] : List RaceAction).foldlM
        (raceStep sample) (.start .empty)).map (fun s =>
          (s.captures, s.store.index.events, s.store.index.blobs.rows))
      = some ([.ended], [⟨1, preImage 1 (sampleHash [1])⟩], []) := by
    decide +kernel
  obtain ⟨s, hs, hend⟩ := map_eq_some_iff.mp hrun
  obtain ⟨hcaptures, hevents, hblobs⟩ : s.captures = [.ended] ∧
      s.store.index.events = [⟨1, preImage 1 (sampleHash [1])⟩] ∧
      s.store.index.blobs.rows = [] := by simpa using hend
  have hquiet : Quiescent s := by simp [Quiescent, hcaptures, CaptureStage.betweenSteps]
  obtain ⟨⟨r, hr, -⟩, -⟩ := hnever _ s hs hquiet ⟨1, preImage 1 (sampleHash [1])⟩
    (by simp [hevents]) (sampleHash [1]) rfl
  rw [Table.mem_iff, hblobs] at hr
  cases hr

end ShitUndo
