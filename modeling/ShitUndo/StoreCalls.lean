import ShitUndo.GcOutcome
import ShitUndo.Plan

/-!
# Runs of store calls

The calls of the store in any order, each on the tables the one before has left. A call that fails
changes nothing; a collector pass may be cancelled and leaves what it has done.

`Consistent.run`: if every blob has its row when an event that refers to it is inserted, the
refcounts are right after every call.
-/

namespace ShitUndo

open IndexTables

/-- A call of the store. -/
inductive StoreCall where
  | putCommand (id : CommandId) (startedLogical : Nat)
  | putBlobRecord (hash : BlobHash) (size : Nat) (compressed : Bool) (created : TimePoint)
  | putEvent (event : CaptureEvent)
  | putEventBatch (events : List CaptureEvent)
  | dropCommand (id : CommandId)
  | reapCommands (ids : List CommandId)
  | dropBlobRecord (hash : BlobHash)
  | pinCommand (id : CommandId)
  | createHold (id : CommandId) (ownerPid : Nat) (expires : Option Nat)
  | renewHold (id : CommandId) (ownerPid : Nat) (expires : Option Nat)
  | releaseHold (id : CommandId) (ownerPid : Nat)
  | sweepExpired (now : Nat)
  | runPass (env : GcEnv) (config : GcConfig) (now : Nat)

/-- The tables after a transaction: as they were if it fails. -/
def committed {α : Type} (idx : IndexTables) : Except IndexError (α × IndexTables) → IndexTables
  | .ok (_, idx') => idx'
  | .error _ => idx

/-- What a call does to the store. -/
def StoreCall.apply (store : BlobStore) (s : Store) : StoreCall → Store
  | putCommand id started => { s with index := s.index.putCommand id started }
  | putBlobRecord hash size compressed created =>
    { s with index := s.index.putBlobRecord hash size compressed created }
  | putEvent event => { s with index := committed s.index (s.index.putEvent event) }
  | putEventBatch events => { s with index := committed s.index (s.index.putEventBatch events) }
  | dropCommand id => { s with index := committed s.index (s.index.dropCommand id) }
  | reapCommands ids => { s with index := (s.index.reapCommands ids).2 }
  | dropBlobRecord hash => { s with index := (s.index.dropBlobRecord hash).2 }
  | pinCommand id => { s with index := s.index.pinCommand id }
  | createHold id pid expires =>
    { s with
      index := committed s.index ((s.index.createHold id pid expires).map fun idx => ((), idx)) }
  | renewHold id pid expires => { s with index := s.index.renewHold id pid expires }
  | releaseHold id pid => { s with index := s.index.releaseHold id pid }
  | sweepExpired now => { s with index := s.index.sweepExpired now }
  | runPass env config now =>
    match ShitUndo.runPass store env config now s with
    | some stopped => stopped.1
    | none => s

/-- The events a call inserts. -/
def StoreCall.inserted (idx : IndexTables) : StoreCall → List CaptureEvent
  | putEvent event => if (idx.putEvent event).isOk then [event] else []
  | putEventBatch events => if (idx.putEventBatch events).isOk then events else []
  | _ => []

/-- A run of calls. -/
def runCalls (store : BlobStore) (calls : List StoreCall) (s : Store) : Store :=
  calls.foldl (StoreCall.apply store) s

/-- Every blob has its row when an event that refers to it is inserted. -/
def BlobsRecorded (store : BlobStore) : List StoreCall → Store → Prop
  | [], _ => True
  | call :: calls, s =>
    (∀ event ∈ call.inserted s.index, ∀ h ∈ event.kind.blobHash, s.index.HasBlob h)
      ∧ BlobsRecorded store calls (call.apply store s)

instance decidableBlobsRecorded (store : BlobStore) :
    ∀ calls s, Decidable (BlobsRecorded store calls s)
  | [], _ => isTrue trivial
  | call :: calls, s =>
    haveI := decidableBlobsRecorded store calls (call.apply store s)
    inferInstanceAs (Decidable (_ ∧ _))

/-- A new store. -/
def Store.empty : Store := ⟨IndexTables.empty, fun _ => none⟩

/-! ## One call -/

section Call

variable {store : BlobStore} {s : Store} {idx : IndexTables}

theorem IndexTables.Consistent.of_tables {idx' : IndexTables} (hcon : Consistent idx)
    (hsame : idx'.SameTables idx) : Consistent idx' := by
  obtain ⟨hcommands, hevents, hblobs⟩ := hsame
  constructor
  · constructor
    · rw [hblobs, hevents]
      exact hcon.counted
    · rw [hevents, hcommands]
      exact hcon.owned
  · rw [hblobs, hevents]
    exact hcon.recorded

theorem IndexTables.Consistent.dropBlobs (hcon : Consistent idx) (hs : List BlobHash) :
    Consistent (idx.dropBlobs hs) where
  toRefcountInvariant := hcon.toRefcountInvariant.dropBlobs hs
  recorded := by
    intro e he h hh
    obtain ⟨r, hr, rfl⟩ := hcon.recorded e he h hh
    refine ⟨r, mem_dropBlobs.mpr ⟨hr, ?_⟩, rfl⟩
    rintro ⟨-, hzero⟩
    have hpos : 0 < refs idx.events r.hash := refs_pos he hh
    have hcount := hcon.counted r hr
    omega

theorem IndexTables.Consistent.runPass (hcon : Consistent s.index) (store : BlobStore) (env : GcEnv)
    (config : GcConfig) (now : Nat) :
    Consistent (StoreCall.apply store s (.runPass env config now)).index := by
  cases hsize : s.index.totalBlobSize with
  | error e =>
    simp only [StoreCall.apply, ShitUndo.runPass, hsize]
    exact hcon
  | ok size =>
    obtain ⟨gone, res, hloop, -⟩ := markLoop_spec env (config.effectiveAgeCutoff now size)
      config.limit (s.index.commands.rows.length + 1) 0
      ⟨0, 0, 0, 0, 0, false, config.aggressive size⟩ hcon.toRefcountInvariant (Nat.lt_succ_self _)
    simp only [StoreCall.apply, runPass_eq hsize, hloop, Option.map_some]
    obtain ⟨hs, paths, hindex⟩ := sweepPass_index store env (config.effectiveAgeCutoff now size)
      s.files (s.index.without gone) res
    rw [hindex]
    exact ((hcon.without gone).dropBlobs hs).of_tables ⟨rfl, rfl, rfl⟩

theorem StoreCall.consistent (call : StoreCall) (hcon : Consistent s.index)
    (hblob : ∀ event ∈ call.inserted s.index, ∀ h ∈ event.kind.blobHash, s.index.HasBlob h) :
    Consistent (call.apply store s).index := by
  cases call with
  | putCommand id started => exact hcon.putCommand id started
  | putBlobRecord hash size compressed created =>
    exact hcon.putBlobRecord hash size compressed created
  | putEvent event =>
    cases hput : s.index.putEvent event with
    | error e =>
      simp only [StoreCall.apply, hput, committed]
      exact hcon
    | ok r =>
      simp only [StoreCall.apply, hput, committed]
      exact hcon.putEvent (hblob event (by simp [inserted, hput, Except.isOk, Except.toBool])) hput
  | putEventBatch events =>
    cases hput : s.index.putEventBatch events with
    | error e =>
      simp only [StoreCall.apply, hput, committed]
      exact hcon
    | ok r =>
      simp only [StoreCall.apply, hput, committed]
      refine hcon.putEventBatch ?_ hput
      intro event hevent
      exact hblob event (by simpa [inserted, hput, Except.isOk, Except.toBool] using hevent)
  | dropCommand id =>
    cases hdrop : s.index.dropCommand id with
    | error e =>
      simp only [StoreCall.apply, hdrop, committed]
      exact hcon
    | ok r =>
      simp only [StoreCall.apply, hdrop, committed]
      exact hcon.dropCommand hdrop
  | reapCommands ids => exact hcon.reapCommands ids
  | dropBlobRecord hash => exact hcon.dropBlobRecord hash
  | pinCommand id | renewHold id pid expires | releaseHold id pid | sweepExpired now =>
    exact hcon.of_tables ⟨rfl, rfl, rfl⟩
  | createHold id pid expires =>
    -- only `holds` changes, if anything does
    apply hcon.of_tables
    simp only [StoreCall.apply, IndexTables.createHold]
    split
    · exact ⟨rfl, rfl, rfl⟩
    · exact ⟨rfl, rfl, rfl⟩
  | runPass env config now => exact hcon.runPass store env config now

end Call

/-! ## Runs -/

theorem IndexTables.Consistent.run {store : BlobStore} {calls : List StoreCall} {s : Store}
    (hcon : Consistent s.index) (hrecorded : BlobsRecorded store calls s) :
    Consistent (runCalls store calls s).index := by
  induction calls generalizing s with
  | nil => exact hcon
  | cons call calls ih => exact ih (call.consistent hcon hrecorded.1) hrecorded.2

theorem BlobsRecorded.take {store : BlobStore} {calls : List StoreCall} {s : Store}
    (hrecorded : BlobsRecorded store calls s) (n : Nat) :
    BlobsRecorded store (calls.take n) s := by
  induction n generalizing calls s with
  | zero => trivial
  | succ n ih =>
    cases calls with
    | nil => trivial
    | cons call calls => exact ⟨hrecorded.1, ih hrecorded.2⟩

/-- After every call of a run on a new store the refcounts count the events, and every event
belongs to a command. -/
theorem refcounts_after_every_call (store : BlobStore) (calls : List StoreCall)
    (hrecorded : BlobsRecorded store calls .empty) (n : Nat) :
    RefcountInvariant (runCalls store (calls.take n) .empty).index := by
  have hcon := consistent_empty.run (s := Store.empty) (hrecorded.take n)
  exact hcon.toRefcountInvariant

open GcSample in
/-- A command with a pre-image, dropped, and a pass cancelled before the sweep. -/
theorem refcounts_after_drop :
    RefcountInvariant (runCalls BlobStore.sample
      [.putCommand ⟨1, 1⟩ 10, .putBlobRecord (sampleHash [1]) 1 false ⟨10, 0⟩,
        .putEvent (preImage 1 (sampleHash [1])), .dropCommand ⟨1, 1⟩,
        .runPass (.cancelAt .sweep) config 500] .empty).index :=
  refcounts_after_every_call BlobStore.sample
    [.putCommand ⟨1, 1⟩ 10, .putBlobRecord (sampleHash [1]) 1 false ⟨10, 0⟩,
      .putEvent (preImage 1 (sampleHash [1])), .dropCommand ⟨1, 1⟩,
      .runPass (.cancelAt .sweep) config 500] (by decide +kernel) 5

/-- `put_blob_record` has been called for every blob before an event that refers to it comes. -/
def RecordedFirst (recorded : List BlobHash) : List StoreCall → Prop
  | [] => True
  | .putBlobRecord hash _ _ _ :: calls => RecordedFirst (hash :: recorded) calls
  | .putEvent event :: calls =>
    (∀ h ∈ event.kind.blobHash, h ∈ recorded) ∧ RecordedFirst recorded calls
  | .putEventBatch events :: calls =>
    (∀ event ∈ events, ∀ h ∈ event.kind.blobHash, h ∈ recorded) ∧ RecordedFirst recorded calls
  | _ :: calls => RecordedFirst recorded calls

open GcSample in
/-- A command whose pre-image is recorded, swept away unreferenced, and recorded again after the
event is in. -/
def recordedTwice : List StoreCall :=
  [.putCommand ⟨1, 1⟩ 10, .putBlobRecord (sampleHash [1]) 1 false ⟨10, 0⟩,
    .dropBlobRecord (sampleHash [1]), .putEvent (preImage 1 (sampleHash [1])),
    .putBlobRecord (sampleHash [1]) 1 false ⟨11, 0⟩]

/-- The event is inserted while its blob has no row, and the row that comes back does not count
it. -/
theorem dropped_row_not_counted :
    RecordedFirst [] recordedTwice ∧
      ¬ RefcountInvariant (runCalls BlobStore.sample recordedTwice .empty).index := by
  constructor
  · simp [recordedTwice, RecordedFirst, GcSample.preImage, CaptureEventKind.blobHash]
  · intro hinv
    have hbad : ∃ r ∈ (runCalls BlobStore.sample recordedTwice .empty).index.blobs.rows,
        r.refcount ≠ refs (runCalls BlobStore.sample recordedTwice .empty).index.events r.hash := by
      decide +kernel
    rcases hbad with ⟨r, hr, hne⟩
    exact hne (hinv.counted r hr)

/-! ## The plans of a run -/

/-- `blob_size_hint`: the signed column as `u64`. -/
def IndexTables.blobSizeHint (idx : IndexTables) (h : BlobHash) : Option Nat :=
  (idx.blobs.rows.find? fun r => r.hash = h).map fun r => (r.size % 2 ^ 64).toNat

/-- **No plan restores what the collector may take.** After any calls on a new store, every blob
that the plan of a command restores has a row which counts an event. -/
theorem restored_blobs_counted (store : BlobStore) (calls : List StoreCall)
    (hrecorded : BlobsRecorded store calls .empty) (r : Renderers) (order : HashOrder)
    (command : CommandRecord) (probe : StateProbe) :
    let idx := (runCalls store calls .empty).index
    ∀ node ∈ (plan r order command (idx.eventsForCommand command.command) probe
        ⟨idx.blobSizeHint⟩).nodes, ∀ inode p blob, node.op = .restoreContent inode p blob →
      ∃ row ∈ idx.blobs, row.hash = blob ∧ 0 < row.refcount := by
  intro idx
  have hcon : Consistent idx := consistent_empty.run (s := Store.empty) hrecorded
  cases href : command.refusal with
  | some entry => simp [plan_nodes_of_refused href, PlanNode.fresh]
  | none =>
    rw [forall_plan_nodes (fun node => ∀ inode p blob, node.op = .restoreContent inode p blob →
      ∃ row ∈ idx.blobs, row.hash = blob ∧ 0 < row.refcount) (fun _ _ => rfl) href]
    intro node hnode inode p blob hop
    obtain ⟨ev, hev, -, hmem⟩ := mem_planNodes.mp hnode
    obtain ⟨_, _, _, hkind, -⟩ := restoreContent_mem_emit hmem hop
    obtain ⟨e, he, -, rfl⟩ := mem_eventsForCommand.mp (mem_liveEvents.mp hev).1
    have hblob : e.blobHash = some blob := congrArg CaptureEventKind.blobHash hkind
    obtain ⟨row, hrow, rfl⟩ := hcon.recorded e he blob hblob
    exact ⟨row, hrow, rfl, hcon.counted row hrow ▸ refs_pos he hblob⟩

open GcSample in
theorem restored_blob_of_preImage :
    let idx := (runCalls BlobStore.sample
      [.putCommand ⟨1, 1⟩ 10, .putBlobRecord (sampleHash [1]) 1 false ⟨10, 0⟩,
        .putEvent (preImage 1 (sampleHash [1])), .runPass .quiet config 50] .empty).index
    ∃ row ∈ idx.blobs, row.hash = sampleHash [1] ∧ 0 < row.refcount := by
  refine restored_blobs_counted BlobStore.sample _ ?_ .silent .insertion
    { plainCommand with command := ⟨1, 1⟩ } ⟨fun _ => none, fun _ => none⟩
    (.fresh (.restoreContent ⟨1, 2⟩ (PathBuf.ofString "/f") (sampleHash [1]))
      (some (.missing "/f no longer exists"))) ?_ _ _ _ rfl
  all_goals decide +kernel

end ShitUndo
