import ShitUndo.Events
import ShitUndo.Lib.Table
import Mathlib.Data.List.Count
import Mathlib.Algebra.Group.Nat.Defs
import Mathlib.Algebra.Group.Int.Defs

/-!
# The tables of the index

The SQLite tables behind `Index` (`index.rs`, `refcount.rs`, `holds.rs`, schema in `migrations/`)
and the functions that write them. Each function is one transaction; where a foreign key would be
violated it fails and the tables stay as they are. Columns that no function here reads are left
out.

* `RefcountInvariant`: a blob's refcount is the number of events that refer to it, and every event
  belongs to a command;
* `Consistent` adds that every blob an event refers to has its row, which is what the functions
  need to keep the counts right.
-/

namespace ShitUndo

open List hiding beq_eq_decide

/-- `u64 as i64`. Irreducible: nothing should evaluate a remainder modulo `2 ^ 64` on a variable. -/
@[irreducible] def toI64 (n : Nat) : Int := Int.bmod n (2 ^ 64)

/-! ## Tables -/

/-- A row of `commands`. -/
structure CommandRow where
  id : CommandId
  startedLogical : Int
  importance : Nat
deriving DecidableEq, Repr

/-- A row of `events`: the event with the id SQLite gave it. -/
structure EventRow where
  id : Nat
  event : CaptureEvent
deriving DecidableEq, Repr

/-- A row of `blobs`. The size is a `u64` in a signed column. -/
structure BlobRow where
  hash : BlobHash
  size : Int
  compressed : Bool
  refcount : Nat
  createdLogical : Int
deriving DecidableEq, Repr

/-- A row of `paths`. -/
structure PathRow where
  path : PathBuf
  inode : InodeRef
  validFrom : Int
  validTo : Option Int
deriving DecidableEq, Repr

/-- A row of `holds`: one per command and process. -/
structure HoldRow where
  command : CommandId
  ownerPid : Nat
  expiresLogical : Option Int
deriving DecidableEq, Repr

def HoldRow.key (r : HoldRow) : CommandId × Nat := (r.command, r.ownerPid)

/-- The `blob_hash` column of an event, as `denormalize` fills it. -/
def CaptureEventKind.blobHash : CaptureEventKind → Option BlobHash
  | filePreImage _ _ blob _ _ _ => some blob
  | containerOp _ _ _ _ stashTarball => stashTarball
  | _ => none

def EventRow.command (e : EventRow) : CommandId := e.event.command

def EventRow.blobHash (e : EventRow) : Option BlobHash := e.event.kind.blobHash

/-- The tables. `holds` has a foreign key to `commands`, `pins` has none. -/
structure IndexTables where
  commands : Table CommandRow CommandId CommandRow.id
  events : List EventRow
  blobs : Table BlobRow BlobHash BlobRow.hash
  paths : List PathRow
  pins : List CommandId
  holds : Table HoldRow (CommandId × Nat) HoldRow.key
  nextEventId : Nat

/-- `IndexError`, as far as these functions run into it. -/
inductive IndexError where
  | foreignKey
  | integerOverflow
deriving DecidableEq, Repr

namespace IndexTables

/-- A new database. -/
def empty : IndexTables where
  commands := .empty
  events := []
  blobs := .empty
  paths := []
  pins := []
  holds := .empty
  nextEventId := 1

def commandExists (idx : IndexTables) (id : CommandId) : Bool :=
  idx.commands.rows.any fun c => c.id = id

/-- `put_command`: a second record of a command keeps its key and start. -/
def putCommand (id : CommandId) (startedLogical : Nat) (idx : IndexTables) : IndexTables :=
  { idx with commands := idx.commands.insertOrIgnore ⟨id, toI64 startedLogical, 0⟩ }

/-! ## Path history -/

/-- Open a row for `path`, unless one was opened at the same time. -/
def openPath (path : PathBuf) (inode : InodeRef) (ts : TimePoint) (paths : List PathRow) :
    List PathRow :=
  if paths.any (fun r => r.path = path ∧ r.validFrom = toI64 ts.logical) then paths
  else paths ++ [⟨path, inode, toI64 ts.logical, none⟩]

/-- Close the open rows of `path`. -/
def closePath (path : PathBuf) (ts : TimePoint) (paths : List PathRow) : List PathRow :=
  paths.map fun r =>
    if r.path = path ∧ r.validTo = none then { r with validTo := some (toI64 ts.logical) } else r

def updatePathHistory (kind : CaptureEventKind) (ts : TimePoint) (paths : List PathRow) :
    List PathRow :=
  match kind with
  | .treeOp (.create inode path _ _) => openPath path inode ts paths
  | .treeOp (.unlink _ path _ _) => closePath path ts paths
  | .treeOp (.rename src dst inode) => openPath dst inode ts (closePath src ts paths)
  | .treeOp (.link source target) => openPath target source ts paths
  | .treeOp (.symlink _ path) => openPath path ⟨0, 0⟩ ts paths
  | .treeOp (.symlinkRemoved _ path) => closePath path ts paths
  | _ => paths

/-! ## Events and blobs -/

/-- `UPDATE blobs SET refcount = refcount + 1 WHERE hash = h`. -/
def bump (h : BlobHash) (blobs : Table BlobRow BlobHash BlobRow.hash) :
    Table BlobRow BlobHash BlobRow.hash :=
  blobs.update (fun r => if r.hash = h then { r with refcount := r.refcount + 1 } else r)
    fun r => by split <;> rfl

/-- `UPDATE blobs SET refcount = MAX(refcount - 1, 0) WHERE hash = h`. -/
def decrement (blobs : Table BlobRow BlobHash BlobRow.hash) (h : BlobHash) :
    Table BlobRow BlobHash BlobRow.hash :=
  blobs.update (fun r => if r.hash = h then { r with refcount := r.refcount - 1 } else r)
    fun r => by split <;> rfl

/-- The tables with one more event. -/
def appendEvent (event : CaptureEvent) (idx : IndexTables) : IndexTables :=
  { idx with
    events := idx.events ++ [⟨idx.nextEventId, event⟩]
    blobs := match event.kind.blobHash with
      | some h => bump h idx.blobs
      | none => idx.blobs
    paths := updatePathHistory event.kind event.ts idx.paths
    nextEventId := idx.nextEventId + 1 }

def putEvent (event : CaptureEvent) (idx : IndexTables) :
    Except IndexError (EventId × IndexTables) :=
  if idx.commandExists event.command then .ok (⟨idx.nextEventId⟩, idx.appendEvent event)
  else .error .foreignKey

/-- `put_event_batch`: one transaction, all or nothing. -/
def putEventBatch : List CaptureEvent → IndexTables → Except IndexError (List EventId × IndexTables)
  | [], idx => .ok ([], idx)
  | event :: rest, idx =>
    match idx.putEvent event with
    | .error e => .error e
    | .ok (id, idx') =>
      match putEventBatch rest idx' with
      | .error e => .error e
      | .ok (ids, idx'') => .ok (id :: ids, idx'')

def putBlobRecord (hash : BlobHash) (size : Nat) (compressed : Bool) (created : TimePoint)
    (idx : IndexTables) : IndexTables :=
  { idx with
    blobs := idx.blobs.insertOrIgnore
      ⟨hash, toI64 size, compressed, 0, toI64 created.logical⟩ }

/-- The order of `ORDER BY ts_logical, id`. -/
def rowLe (a b : EventRow) : Prop :=
  toI64 a.event.ts.logical < toI64 b.event.ts.logical ∨
    toI64 a.event.ts.logical = toI64 b.event.ts.logical ∧ a.id ≤ b.id

instance : DecidableRel rowLe := fun _ _ => inferInstanceAs (Decidable (_ ∨ _))

/-- `events_for_command`, each event with the id of its row. -/
def eventsForCommand (idx : IndexTables) (id : CommandId) : List CaptureEvent :=
  ((idx.events.filter fun e => e.command = id).insertionSort rowLe).map fun e =>
    { e.event with id := ⟨e.id⟩ }

/-- The blobs a command's events refer to, once per event. -/
def hashesOf (idx : IndexTables) (id : CommandId) : List BlobHash :=
  (idx.events.filter fun e => e.command = id).filterMap EventRow.blobHash

/-- Decrement a command's blobs and delete its events and its row. -/
def deleteCommand (id : CommandId) (idx : IndexTables) : IndexTables :=
  { idx with
    blobs := (idx.hashesOf id).foldl decrement idx.blobs
    events := idx.events.filter fun e => e.command ≠ id
    commands := idx.commands.delete fun c => c.id = id }

/-- `is_held`: some process holds the command. No expiry is looked at. -/
def isHeld (idx : IndexTables) (id : CommandId) : Bool :=
  idx.holds.rows.any fun r => r.command = id

/-- `drop_command`: the foreign key of `holds` keeps a held command. Returns the number of event
and command rows removed. -/
def dropCommand (id : CommandId) (idx : IndexTables) : Except IndexError (Nat × IndexTables) :=
  if idx.isHeld id ∧ idx.commandExists id then .error .foreignKey
  else .ok ((idx.events.countP fun e => e.command = id)
    + (idx.commands.rows.countP fun c => c.id = id), idx.deleteCommand id)

def unreferencedBlobs (idx : IndexTables) : List BlobHash :=
  (idx.blobs.rows.filter fun r => r.refcount = 0).map BlobRow.hash

/-- `drop_blob_record`: only a row without references goes. -/
def dropBlobRecord (hash : BlobHash) (idx : IndexTables) : Bool × IndexTables :=
  (idx.blobs.rows.any fun r => r.hash = hash ∧ r.refcount = 0,
    { idx with blobs := idx.blobs.delete fun r => r.hash = hash ∧ r.refcount = 0 })

/-- Addition of SQLite integers. -/
def addI64 (m n : Int) : Option Int :=
  if -2 ^ 63 ≤ m + n ∧ m + n < 2 ^ 63 then some (m + n) else none

/-- `total_blob_size`: `SUM` fails where an addition overflows; the sum is read as `u64`. -/
def totalBlobSize (idx : IndexTables) : Except IndexError Nat :=
  match (idx.blobs.rows.map BlobRow.size).foldlM addI64 0 with
  | some total => .ok (total % 2 ^ 64).toNat
  | none => .error .integerOverflow

def pinCommand (id : CommandId) (idx : IndexTables) : IndexTables :=
  { idx with pins := if id ∈ idx.pins then idx.pins else idx.pins ++ [id] }

/-- `UPDATE holds SET expires_logical = … WHERE` command and process. -/
def setExpiry (id : CommandId) (ownerPid : Nat) (expires : Option Nat)
    (holds : Table HoldRow (CommandId × Nat) HoldRow.key) :
    Table HoldRow (CommandId × Nat) HoldRow.key :=
  holds.update (fun r =>
      if r.command = id ∧ r.ownerPid = ownerPid then { r with expiresLogical := expires.map toI64 }
      else r)
    fun r => by split <;> rfl

/-- `holds::create`. -/
def createHold (id : CommandId) (ownerPid : Nat) (expires : Option Nat) (idx : IndexTables) :
    Except IndexError IndexTables :=
  if idx.commandExists id then
    .ok { idx with
      holds := setExpiry id ownerPid expires (idx.holds.insertOrIgnore ⟨id, ownerPid, none⟩) }
  else .error .foreignKey

/-- `holds::renew`. -/
def renewHold (id : CommandId) (ownerPid : Nat) (expires : Option Nat) (idx : IndexTables) :
    IndexTables :=
  { idx with holds := setExpiry id ownerPid expires idx.holds }

/-- `holds::release`. -/
def releaseHold (id : CommandId) (ownerPid : Nat) (idx : IndexTables) : IndexTables :=
  { idx with holds := idx.holds.delete fun r => r.command = id ∧ r.ownerPid = ownerPid }

def sweepExpired (now : Nat) (idx : IndexTables) : IndexTables :=
  { idx with holds := idx.holds.delete fun r => r.expiresLogical.any fun e => e < toI64 now }

/-! ## Reaping -/

structure ReapBatch where
  commandsDropped : Nat
  eventsDropped : Nat
  refsDecremented : Nat
deriving DecidableEq, Repr

/-- Pinned or held. -/
def isProtected (idx : IndexTables) (id : CommandId) : Bool := idx.pins.contains id || idx.isHeld id

/-- One command of `reap_commands`: pinned and held commands are passed over. -/
def reapOne (summary : ReapBatch) (idx : IndexTables) (id : CommandId) : ReapBatch × IndexTables :=
  if idx.isProtected id then (summary, idx)
  else
    ({ commandsDropped := summary.commandsDropped + idx.commands.rows.countP fun c => c.id = id
       eventsDropped := summary.eventsDropped + idx.events.countP fun e => e.command = id
       refsDecremented := summary.refsDecremented + (idx.hashesOf id).length },
      idx.deleteCommand id)

def reapCommands (ids : List CommandId) (idx : IndexTables) : ReapBatch × IndexTables :=
  ids.foldl (fun acc id => reapOne acc.1 acc.2 id) (⟨0, 0, 0⟩, idx)

/-! ## The refcount invariant -/

/-- The number of events that refer to a blob. -/
def refs (events : List EventRow) (h : BlobHash) : Nat :=
  events.countP fun e => e.blobHash = some h

/-- Refcounts count events, and every event belongs to a command. -/
structure RefcountInvariant (idx : IndexTables) : Prop where
  counted : ∀ r ∈ idx.blobs, r.refcount = refs idx.events r.hash
  owned : ∀ e ∈ idx.events, ∃ c ∈ idx.commands, c.id = e.command

/-- The invariant with every referenced blob recorded: a blob recorded after an event that refers
to it would start at zero. -/
structure Consistent (idx : IndexTables) : Prop extends RefcountInvariant idx where
  recorded : ∀ e ∈ idx.events, ∀ h, e.blobHash = some h → ∃ r ∈ idx.blobs, r.hash = h

variable {idx idx' : IndexTables} {id : CommandId} {h : BlobHash} {event : CaptureEvent}
  {es : List EventRow} {r : BlobRow} {gone : CommandId → Bool} {eid : EventId}

theorem consistent_empty : Consistent empty where
  counted := by simp [empty]
  owned := by simp [empty]
  recorded := by simp [empty]

theorem mem_eventsForCommand {ev : CaptureEvent} :
    ev ∈ idx.eventsForCommand id ↔
      ∃ e ∈ idx.events, e.command = id ∧ { e.event with id := ⟨e.id⟩ } = ev := by
  simp [eventsForCommand, mem_insertionSort, and_assoc]

theorem commandExists_iff : idx.commandExists id = true ↔ ∃ c ∈ idx.commands, c.id = id := by
  simp [commandExists, Table.mem_iff]

/-! ## Removing commands -/

/-- Set every refcount to the number of events. -/
def recount (events : List EventRow) (blobs : Table BlobRow BlobHash BlobRow.hash) :
    Table BlobRow BlobHash BlobRow.hash :=
  blobs.update (fun r => { r with refcount := refs events r.hash }) fun _ => rfl

/-- The index without some commands: what dropping and reaping come to (`deleteCommand_eq`,
`reapCommands_snd`). -/
def without (gone : CommandId → Bool) (idx : IndexTables) : IndexTables :=
  { idx with
    commands := idx.commands.delete fun c => gone c.id
    events := idx.events.filter fun e => !gone e.command
    blobs := recount (idx.events.filter fun e => !gone e.command) idx.blobs }

theorem mem_recount {blobs : Table BlobRow BlobHash BlobRow.hash} :
    r ∈ recount es blobs ↔ ∃ r' ∈ blobs, { r' with refcount := refs es r'.hash } = r :=
  Table.mem_update

theorem recount_recount {es' : List EventRow} {blobs : Table BlobRow BlobHash BlobRow.hash} :
    recount es (recount es' blobs) = recount es blobs :=
  Table.update_update

theorem RefcountInvariant.recount (hinv : RefcountInvariant idx) :
    IndexTables.recount idx.events idx.blobs = idx.blobs := by
  apply Table.update_eq_self
  intro r hr
  rw [← hinv.counted r hr]

theorem without_without {p q : CommandId → Bool} :
    (idx.without p).without q = idx.without fun id => p id || q id := by
  have hevents : (idx.events.filter fun e => !p e.command).filter (fun e => !q e.command)
      = idx.events.filter fun e => !(p e.command || q e.command) := by
    simp [filter_filter, Bool.and_comm]
  simp only [without, Table.delete_delete, hevents, recount_recount]

theorem RefcountInvariant.without (hinv : RefcountInvariant idx) (gone : CommandId → Bool) :
    RefcountInvariant (idx.without gone) where
  counted := by
    intro r hr
    obtain ⟨r', -, rfl⟩ := mem_recount.mp hr
    rfl
  owned := by
    intro e he
    obtain ⟨he, hkept⟩ := mem_filter.mp he
    obtain ⟨c, hc, hid⟩ := hinv.owned e he
    refine ⟨c, Table.mem_delete.mpr ⟨hc, ?_⟩, hid⟩
    rw [hid]
    simpa using hkept

theorem Consistent.without (hcon : Consistent idx) (gone : CommandId → Bool) :
    Consistent (idx.without gone) where
  toRefcountInvariant := hcon.toRefcountInvariant.without gone
  recorded := by
    intro e he h hh
    obtain ⟨r, hr, rfl⟩ := hcon.recorded e (mem_of_mem_filter he) h hh
    exact ⟨_, mem_recount.mpr ⟨r, hr, rfl⟩, rfl⟩

theorem RefcountInvariant.without_of_forall (hinv : RefcountInvariant idx)
    (hgone : ∀ c ∈ idx.commands, gone c.id = false) :
    idx.without gone = idx := by
  have hevents : (idx.events.filter fun e => !gone e.command) = idx.events := by
    rw [filter_eq_self]
    intro e he
    obtain ⟨c, hc, hid⟩ := hinv.owned e he
    rw [← hid, hgone c hc]
    rfl
  rw [IndexTables.without, hevents, hinv.recount, Table.delete_eq_self hgone]

theorem foldl_decrement (hashes : List BlobHash) (blobs : Table BlobRow BlobHash BlobRow.hash) :
    hashes.foldl decrement blobs
      = blobs.update (fun r => { r with refcount := r.refcount - hashes.count r.hash })
        fun _ => rfl := by
  induction hashes generalizing blobs with
  | nil => exact (Table.update_eq_self fun r _ => by simp).symm
  | cons h hashes ih =>
    rw [foldl_cons, ih, decrement, Table.update_update]
    apply Table.update_congr
    intro r _
    by_cases hr : r.hash = h
    · subst hr
      simp only [Function.comp_apply, if_true, count_cons_self]
      congr 1
      omega
    · have hne : (h == r.hash) = false := by simpa using fun he => hr he.symm
      simp [hr, count_cons, hne]

theorem count_hashesOf (idx : IndexTables) (id : CommandId) (h : BlobHash) :
    refs idx.events h
      = (idx.hashesOf id).count h + refs (idx.events.filter fun e => e.command ≠ id) h := by
  have hsplit := countP_eq_countP_filter_add idx.events
    (fun e => decide (e.blobHash = some h)) (fun e => decide (e.command = id))
  rw [refs, hsplit, hashesOf, count, countP_filterMap]
  congr 1
  · apply countP_congr
    intro e _
    cases e.blobHash <;> simp
  · simp [refs]

theorem RefcountInvariant.deleteCommand_eq (hinv : RefcountInvariant idx) (id : CommandId) :
    idx.deleteCommand id = idx.without fun c => c = id := by
  have hblobs : (idx.hashesOf id).foldl decrement idx.blobs
      = IndexTables.recount (idx.events.filter fun e => e.command ≠ id) idx.blobs := by
    rw [foldl_decrement]
    apply Table.update_congr
    intro r hr
    have hcount := count_hashesOf idx id r.hash
    rw [hinv.counted r hr, hcount, Nat.add_sub_cancel_left]
  simp only [deleteCommand, IndexTables.without, hblobs]
  simp

theorem isProtected_without :
    (idx.without gone).isProtected id = idx.isProtected id := rfl

theorem reapOne_snd (hinv : RefcountInvariant idx) (summary : ReapBatch) (id : CommandId) :
    (reapOne summary idx id).2 = idx.without fun c => c = id && !idx.isProtected c := by
  unfold reapOne
  split
  · rename_i hprot
    -- passed over: no command is both this one and unprotected
    refine (hinv.without_of_forall ?_).symm
    intro c _
    by_cases hc : c.id = id
    · simp [hc, hprot]
    · simp [hc]
  · rename_i hprot
    change idx.deleteCommand id = _
    rw [hinv.deleteCommand_eq]
    congr 1
    funext c
    by_cases hc : c = id
    · simp [hc, hprot]
    · simp [hc]

theorem foldl_reapOne (ids : List CommandId) (summary : ReapBatch) (hinv : RefcountInvariant idx) :
    (ids.foldl (fun acc id => reapOne acc.1 acc.2 id) (summary, idx)).2
      = idx.without fun c => ids.contains c && !idx.isProtected c := by
  induction ids generalizing summary idx with
  | nil => exact (hinv.without_of_forall fun _ _ => rfl).symm
  | cons id ids ih =>
    have hone := reapOne_snd hinv summary id
    rw [foldl_cons, ← Prod.mk.eta (p := reapOne summary idx id), hone,
      ih _ (hinv.without _), without_without]
    congr 1
    funext c
    rw [isProtected_without, contains_cons, ← Bool.and_or_distrib_right, beq_eq_decide]

theorem RefcountInvariant.reapCommands_snd (hinv : RefcountInvariant idx) (ids : List CommandId) :
    (idx.reapCommands ids).2 = idx.without fun c => ids.contains c && !idx.isProtected c :=
  foldl_reapOne ids _ hinv

theorem le_commandsDropped (ids : List CommandId) (acc : ReapBatch × IndexTables) :
    acc.1.commandsDropped
      ≤ (ids.foldl (fun acc id => reapOne acc.1 acc.2 id) acc).1.commandsDropped := by
  induction ids generalizing acc with
  | nil => exact Nat.le_refl _
  | cons id ids ih =>
    refine Nat.le_trans ?_ (ih _)
    change _ ≤ (reapOne acc.1 acc.2 id).1.commandsDropped
    unfold reapOne
    split
    · exact Nat.le_refl _
    · exact Nat.le_add_right _ _

theorem commandsDropped_pos (ids : List CommandId) (hprot : idx.isProtected id = false)
    (hex : idx.commandExists id = true) : 0 < (idx.reapCommands (id :: ids)).1.commandsDropped := by
  refine Nat.lt_of_lt_of_le ?_ (le_commandsDropped ids (reapOne ⟨0, 0, 0⟩ idx id))
  obtain ⟨c, hc, hid⟩ := commandExists_iff.mp hex
  simp only [reapOne, hprot, Bool.false_eq_true, if_false, Nat.zero_add]
  exact countP_pos_iff.mpr ⟨c, hc, by simp [hid]⟩

/-! ## Every function keeps the index consistent -/

/-- The blob has a row. -/
def HasBlob (idx : IndexTables) (h : BlobHash) : Prop := ∃ r ∈ idx.blobs, r.hash = h

instance : Decidable (idx.HasBlob h) :=
  inferInstanceAs (Decidable (∃ r ∈ idx.blobs.rows, r.hash = h))

theorem refs_append (es : List EventRow) (e : EventRow) (h : BlobHash) :
    refs (es ++ [e]) h = refs es h + if e.blobHash = some h then 1 else 0 := by
  by_cases he : e.blobHash = some h
  · simp [refs, countP_append, he]
  · simp [refs, countP_append, he]

theorem refs_pos {e : EventRow} (he : e ∈ es) (hh : e.blobHash = some h) : 0 < refs es h :=
  countP_pos_iff.mpr ⟨e, he, by simp [hh]⟩

theorem mem_bump {blobs : Table BlobRow BlobHash BlobRow.hash} :
    r ∈ bump h blobs ↔
      ∃ r' ∈ blobs, (if r'.hash = h then { r' with refcount := r'.refcount + 1 } else r') = r :=
  Table.mem_update

/-- The rows of `blobs` after an insert: the same, each counting the new event if it refers to
it. -/
theorem mem_appendEvent_blobs :
    r ∈ (idx.appendEvent event).blobs ↔
      ∃ r' ∈ idx.blobs, r = { r' with
        refcount := r'.refcount + if event.kind.blobHash = some r'.hash then 1 else 0 } := by
  unfold appendEvent
  cases hb : event.kind.blobHash with
  | none => simp
  | some h =>
    simp only [mem_bump, Option.some.injEq]
    refine exists_congr fun r' => and_congr_right fun _ => ?_
    by_cases hr : r'.hash = h
    · simp [hr, eq_comm]
    · simp [hr, Ne.symm hr, eq_comm]

@[simp] theorem hasBlob_appendEvent : (idx.appendEvent event).HasBlob h ↔ idx.HasBlob h := by
  constructor
  · rintro ⟨r, hr, rfl⟩
    obtain ⟨r', hr', rfl⟩ := mem_appendEvent_blobs.mp hr
    exact ⟨r', hr', rfl⟩
  · rintro ⟨r, hr, rfl⟩
    exact ⟨_, mem_appendEvent_blobs.mpr ⟨r, hr, rfl⟩, rfl⟩

theorem putEvent_eq_ok :
    idx.putEvent event = .ok (eid, idx') ↔
      (∃ c ∈ idx.commands, c.id = event.command) ∧ eid = ⟨idx.nextEventId⟩
        ∧ idx' = idx.appendEvent event := by
  unfold putEvent
  rw [← commandExists_iff]
  by_cases hex : idx.commandExists event.command = true
  · simp [hex, eq_comm]
  · simp [hex]

section

variable (hcon : Consistent idx)

include hcon

theorem Consistent.appendEvent (hcmd : ∃ c ∈ idx.commands, c.id = event.command)
    (hblob : ∀ h, event.kind.blobHash = some h → idx.HasBlob h) :
    Consistent (idx.appendEvent event) where
  counted := by
    intro r hr
    obtain ⟨r', hr', rfl⟩ := mem_appendEvent_blobs.mp hr
    have hrefs := refs_append idx.events ⟨idx.nextEventId, event⟩ r'.hash
    simp only [hcon.counted r' hr']
    exact hrefs.symm
  owned := by
    intro e he
    rcases mem_append.mp he with he | he
    · exact hcon.owned e he
    · rw [mem_singleton.mp he]
      exact hcmd
  recorded := by
    intro e he h hh
    apply hasBlob_appendEvent.mpr
    rcases mem_append.mp he with he | he
    · exact hcon.recorded e he h hh
    · rw [mem_singleton.mp he] at hh
      exact hblob h hh

theorem Consistent.putEvent (hblob : ∀ h, event.kind.blobHash = some h → idx.HasBlob h)
    (hput : idx.putEvent event = .ok (eid, idx')) : Consistent idx' := by
  obtain ⟨hcmd, -, rfl⟩ := putEvent_eq_ok.mp hput
  exact hcon.appendEvent hcmd hblob

theorem Consistent.putEventBatch {events : List CaptureEvent} {eids : List EventId}
    (hblob : ∀ event ∈ events, ∀ h, event.kind.blobHash = some h → idx.HasBlob h)
    (hput : idx.putEventBatch events = .ok (eids, idx')) : Consistent idx' := by
  induction events generalizing idx eids with
  | nil =>
    simp only [IndexTables.putEventBatch, Except.ok.injEq, Prod.mk.injEq] at hput
    exact hput.2 ▸ hcon
  | cons event events ih =>
    rw [IndexTables.putEventBatch] at hput
    split at hput
    · cases hput
    rename_i hone
    split at hput
    · cases hput
    rename_i hrest
    cases hput
    have hfirst := hblob event mem_cons_self
    refine ih (hcon.putEvent hfirst hone) ?_ hrest
    -- an insert records and forgets no blob
    obtain ⟨-, -, rfl⟩ := putEvent_eq_ok.mp hone
    intro ev hev h hh
    exact hasBlob_appendEvent.mpr (hblob ev (mem_cons_of_mem _ hev) h hh)

theorem Consistent.putBlobRecord (hash : BlobHash) (size : Nat) (compressed : Bool)
    (created : TimePoint) :
    Consistent (idx.putBlobRecord hash size compressed created) where
  counted := by
    intro r hr
    rcases Table.mem_insertOrIgnore.mp hr with hr | ⟨rfl, hnew⟩
    · exact hcon.counted r hr
    -- a new row: no event can refer to a blob that had none
    refine (Nat.eq_zero_of_not_pos ?_).symm
    intro hpos
    obtain ⟨e, he, hh⟩ := countP_pos_iff.mp hpos
    obtain ⟨r, hr, hkey⟩ := hcon.recorded e he hash (by simpa using hh)
    exact hnew r hr hkey
  owned := hcon.owned
  recorded := by
    intro e he h hh
    obtain ⟨r, hr, hkey⟩ := hcon.recorded e he h hh
    exact ⟨r, Table.mem_insertOrIgnore.mpr (Or.inl hr), hkey⟩

end

theorem hasBlob_putBlobRecord (idx : IndexTables) (hash : BlobHash) (size : Nat)
    (compressed : Bool) (created : TimePoint) :
    (idx.putBlobRecord hash size compressed created).HasBlob hash := by
  by_cases hthere : idx.HasBlob hash
  · obtain ⟨r, hr, hkey⟩ := hthere
    exact ⟨r, Table.mem_insertOrIgnore.mpr (Or.inl hr), hkey⟩
  · refine ⟨_, Table.mem_insertOrIgnore.mpr (Or.inr ⟨rfl, ?_⟩), rfl⟩
    intro r hr hkey
    exact hthere ⟨r, hr, hkey⟩

theorem mem_dropBlobRecord :
    r ∈ (idx.dropBlobRecord h).2.blobs ↔ r ∈ idx.blobs ∧ ¬(r.hash = h ∧ r.refcount = 0) := by
  simp [dropBlobRecord]

theorem RefcountInvariant.dropBlobRecord (hinv : RefcountInvariant idx) (h : BlobHash) :
    RefcountInvariant (idx.dropBlobRecord h).2 where
  counted := fun r hr => hinv.counted r (mem_dropBlobRecord.mp hr).1
  owned := hinv.owned

variable (hcon : Consistent idx)

include hcon

theorem Consistent.dropBlobRecord (h : BlobHash) :
    Consistent (idx.dropBlobRecord h).2 where
  toRefcountInvariant := hcon.toRefcountInvariant.dropBlobRecord h
  recorded := by
    intro e he h' hh
    obtain ⟨r, hr, rfl⟩ := hcon.recorded e he h' hh
    refine ⟨r, mem_dropBlobRecord.mpr ⟨hr, ?_⟩, rfl⟩
    rintro ⟨-, hzero⟩
    have hpos : 0 < refs idx.events r.hash := refs_pos he hh
    have hcount := hcon.counted r hr
    omega

theorem Consistent.dropCommand {n : Nat} (hdrop : idx.dropCommand id = .ok (n, idx')) :
    Consistent idx' := by
  unfold IndexTables.dropCommand at hdrop
  split at hdrop
  · cases hdrop
  · cases hdrop
    rw [hcon.toRefcountInvariant.deleteCommand_eq]
    exact hcon.without _

theorem Consistent.reapCommands (ids : List CommandId) : Consistent (idx.reapCommands ids).2 := by
  rw [hcon.toRefcountInvariant.reapCommands_snd]
  exact hcon.without _

theorem Consistent.putCommand (id : CommandId) (started : Nat) :
    Consistent (idx.putCommand id started) where
  counted := hcon.counted
  owned := by
    intro e he
    obtain ⟨c, hc, hid⟩ := hcon.owned e he
    exact ⟨c, Table.mem_insertOrIgnore.mpr (Or.inl hc), hid⟩
  recorded := hcon.recorded

end IndexTables

end ShitUndo
