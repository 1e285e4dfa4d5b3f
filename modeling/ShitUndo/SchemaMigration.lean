import Mathlib.Data.List.Basic
import Mathlib.Data.List.Flatten
import Mathlib.Data.Nat.Init
import Mathlib.Tactic.Common

/-!
# Schema migrations

`schema::apply` (`schema.rs`, `migrations/`): the scripts with a version above the recorded one run
one after the other. No script opens a transaction, so that every statement is kept as soon as it
has run, and a crash leaves the database between two statements.

The version of a script is written by one of its statements: by the second one in the first script,
by the last one in the others. So a script that was cut off is either taken for complete or run a
second time from its start, and the database recovers from a crash exactly if it falls between two
scripts (`recovers_iff`).
-/

namespace ShitUndo.Schema

open List

/-! ## Statements -/

inductive TableName where
  | schemaVersion | sessions | commands | events | blobs | paths | pins | largeObjects | chunks
  | holds | bookmarks | containerStashes
deriving DecidableEq, Repr

inductive IndexName where
  | eventsCommand | eventsInodeTime | eventsPathTime | eventsBlob | blobsRefcount | pathsInode
  | pathsActive | commandsAgeImportance | largeObjectsUnmaterialized | chunksHash | holdsExpires
  | holdsOwnerUser | containerStashesCreatedUnix | containerStashesCommand
deriving DecidableEq, Repr

/-- The statements the scripts are made of. -/
inductive Stmt where
  | createTable (name : TableName) (columns : List String)
  | createIndex (name : IndexName) (table : TableName) (columns : List String)
  | addColumn (table : TableName) (column : String)
  | insertVersion (version : Nat)
deriving DecidableEq, Repr

/-- The schema of a database and the rows of `schema_version`. -/
structure Database where
  tables : List (TableName × List String)
  indexes : List IndexName
  versions : List Nat
deriving DecidableEq, Repr

namespace Database

def empty : Database := ⟨[], [], []⟩

def hasTable (db : Database) (name : TableName) : Bool := db.tables.any fun t => t.1 = name

/-- The table has all the columns. -/
def hasColumns (db : Database) (name : TableName) (columns : List String) : Bool :=
  db.tables.any fun t => t.1 = name ∧ ∀ c ∈ columns, c ∈ t.2

/-- One statement; `none` is an error, which changes nothing. -/
def exec (db : Database) : Stmt → Option Database
  | .createTable name columns =>
    if db.hasTable name then none else some { db with tables := db.tables ++ [(name, columns)] }
  | .createIndex name table columns =>
    if name ∈ db.indexes ∨ !db.hasColumns table columns then none
    else some { db with indexes := db.indexes ++ [name] }
  | .addColumn table column =>
    if !db.hasTable table ∨ db.hasColumns table [column] then none
    else some { db with
      tables := db.tables.map fun t => if t.1 = table then (t.1, t.2 ++ [column]) else t }
  | .insertVersion version =>
    if !db.hasTable .schemaVersion ∨ version ∈ db.versions then none
    else some { db with versions := db.versions ++ [version] }

/-- `execute_batch`: the statements up to the first that fails, and whether all of them ran. -/
def executeBatch (db : Database) : List Stmt → Database × Bool
  | [] => (db, true)
  | stmt :: rest =>
    match db.exec stmt with
    | none => (db, false)
    | some db' => executeBatch db' rest

/-- `current_version`; `MAX` over no rows is `NULL` and cannot be read as a number. -/
def currentVersion (db : Database) : Option Nat :=
  if db.hasTable .schemaVersion then db.versions.max? else some 0

end Database

/-! ## The scripts -/

/-- `0001-init.sql`. -/
def initScript : List Stmt :=
  [.createTable .schemaVersion ["version"],
    .insertVersion 1,
    .createTable .sessions ["id", "shell_kind", "parent_pid", "tty", "opened_logical",
      "opened_wall_nanos", "closed_logical", "closed_wall_nanos"],
    .createTable .commands ["session", "seq", "cmd_string", "cwd", "pid", "shell_kind",
      "started_logical", "started_wall_nanos", "ended_logical", "ended_wall_nanos", "exit_code"],
    .createTable .events ["id", "session", "seq", "ts_logical", "ts_wall_nanos", "partial",
      "discriminant", "dev", "inode", "path", "blob_hash", "post_content_hash", "payload"],
    .createIndex .eventsCommand .events ["session", "seq", "ts_logical"],
    .createIndex .eventsInodeTime .events ["dev", "inode", "ts_logical"],
    .createIndex .eventsPathTime .events ["path", "ts_logical"],
    .createIndex .eventsBlob .events ["blob_hash"],
    .createTable .blobs ["hash", "size", "compressed", "refcount", "created_logical"],
    .createIndex .blobsRefcount .blobs ["refcount"],
    .createTable .paths ["path", "dev", "inode", "valid_from_logical", "valid_to_logical"],
    .createIndex .pathsInode .paths ["dev", "inode"],
    .createIndex .pathsActive .paths ["path"],
    .createTable .pins ["session", "seq", "name", "pinned_logical", "expires_logical"]]

/-- `0002-importance.sql`. -/
def importanceScript : List Stmt :=
  [.addColumn .commands "importance",
    .createIndex .commandsAgeImportance .commands ["started_logical", "importance"],
    .insertVersion 2]

/-- `0003-large-objects-and-holds.sql`. -/
def largeObjectsScript : List Stmt :=
  [.createTable .largeObjects ["blob_hash", "total_size", "chunk_count", "materialized",
      "created_logical"],
    .createIndex .largeObjectsUnmaterialized .largeObjects ["blob_hash"],
    .createTable .chunks ["blob_hash", "idx", "offset", "length", "hash", "materialized"],
    .createIndex .chunksHash .chunks ["hash"],
    .createTable .holds ["session", "seq", "owner_pid", "owner_user", "taken_logical",
      "expires_logical", "note"],
    .createIndex .holdsExpires .holds ["expires_logical"],
    .createIndex .holdsOwnerUser .holds ["owner_user"],
    .createTable .bookmarks ["session", "seq", "created_logical", "note"],
    .insertVersion 3]

/-- `0004-container-stash.sql`. -/
def containerStashScript : List Stmt :=
  [.createTable .containerStashes ["blob_hash", "kind", "runtime", "name", "size_bytes",
      "created_unix_secs", "session", "seq", "note"],
    .createIndex .containerStashesCreatedUnix .containerStashes ["created_unix_secs"],
    .createIndex .containerStashesCommand .containerStashes ["session", "seq"],
    .insertVersion 4]

def migrations : List (Nat × List Stmt) :=
  [(1, initScript), (2, importanceScript), (3, largeObjectsScript), (4, containerStashScript)]

def targetVersion : Nat := 4

/-- The statements `apply` runs for a database at version `current`. -/
def pending (current : Nat) : List Stmt :=
  (migrations.filter fun m => current < m.1).flatMap Prod.snd

/-- `apply` with a crash after at most `steps` statements: what is on disk then, and whether
`apply` has returned `Ok`. Without a crash `steps` is the number of statements. -/
def applyFor (steps : Nat) (db : Database) : Database × Bool :=
  match db.currentVersion with
  | none => (db, false)
  | some current =>
    if targetVersion < current then (db, false)
    else
      let ran := db.executeBatch ((pending current).take steps)
      (ran.1, ran.2 ∧ (pending current).length ≤ steps)

/-- `apply`, run to its end. -/
def apply (db : Database) : Database × Bool := applyFor (pending 0).length db

/-- A database that an earlier version has left: its scripts have run to their end. -/
def atVersion (version : Nat) : Database :=
  (Database.empty.executeBatch
    ((migrations.filter fun m => m.1 ≤ version).flatMap Prod.snd)).1

/-- The crash is followed by a restart that completes the schema. -/
def Recovers (version steps : Nat) : Prop :=
  apply (applyFor steps (atVersion version)).1 = (atVersion targetVersion, true)

instance (version steps : Nat) : Decidable (Recovers version steps) :=
  inferInstanceAs (Decidable (_ = _))

/-- After this many statements, no script has been begun and not ended. -/
def BetweenScripts (version steps : Nat) : Prop :=
  (pending version).length ≤ steps ∨
    ∃ w ∈ range (targetVersion + 1), steps + (pending w).length = (pending version).length

instance (version steps : Nat) : Decidable (BetweenScripts version steps) :=
  inferInstanceAs (Decidable (_ ∨ _))

/-! ## Statements run once -/

section Statements

open Database

variable {db db' db'' : Database} {stmt : Stmt} {l rest : List Stmt} {name : TableName}

theorem hasTable_iff : db.hasTable name = true ↔ ∃ t ∈ db.tables, t.1 = name := by
  simp [hasTable]

theorem hasColumns_iff {column : String} :
    db.hasColumns name [column] = true ↔ ∃ t ∈ db.tables, t.1 = name ∧ column ∈ t.2 := by
  simp [hasColumns]

/-- What the statement makes is there. -/
def Database.Done (db : Database) : Stmt → Prop
  | .createTable name _ => db.hasTable name = true
  | .createIndex name _ _ => name ∈ db.indexes
  | .addColumn table column => db.hasColumns table [column] = true
  | .insertVersion version => version ∈ db.versions

/-- No statement of the scripts says `IF NOT EXISTS`. -/
theorem Database.Done.exec_eq_none (h : db.Done stmt) : db.exec stmt = none := by
  cases stmt with
  | createTable name columns => exact if_pos h
  | createIndex name table columns => exact if_pos (.inl h)
  | addColumn table column => exact if_pos (.inr h)
  | insertVersion version => exact if_pos (.inr h)

/-- Everything is kept: tables with their columns, indexes and versions. -/
structure Database.Grows (db db' : Database) : Prop where
  tables : ∀ t ∈ db.tables, ∃ t' ∈ db'.tables, t'.1 = t.1 ∧ t.2 ⊆ t'.2
  indexes : db.indexes ⊆ db'.indexes
  versions : db.versions ⊆ db'.versions

theorem Database.Grows.of_tables (hle : db.tables ⊆ db'.tables) (indexes : db.indexes ⊆ db'.indexes)
    (versions : db.versions ⊆ db'.versions) : db.Grows db' :=
  ⟨fun t ht => ⟨t, hle ht, rfl, Subset.refl _⟩, indexes, versions⟩

theorem Database.Grows.refl (db : Database) : db.Grows db :=
  .of_tables (Subset.refl _) (Subset.refl _) (Subset.refl _)

theorem Database.Grows.trans (h : db.Grows db') (h' : db'.Grows db'') : db.Grows db'' where
  tables := by
    intro t ht
    obtain ⟨t', ht', hname, hcolumns⟩ := h.tables t ht
    obtain ⟨t'', ht'', hname', hcolumns'⟩ := h'.tables t' ht'
    exact ⟨t'', ht'', hname'.trans hname, Subset.trans hcolumns hcolumns'⟩
  indexes := Subset.trans h.indexes h'.indexes
  versions := Subset.trans h.versions h'.versions

theorem Database.Done.mono (hdone : db.Done stmt) (h : db.Grows db') : db'.Done stmt := by
  cases stmt with
  | createTable name columns =>
    obtain ⟨t, ht, hname⟩ := hasTable_iff.mp hdone
    obtain ⟨t', ht', hname', -⟩ := h.tables t ht
    exact hasTable_iff.mpr ⟨t', ht', hname'.trans hname⟩
  | createIndex name table columns => exact h.indexes hdone
  | addColumn table column =>
    obtain ⟨t, ht, hname, hcolumn⟩ := hasColumns_iff.mp hdone
    obtain ⟨t', ht', hname', hle⟩ := h.tables t ht
    exact hasColumns_iff.mpr ⟨t', ht', hname'.trans hname, hle hcolumn⟩
  | insertVersion version => exact h.versions hdone

/-- A statement that runs makes what it says, and keeps the rest. -/
theorem exec_some (h : db.exec stmt = some db') : db'.Done stmt ∧ db.Grows db' := by
  cases stmt with
  | createTable name columns =>
    obtain ⟨-, rfl⟩ := by simpa [exec] using h
    exact ⟨hasTable_iff.mpr ⟨(name, columns), by simp⟩,
      .of_tables (subset_append_left _ _) (Subset.refl _) (Subset.refl _)⟩
  | createIndex name table columns =>
    obtain ⟨-, rfl⟩ := by simpa [exec] using h
    exact ⟨by simp [Done], .of_tables (Subset.refl _) (subset_append_left _ _) (Subset.refl _)⟩
  | addColumn table column =>
    obtain ⟨⟨htable, -⟩, rfl⟩ := by simpa [exec] using h
    refine ⟨?_, ⟨?_, Subset.refl _, Subset.refl _⟩⟩
    · obtain ⟨t, ht, hname⟩ := hasTable_iff.mp htable
      exact hasColumns_iff.mpr ⟨_, mem_map_of_mem ht, by simp [hname]⟩
    · intro t ht
      refine ⟨_, mem_map_of_mem ht, ?_⟩
      split_ifs
      · exact ⟨rfl, subset_append_left _ _⟩
      · exact ⟨rfl, Subset.refl _⟩
  | insertVersion version =>
    obtain ⟨-, rfl⟩ := by simpa [exec] using h
    exact ⟨by simp [Done], .of_tables (Subset.refl _) (Subset.refl _) (subset_append_left _ _)⟩

theorem grows_executeBatch : db.Grows (db.executeBatch l).1 := by
  induction l generalizing db with
  | nil => exact .refl db
  | cons stmt l ih =>
    rw [executeBatch]
    cases hstmt : db.exec stmt with
    | none => exact .refl db
    | some db' => exact (exec_some hstmt).2.trans ih

/-- **A script that has begun cannot be run from its start.** -/
theorem executeBatch_restart {k : Nat} (hk : 0 < k) (hne : l ≠ [])
    (hran : (db.executeBatch l).2 = true) :
    ((db.executeBatch (l.take k)).1.executeBatch (l ++ rest)).2 = false := by
  cases l with
  | nil => exact absurd rfl hne
  | cons stmt l =>
    cases k with
    | zero => cases hk
    | succ k =>
      cases hstmt : db.exec stmt with
      | none => simp [executeBatch, hstmt] at hran
      | some db' =>
        have hdone : (db'.executeBatch (l.take k)).1.Done stmt :=
          (exec_some hstmt).1.mono grows_executeBatch
        simp only [take_succ_cons, executeBatch, hstmt, cons_append, hdone.exec_eq_none]

theorem executeBatch_append (hran : db.executeBatch l = (db', true)) :
    db.executeBatch (l ++ rest) = db'.executeBatch rest := by
  induction l generalizing db with
  | nil =>
    cases hran
    rfl
  | cons stmt l ih =>
    rw [executeBatch] at hran
    rw [cons_append, executeBatch]
    cases hstmt : db.exec stmt with
    | none => simp [hstmt] at hran
    | some db₁ =>
      rw [hstmt] at hran
      exact ih hran

def Stmt.creates (name : TableName) : Stmt → Bool
  | .createTable other _ => other = name
  | _ => false

/-- A table that was not there is the work of a statement. -/
theorem hasTable_of_executeBatch (hcreates : ∀ stmt ∈ l, stmt.creates name = false)
    (h : (db.executeBatch l).1.hasTable name = true) : db.hasTable name = true := by
  induction l generalizing db with
  | nil => exact h
  | cons stmt l ih =>
    rw [executeBatch] at h
    cases hstmt : db.exec stmt with
    | none => simpa only [hstmt] using h
    | some db' =>
      rw [hstmt] at h
      have hthere : db'.hasTable name = true :=
        ih (fun stmt' hin => hcreates stmt' (mem_cons_of_mem _ hin)) h
      obtain ⟨t, ht, hname⟩ := hasTable_iff.mp hthere
      cases stmt with
      | createTable other columns =>
        obtain ⟨-, rfl⟩ := by simpa [exec] using hstmt
        rcases mem_append.mp ht with ht | ht
        · exact hasTable_iff.mpr ⟨t, ht, hname⟩
        · rw [mem_singleton.mp ht] at hname
          exact absurd hname (of_decide_eq_false (hcreates _ mem_cons_self))
      | addColumn table column =>
        obtain ⟨-, rfl⟩ := by simpa [exec] using hstmt
        obtain ⟨t₀, ht₀, rfl⟩ := mem_map.mp ht
        refine hasTable_iff.mpr ⟨t₀, ht₀, ?_⟩
        split_ifs at hname
        · exact hname
        · exact hname
      | createIndex | insertVersion =>
        obtain ⟨-, rfl⟩ := by simpa [exec] using hstmt
        exact hthere

/-- The statement is not about the version. -/
def Stmt.keepsVersion : Stmt → Bool
  | .insertVersion _ => false
  | stmt => !stmt.creates .schemaVersion

theorem currentVersion_executeBatch (hkeeps : ∀ stmt ∈ l, stmt.keepsVersion = true) :
    (db.executeBatch l).1.currentVersion = db.currentVersion := by
  have htable : (db.executeBatch l).1.hasTable .schemaVersion = db.hasTable .schemaVersion := by
    rw [Bool.eq_iff_iff]
    constructor
    · apply hasTable_of_executeBatch
      intro stmt hin
      have hstmt := hkeeps stmt hin
      cases stmt with
      | createTable other columns => exact Bool.not_eq_true' _ |>.mp hstmt
      | createIndex | addColumn | insertVersion => rfl
    · intro h
      have hdone : db.Done (.createTable .schemaVersion []) := h
      exact hdone.mono grows_executeBatch
  have hversions : (db.executeBatch l).1.versions = db.versions := by
    clear htable
    induction l generalizing db with
    | nil => rfl
    | cons stmt l ih =>
      rw [executeBatch]
      cases hstmt : db.exec stmt with
      | none => rfl
      | some db' =>
        refine (ih fun stmt' hin => hkeeps stmt' (mem_cons_of_mem _ hin)).trans ?_
        have hstmt' := hkeeps stmt mem_cons_self
        cases stmt with
        | insertVersion => cases hstmt'
        | createTable | createIndex | addColumn =>
          obtain ⟨-, rfl⟩ := by simpa [exec] using hstmt
          rfl
  rw [currentVersion, currentVersion, htable, hversions]

end Statements

/-! ## Scripts -/

/-- The script that leads to the version. -/
def script (version : Nat) : List Stmt := (migrations.lookup version).getD []

theorem pending_of_lt {v : Nat} (hv : v < targetVersion) :
    pending v = script (v + 1) ++ pending (v + 1) := by
  revert v
  decide

theorem pending_antitone {v w : Nat} (hvw : v ≤ w) : (pending w).length ≤ (pending v).length := by
  refine (Sublist.flatMap (monotone_filter_right _ ?_) _).length_le
  intro m hm
  rw [decide_eq_true_eq] at hm ⊢
  omega

/-- Every script runs to its end where the ones before it have. -/
theorem executeBatch_script {v : Nat} (hv : v < targetVersion) :
    (atVersion v).executeBatch (script (v + 1)) = (atVersion (v + 1), true) := by
  revert v
  decide +kernel

theorem currentVersion_atVersion {v : Nat} (hv : v ≤ targetVersion) :
    (atVersion v).currentVersion = some v := by
  revert v
  decide +kernel

theorem apply_of_currentVersion {db : Database} {v : Nat} (hcurrent : db.currentVersion = some v)
    (hv : v ≤ targetVersion) : apply db = db.executeBatch (pending v) := by
  have hle := pending_antitone (Nat.zero_le v)
  simp only [apply, applyFor, hcurrent, Nat.not_lt.mpr hv, if_false, take_of_length_le hle, hle,
    and_true, Bool.decide_eq_true]

theorem apply_atVersion {v : Nat} (hv : v ≤ targetVersion) :
    apply (atVersion v) = (atVersion targetVersion, true) := by
  rw [apply_of_currentVersion (currentVersion_atVersion hv) hv]
  induction hv using Nat.decreasingInduction with
  | self => rfl
  | of_succ v hv ih => rw [pending_of_lt hv, executeBatch_append (executeBatch_script hv), ih]

/-! ## Crashes -/

theorem forall_mem_take_of_lt {p : Stmt → Prop} {stmts : List Stmt} {k : Nat}
    (hcut : k < stmts.length) (hall : ∀ stmt ∈ stmts.dropLast, p stmt) :
    ∀ stmt ∈ stmts.take k, p stmt := by
  intro stmt hin
  apply hall
  rw [dropLast_eq_take]
  exact take_subset_take_left stmts (by omega) hin

/-- The later scripts record their version at the end, so that a cut one runs again, and its first
statement fails. -/
theorem later_cut_fails {v k : Nat} (hpos : 0 < v) (hv : v < targetVersion) (hk : 0 < k)
    (hcut : k < (script (v + 1)).length) :
    (apply ((atVersion v).executeBatch ((script (v + 1)).take k)).1).2 = false := by
  have hkeeps : ∀ v < targetVersion, 0 < v →
      ∀ stmt ∈ (script (v + 1)).dropLast, stmt.keepsVersion = true := by decide
  have hcurrent : ((atVersion v).executeBatch ((script (v + 1)).take k)).1.currentVersion
      = some v := by
    rw [currentVersion_executeBatch (forall_mem_take_of_lt hcut (hkeeps v hv hpos)),
      currentVersion_atVersion (Nat.le_of_lt hv)]
  rw [apply_of_currentVersion hcurrent (Nat.le_of_lt hv), pending_of_lt hv]
  exact executeBatch_restart hk (ne_nil_of_length_pos (by omega)) (by rw [executeBatch_script hv])

/-- The first script records its version with the second statement, so that it is not run again
once it is cut behind that, and what follows there is left out. -/
theorem init_cut_skipped {k : Nat} (hk : 2 ≤ k) (hcut : k < initScript.length) :
    (apply (Database.empty.executeBatch (initScript.take k)).1).1.hasTable .pins = false := by
  obtain ⟨n, rfl⟩ := Nat.exists_eq_add_of_le hk
  have hrecorded : Database.empty.executeBatch (initScript.take 2)
      = (⟨[(.schemaVersion, ["version"])], [], [1]⟩, true) := by decide
  have hrest : ∀ stmt ∈ initScript.drop 2, stmt.keepsVersion = true := by decide
  have hcurrent : (Database.empty.executeBatch (initScript.take (2 + n))).1.currentVersion
      = some 1 := by
    rw [take_add, executeBatch_append hrecorded, currentVersion_executeBatch]
    · decide
    · intro stmt hin
      exact hrest stmt (mem_of_mem_take hin)
  rw [apply_of_currentVersion hcurrent (by decide), Bool.eq_false_iff]
  intro hpins
  have hlater : ∀ stmt ∈ pending 1, stmt.creates .pins = false := by decide
  have hbefore : ∀ stmt ∈ initScript.dropLast, stmt.creates .pins = false := by decide
  have hthere : Database.empty.hasTable .pins = true :=
    hasTable_of_executeBatch (forall_mem_take_of_lt hcut hbefore)
      (hasTable_of_executeBatch hlater hpins)
  cases hthere

/-- **A script that was cut off is not completed.** -/
theorem cut_not_completed {v k : Nat} (hv : v < targetVersion) (hk : 0 < k)
    (hcut : k < (script (v + 1)).length) :
    apply ((atVersion v).executeBatch ((script (v + 1)).take k)).1
      ≠ (atVersion targetVersion, true) := by
  intro hcompleted
  rcases Nat.eq_zero_or_pos v with rfl | hpos
  · rcases Nat.lt_or_ge k 2 with hone | htwo
    · -- the version table has no row
      obtain rfl : k = 1 := by omega
      revert hcompleted
      decide +kernel
    · have hskipped := init_cut_skipped htwo hcut
      rw [show (Database.empty.executeBatch (initScript.take k)).1
        = ((atVersion 0).executeBatch ((script (0 + 1)).take k)).1 from rfl, hcompleted] at hskipped
      revert hskipped
      decide +kernel
  · have hfails := later_cut_fails hpos hv hk hcut
    rw [hcompleted] at hfails
    cases hfails

theorem applyFor_atVersion {v : Nat} (hv : v ≤ targetVersion) (steps : Nat) :
    (applyFor steps (atVersion v)).1 = ((atVersion v).executeBatch ((pending v).take steps)).1 := by
  simp only [applyFor, currentVersion_atVersion hv, Nat.not_lt.mpr hv, if_false]

/-- **Recovery from a crash**: it succeeds exactly if no script was cut off. -/
theorem recovers_iff {version : Nat} (hversion : version ≤ targetVersion) (steps : Nat) :
    Recovers version steps ↔ BetweenScripts version steps := by
  rw [Recovers, applyFor_atVersion hversion]
  induction hversion using Nat.decreasingInduction generalizing steps with
  | self =>
    rw [show pending targetVersion = [] from rfl, take_nil]
    exact iff_of_true (apply_atVersion (Nat.le_refl _)) (.inl (Nat.zero_le _))
  | of_succ v hv ih =>
    have hlength : (pending v).length = (script (v + 1)).length + (pending (v + 1)).length := by
      rw [pending_of_lt hv, length_append]
    rw [pending_of_lt hv, take_append]
    rcases Nat.lt_or_ge steps (script (v + 1)).length with hcut | hran
    · -- the crash is in this script, or before it
      rw [Nat.sub_eq_zero_of_le (Nat.le_of_lt hcut), take_zero, append_nil]
      rcases Nat.eq_zero_or_pos steps with rfl | hpos
      · exact iff_of_true (apply_atVersion (Nat.le_of_lt hv))
          (.inr ⟨v, mem_range.mpr (by omega), by omega⟩)
      · refine iff_of_false (cut_not_completed hv hpos hcut) ?_
        rintro (hle | ⟨w, -, heq⟩)
        · omega
        · rcases Nat.lt_or_ge v w with hvw | hwv
          · have hle : (pending w).length ≤ (pending (v + 1)).length := pending_antitone hvw
            omega
          · have hle := pending_antitone hwv
            omega
    · -- the script has run to its end, and the crash is after it
      rw [take_of_length_le hran, executeBatch_append (executeBatch_script hv), ih]
      exact or_congr (by omega) (exists_congr fun w => and_congr_right fun _ => by omega)

/-- A crash between the first and the second script. -/
theorem recovers_after_init : BetweenScripts 0 15 ∧ Recovers 0 15 :=
  have hbetween : BetweenScripts 0 15 := by decide
  ⟨hbetween, (recovers_iff (by decide) 15).mpr hbetween⟩

/-- A version table without a row, a first script taken for complete, a column added twice. -/
theorem cut_scripts_not_recovered : ¬ Recovers 0 1 ∧ ¬ Recovers 0 4 ∧ ¬ Recovers 1 1 := by
  decide +kernel

end ShitUndo.Schema
