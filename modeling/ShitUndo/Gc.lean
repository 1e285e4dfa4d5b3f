import ShitUndo.BlobStore
import ShitUndo.IndexTables

/-!
# The garbage collector

`run_pass` (`gc.rs`): expired commands are marked and reaped in batches, then the blobs nothing
refers to are swept, then old path rows go.

* every look at the cancel flag is a `Checkpoint`, and a pass may be cancelled at any of them;
* the mark loop has fuel, one round per command and one more; `none` is running out of it, and
  `markLoop_spec` shows that this does not happen;
* `PassStop` lists the places where a pass can stop with what it has done by then, and
  `runPass_stops` shows that it stops at one of them.
-/

namespace ShitUndo

open Table Nat

open List hiding beq_eq_decide

/-! ## Configuration -/

/-- `GcConfig`. The freelist threshold only decides about `VACUUM`, which changes no row
(`GcEnv.shouldVacuum`). -/
structure GcConfig where
  ageThresholdLogical : Nat
  sizeCapBytes : Option Nat
  batchSize : UInt64
deriving Repr

/-- `batch_size as i64`. -/
def GcConfig.limit (config : GcConfig) : Int := toI64 config.batchSize.toNat

/-- `GcReport`, without the duration. -/
structure GcReport where
  commandsDropped : Nat
  eventsDropped : Nat
  blobsSwept : Nat
  bytesReclaimed : Nat
  pathsCompacted : Nat
  vacuumed : Bool
  aggressiveModeUsed : Bool
deriving DecidableEq, Repr

/-- `GcError`, as far as a pass returns it. -/
inductive GcError where
  | index (e : IndexError)
  | cancelled
deriving DecidableEq, Repr

/-- Where a pass looks at the cancel flag. -/
inductive Checkpoint where
  | mark (round : Nat)
  | sweep
  | blob (n : Nat)
  | compact
  | vacuum
deriving DecidableEq, Repr

/-- What a pass meets: the cancel flag, blob files it cannot delete, and the freelist. -/
structure GcEnv where
  cancel : Checkpoint → Bool
  deleteFails : BlobHash → Bool
  shouldVacuum : Bool

/-- Never cancelled. -/
def GcEnv.Uncancelled (env : GcEnv) : Prop := ∀ p, env.cancel p = false

/-- The index and the blob files. -/
structure Store where
  index : IndexTables
  files : BlobDir

def sizeThresholdBreached (sizeNow : Nat) (cap : Option Nat) : Bool :=
  cap.any fun c => c < sizeNow

/-- `u64::MAX`. -/
def u64Max : Nat := 2 ^ 64 - 1

/-- The 90 % trigger, `size_now * 10 >= cap * 9` on `u64`: a release build wraps around. -/
def nearCap (sizeNow : Nat) (cap : Option Nat) : Bool :=
  cap.any fun c => c * 9 % 2 ^ 64 ≤ sizeNow * 10 % 2 ^ 64

/-- `aggressive_mode_used`. -/
def GcConfig.aggressive (config : GcConfig) (sizeNow : Nat) : Bool :=
  sizeThresholdBreached sizeNow config.sizeCapBytes || nearCap sizeNow config.sizeCapBytes

def GcConfig.effectiveAgeCutoff (config : GcConfig) (now sizeNow : Nat) : Nat :=
  if config.aggressive sizeNow then u64Max else now - config.ageThresholdLogical

def cutoffSigned (cutoff : Nat) : Int := min (cutoff : Int) (2 ^ 63 - 1)

namespace IndexTables

/-! ## Mark and reap -/

/-- The `WHERE` of `mark_expired_batch`. -/
def isExpired (idx : IndexTables) (cutoff : Nat) (c : CommandRow) : Bool :=
  !idx.isProtected c.id && c.startedLogical < cutoffSigned cutoff

/-- `ORDER BY importance, started_logical`. -/
def evictedBefore (c c' : CommandRow) : Prop :=
  c.importance < c'.importance ∨ c.importance = c'.importance ∧ c.startedLogical ≤ c'.startedLogical

instance : DecidableRel evictedBefore :=
  fun c c' => inferInstanceAs (Decidable (c.importance < c'.importance ∨ _))

/-- `LIMIT`: no limit if negative. -/
def limitRows {α : Type} (limit : Int) (rows : List α) : List α :=
  if limit < 0 then rows else rows.take limit.toNat

/-- `mark_expired_batch`, with the limit as SQLite gets it. -/
def markExpiredBatch (idx : IndexTables) (cutoff : Nat) (limit : Int) : List CommandId :=
  (limitRows limit
    ((idx.commands.rows.filter (idx.isExpired cutoff)).insertionSort evictedBefore)).map
      CommandRow.id

end IndexTables

open IndexTables

/-- The mark and reap loop. -/
def markLoop (env : GcEnv) (cutoff : Nat) (limit : Int) :
    (fuel round : Nat) → GcReport → IndexTables → Option (IndexTables × Except GcError GcReport)
  | 0, _, _, _ => none
  | fuel + 1, round, report, idx =>
    if env.cancel (.mark round) then some (idx, .error .cancelled)
    else
      match idx.markExpiredBatch cutoff limit with
      | [] => some (idx, .ok report)
      | id :: ids =>
        let reaped := idx.reapCommands (id :: ids)
        let report' := { report with
          commandsDropped := report.commandsDropped + reaped.1.commandsDropped
          eventsDropped := report.eventsDropped + reaped.1.eventsDropped }
        if reaped.1.commandsDropped = 0 then some (reaped.2, .ok report')
        else markLoop env cutoff limit fuel (round + 1) report' reaped.2

/-! ## Sweep and compact -/

def IndexTables.blobSizeFor (idx : IndexTables) (h : BlobHash) : Option Nat :=
  (idx.blobs.rows.find? fun r => r.hash = h).map fun r => (max r.size 0).toNat

/-- Delete one blob: the file as far as that works, then the row. -/
def Store.sweepOne (store : BlobStore) (env : GcEnv) (s : Store) (h : BlobHash) : Store where
  index := (s.index.dropBlobRecord h).2
  files := if env.deleteFails h then s.files else store.delete s.files h

/-- The sweep loop, from the `n`-th blob of the list on. -/
def sweepLoop (store : BlobStore) (env : GcEnv) :
    (n : Nat) → GcReport → Store → List BlobHash → Store × Except GcError GcReport
  | _, report, s, [] => (s, .ok report)
  | n, report, s, h :: hs =>
    if env.cancel (.blob n) then (s, .error .cancelled)
    else
      let report' := if (s.index.dropBlobRecord h).1 then { report with
          blobsSwept := report.blobsSwept + 1
          bytesReclaimed := (report.bytesReclaimed + (s.index.blobSizeFor h).getD 0) % 2 ^ 64 }
        else report
      sweepLoop store env (n + 1) report' (s.sweepOne store env h) hs

/-- The path rows `compact_paths` deletes. -/
def PathRow.isOld (cutoff : Nat) (r : PathRow) : Bool :=
  r.validTo.any fun t => t < cutoffSigned cutoff

def IndexTables.compactPaths (idx : IndexTables) (cutoff : Nat) : Nat × IndexTables :=
  (idx.paths.countP (PathRow.isOld cutoff),
    { idx with paths := idx.paths.filter fun r => !r.isOld cutoff })

/-- The end of a pass, after the sweep. -/
def finishPass (env : GcEnv) (cutoff : Nat) :
    Store × Except GcError GcReport → Store × Except GcError GcReport
  | (s, .error e) => (s, .error e)
  | (s, .ok report) =>
    if env.cancel .compact then (s, .error .cancelled)
    else
      let compacted := s.index.compactPaths cutoff
      let s' := { s with index := compacted.2 }
      if env.cancel .vacuum then (s', .error .cancelled)
      else (s', .ok { report with pathsCompacted := compacted.1, vacuumed := env.shouldVacuum })

/-- A pass after the mark loop. -/
def sweepPass (store : BlobStore) (env : GcEnv) (cutoff : Nat) (files : BlobDir) :
    IndexTables × Except GcError GcReport → Store × Except GcError GcReport
  | (idx, .error e) => (⟨idx, files⟩, .error e)
  | (idx, .ok report) =>
    if env.cancel .sweep then (⟨idx, files⟩, .error .cancelled)
    else finishPass env cutoff (sweepLoop store env 0 report ⟨idx, files⟩ idx.unreferencedBlobs)

def runPass (store : BlobStore) (env : GcEnv) (config : GcConfig) (now : Nat) (s : Store) :
    Option (Store × Except GcError GcReport) :=
  match s.index.totalBlobSize with
  | .error e => some (s, .error (.index e))
  | .ok sizeNow =>
    let cutoff := config.effectiveAgeCutoff now sizeNow
    let report : GcReport := ⟨0, 0, 0, 0, 0, false, config.aggressive sizeNow⟩
    (markLoop env cutoff config.limit (s.index.commands.rows.length + 1) 0 report s.index).map
      (sweepPass store env cutoff s.files)

/-! ## What the mark loop removes -/

variable {idx : IndexTables} {env : GcEnv} {store : BlobStore}

section MarkLoop

variable {cutoff : Nat} {limit : Int} {c : CommandRow}

/-- The ids of the expired commands. -/
def IndexTables.expiredId (idx : IndexTables) (cutoff : Nat) (id : CommandId) : Bool :=
  idx.commands.rows.any fun c => c.id = id && idx.isExpired cutoff c

theorem IndexTables.expiredId_of_mem (hc : c ∈ idx.commands) :
    idx.expiredId cutoff c.id = idx.isExpired cutoff c := by
  rw [Bool.eq_iff_iff, expiredId, any_eq_true]
  constructor
  · rintro ⟨c', hc', h⟩
    simp only [Bool.and_eq_true, decide_eq_true_eq] at h
    rw [← eq_of_key hc' hc h.1]
    exact h.2
  · intro h
    exact ⟨c, hc, by simp [h]⟩

theorem IndexTables.RefcountInvariant.without_congr (hinv : RefcountInvariant idx)
    {p q : CommandId → Bool} (hpq : ∀ c ∈ idx.commands, p c.id = q c.id) :
    idx.without p = idx.without q := by
  have hevents : (idx.events.filter fun e => !p e.command)
      = idx.events.filter fun e => !q e.command := by
    apply filter_congr
    intro e he
    obtain ⟨c, hc, hid⟩ := hinv.owned e he
    rw [← hid, hpq c hc]
  simp only [IndexTables.without, hevents, delete_congr hpq]

theorem GcConfig.limit_ne_zero {config : GcConfig} (hbatch : 1 ≤ config.batchSize) :
    config.limit ≠ 0 := by
  intro hzero
  unfold limit toI64 at hzero
  have hpos : 1 ≤ config.batchSize.toNat := UInt64.le_iff_toNat_le.mp hbatch
  have hdvd : 2 ^ 64 ∣ config.batchSize.toNat :=
    Int.natCast_dvd_natCast.mp (Int.dvd_of_bmod_eq_zero hzero)
  have hlt := config.batchSize.toNat_lt
  omega

theorem mem_of_mem_limitRows {α : Type} {a : α} {l : List α} (h : a ∈ limitRows limit l) :
    a ∈ l := by
  unfold limitRows at h
  split at h
  · exact h
  · exact mem_of_mem_take h

theorem mem_markExpiredBatch {id : CommandId} (hid : id ∈ idx.markExpiredBatch cutoff limit) :
    ∃ c ∈ idx.commands, idx.isExpired cutoff c = true ∧ c.id = id := by
  obtain ⟨c, hc, rfl⟩ := mem_map.mp hid
  obtain ⟨hc, hexp⟩ := mem_filter.mp ((mem_insertionSort _).mp (mem_of_mem_limitRows hc))
  exact ⟨c, hc, hexp, rfl⟩

/-- The removal follows the order: with a command go the expired ones before it in the table that
are not to be evicted after it. -/
def IndexTables.EvictsInOrder (idx : IndexTables) (cutoff : Nat) (gone : CommandId → Bool) : Prop :=
  ∀ c c', [c, c'] <+ idx.commands.rows → idx.isExpired cutoff c = true → evictedBefore c c' →
    gone c'.id = true → gone c.id = true

theorem mem_limitRows_of_pair {α : Type} {a b : α} {l : List α} (hnodup : l.Nodup)
    (hpair : [a, b] <+ l) (hb : b ∈ limitRows limit l) : a ∈ limitRows limit l := by
  unfold limitRows at hb ⊢
  split_ifs at hb ⊢ with hlimit
  · exact hpair.mem mem_cons_self
  rw [← take_append_drop limit.toNat l] at hpair hnodup
  obtain ⟨l₁, l₂, heq, htake, hdrop⟩ := sublist_append_iff.mp hpair
  cases l₁ with
  | nil =>
    have hmem : b ∈ l.drop limit.toNat := hdrop.mem (by simp [← show [a, b] = l₂ from heq])
    exact absurd hmem (disjoint_of_nodup_append hnodup hb)
  | cons x rest =>
    rw [(cons.inj heq).1]
    exact htake.mem mem_cons_self

theorem evictsInOrder_batch (idx : IndexTables) (cutoff : Nat) (limit : Int) :
    idx.EvictsInOrder cutoff fun id =>
      (idx.markExpiredBatch cutoff limit).contains id && !idx.isProtected id := by
  intro c c' hpair hexp hbefore hbatch
  rw [Bool.and_eq_true, contains_iff_mem] at hbatch ⊢
  obtain ⟨d, hd, hkey⟩ := mem_map.mp hbatch.1
  obtain ⟨hmem, hexp'⟩ := mem_filter.mp ((mem_insertionSort _).mp (mem_of_mem_limitRows hd))
  obtain rfl := eq_of_key hmem (hpair.mem (by simp)) hkey
  -- the query keeps the two in this order
  have hsorted := pair_sublist_insertionSort hbefore
    (by simpa [hexp, hexp'] using hpair.filter (idx.isExpired cutoff))
  have hnodup := (Nodup.of_map _ idx.commands.nodup).filter (idx.isExpired cutoff)
  constructor
  · refine mem_map.mpr ⟨c, mem_limitRows_of_pair ?_ hsorted hd, rfl⟩
    exact (perm_insertionSort _ _).nodup_iff.mpr hnodup
  · exact (Bool.and_eq_true_iff.mp hexp).1

theorem IndexTables.EvictsInOrder.or {p gone : CommandId → Bool} (hp : idx.EvictsInOrder cutoff p)
    (hgone : (idx.without p).EvictsInOrder cutoff gone) :
    idx.EvictsInOrder cutoff fun id => p id || gone id := by
  intro c c' hpair hexp hbefore hor
  by_cases hc : p c.id = true
  · simp only [hc, Bool.true_or]
  have hc' : ¬ p c'.id = true := fun hc' => hc (hp c c' hpair hexp hbefore hc')
  simp only [hc, hc', Bool.false_or] at hor ⊢
  have hkept := hpair.filter fun d => !p d.id
  rw [filter_cons_of_pos (by simpa using hc), filter_cons_of_pos (by simpa using hc'),
    filter_nil] at hkept
  exact hgone c c' hkept hexp hbefore hor

theorem not_expired_of_batch_nil (hlimit : limit ≠ 0)
    (hnil : idx.markExpiredBatch cutoff limit = []) (hc : c ∈ idx.commands) :
    idx.isExpired cutoff c = false := by
  have hrows : (idx.commands.rows.filter (idx.isExpired cutoff)).insertionSort evictedBefore
      = [] := by
    have hlim := map_eq_nil_iff.mp hnil
    unfold limitRows at hlim
    split at hlim
    · exact hlim
    · rcases take_eq_nil_iff.mp hlim with h | h
      · omega
      · exact h
  by_contra hexp
  have hmem := (mem_insertionSort evictedBefore).mpr (mem_filter.mpr ⟨hc, by simpa using hexp⟩)
  rw [hrows] at hmem
  cases hmem

theorem length_delete_lt {p : CommandRow → Bool} (hc : c ∈ idx.commands) (hp : p c = true) :
    (idx.commands.delete p).rows.length < idx.commands.rows.length :=
  length_filter_lt_length_iff_exists.mpr ⟨c, hc, by simp [hp]⟩

/-- The loop ends, and it removes expired commands only, in their order: all of them, unless it is
cancelled. -/
theorem markLoop_spec (env : GcEnv) (cutoff : Nat) (limit : Int) (fuel round : Nat)
    (report : GcReport) (hinv : RefcountInvariant idx) (hfuel : idx.commands.rows.length < fuel) :
    ∃ gone res, markLoop env cutoff limit fuel round report idx = some (idx.without gone, res)
      ∧ (∀ c ∈ idx.commands, gone c.id = true → idx.isExpired cutoff c = true)
      ∧ idx.EvictsInOrder cutoff gone
      ∧ ((∃ report', res = .ok report' ∧ (limit ≠ 0 →
            ∀ c ∈ idx.commands, idx.isExpired cutoff c = true → gone c.id = true))
        ∨ (res = .error .cancelled ∧ ∃ n, env.cancel (.mark n) = true)) := by
  induction fuel generalizing idx round report with
  | zero => omega
  | succ fuel ih =>
    have hnone : idx.without (fun _ => false) = idx := hinv.without_of_forall fun _ _ => rfl
    have hnoneOrder : idx.EvictsInOrder cutoff fun _ => false := fun _ _ _ _ _ h => h
    cases hcancel : env.cancel (.mark round) with
    | true =>
      -- cancelled before this round
      refine ⟨fun _ => false, .error .cancelled, ?_, ?_, hnoneOrder, Or.inr ⟨rfl, round, hcancel⟩⟩
      · simp only [markLoop, hcancel, if_true, hnone]
      · intro c _ h
        cases h
    | false =>
    cases hbatch : idx.markExpiredBatch cutoff limit with
    | nil =>
      -- nothing is left to mark
      refine ⟨fun _ => false, .ok report, ?_, ?_, hnoneOrder, Or.inl ⟨_, rfl, ?_⟩⟩
      · simp only [markLoop, hcancel, Bool.false_eq_true, if_false, hbatch, hnone]
      · intro c _ h
        cases h
      · intro hlimit c hc hexp
        rw [not_expired_of_batch_nil hlimit hbatch hc] at hexp
        cases hexp
    | cons id ids =>
      have hexpired : ∀ d ∈ id :: ids, ∃ c ∈ idx.commands,
          idx.isExpired cutoff c = true ∧ c.id = d :=
        fun d hd => mem_markExpiredBatch (hbatch ▸ hd)
      obtain ⟨c₀, hc₀, hexp₀, hid₀⟩ := hexpired id mem_cons_self
      have hprot₀ : idx.isProtected id = false := by
        rw [← hid₀]
        simp only [isExpired, Bool.and_eq_true] at hexp₀
        simpa using hexp₀.1
      have hdrop := commandsDropped_pos ids hprot₀ (commandExists_iff.mpr ⟨c₀, hc₀, hid₀⟩)
      have hreap := hinv.reapCommands_snd (id :: ids)
      simp only [markLoop, hcancel, Bool.false_eq_true, if_false, hbatch, ne_of_gt hdrop, hreap]
      -- the round removed a command, so the rest of the fuel is enough
      have hless : ((idx.without fun c => (id :: ids).contains c
          && !idx.isProtected c).commands.rows.length) < fuel := by
        have hlt := length_delete_lt (p := fun c => (id :: ids).contains c.id
          && !idx.isProtected c.id) hc₀ (by simp [hid₀, hprot₀])
        exact lt_of_lt_of_le hlt (le_of_lt_succ hfuel)
      obtain ⟨gone, res, hloop, hsound, horder, hend⟩ := ih (round + 1) _ (hinv.without _) hless
      refine ⟨_, res, by rw [hloop, without_without], ?_, ?_, ?_⟩
      · intro c hc hgone
        by_cases hbatched : ((id :: ids).contains c.id && !idx.isProtected c.id) = true
        · simp only [Bool.and_eq_true, contains_iff_mem] at hbatched
          obtain ⟨c', hc', hexp, hkey⟩ := hexpired c.id hbatched.1
          exact eq_of_key hc' hc hkey ▸ hexp
        · simp only [hbatched, Bool.false_or] at hgone
          exact hsound c (mem_delete.mpr ⟨hc, by simpa using hbatched⟩) hgone
      · exact (hbatch ▸ evictsInOrder_batch idx cutoff limit).or horder
      · rcases hend with ⟨report', rfl, hall⟩ | hcancelled
        · refine Or.inl ⟨report', rfl, fun hlimit c hc hexp => ?_⟩
          by_cases hbatched : ((id :: ids).contains c.id && !idx.isProtected c.id) = true
          · simp only [hbatched, Bool.true_or]
          · simp only [hbatched, Bool.false_or]
            exact hall hlimit c (mem_delete.mpr ⟨hc, by simpa using hbatched⟩) hexp
        · exact Or.inr hcancelled

end MarkLoop

/-! ## What the sweep removes -/

/-- The index without the listed blobs, where nothing refers to them. -/
def IndexTables.dropBlobs (hs : List BlobHash) (idx : IndexTables) : IndexTables :=
  { idx with blobs := idx.blobs.delete fun r => hs.contains r.hash && r.refcount = 0 }

/-- The index when the sweep has done `k` blobs of its list. -/
def IndexTables.swept (k : Nat) (idx : IndexTables) : IndexTables :=
  idx.dropBlobs (idx.unreferencedBlobs.take k)

section Sweep

variable {s : Store} {hs : List BlobHash} {h : BlobHash}

theorem dropBlobs_nil (idx : IndexTables) : idx.dropBlobs [] = idx := by
  have hself : (idx.blobs.delete fun r => ([] : List BlobHash).contains r.hash
      && r.refcount = 0) = idx.blobs := delete_eq_self fun _ _ => rfl
  simp only [dropBlobs, hself]

theorem foldl_sweepOne_index (store : BlobStore) (env : GcEnv) (s : Store) (hs : List BlobHash) :
    (hs.foldl (Store.sweepOne store env) s).index = s.index.dropBlobs hs := by
  induction hs generalizing s with
  | nil => exact (dropBlobs_nil s.index).symm
  | cons h hs ih =>
    have hdelete : (s.sweepOne store env h).index.blobs
        = s.index.blobs.delete fun r => r.hash = h ∧ r.refcount = 0 := rfl
    rw [foldl_cons, ih]
    simp only [dropBlobs, hdelete, delete_delete]
    simp only [Store.sweepOne, dropBlobRecord, contains_cons, Bool.and_or_distrib_right,
      Bool.decide_and, beq_eq_decide]

theorem ne_pathFor_of_not_mem (hh : h ∉ hs) : ∀ h' ∈ hs, store.pathFor h ≠ store.pathFor h' := by
  intro h' hmem heq
  obtain rfl := store.pathFor_injective heq
  exact hh hmem

theorem foldl_sweepOne_files {path : PathBuf} (hpath : ∀ h ∈ hs, path ≠ store.pathFor h) :
    (hs.foldl (Store.sweepOne store env) s).files path = s.files path := by
  induction hs generalizing s with
  | nil => rfl
  | cons h' hs ih =>
    rw [foldl_cons, ih fun h hh => hpath h (mem_cons_of_mem _ hh)]
    unfold Store.sweepOne
    split
    · rfl
    · simp only [BlobStore.delete, Function.update_of_ne (hpath h' mem_cons_self)]

theorem foldl_sweepOne_deleted (hh : h ∈ hs) (hdelete : env.deleteFails h = false) :
    (hs.foldl (Store.sweepOne store env) s).files (store.pathFor h) = none := by
  induction hs generalizing s with
  | nil => cases hh
  | cons h' hs ih =>
    rw [foldl_cons]
    by_cases hlater : h ∈ hs
    · exact ih hlater
    · obtain rfl := (mem_cons.mp hh).resolve_right hlater
      rw [foldl_sweepOne_files (ne_pathFor_of_not_mem hlater)]
      simp only [Store.sweepOne, hdelete, Bool.false_eq_true, if_false, BlobStore.delete,
        Function.update_self]

theorem sweepLoop_spec (store : BlobStore) (env : GcEnv) (n : Nat) (report : GcReport) (s : Store)
    (hs : List BlobHash) :
    ∃ k res, sweepLoop store env n report s hs
        = ((hs.take k).foldl (Store.sweepOne store env) s, res)
      ∧ k ≤ hs.length ∧ (∀ j < k, env.cancel (.blob (n + j)) = false)
      ∧ ((k = hs.length ∧ ∃ report', res = .ok report')
        ∨ (k < hs.length ∧ res = .error .cancelled ∧ env.cancel (.blob (n + k)) = true)) := by
  induction hs generalizing n report s with
  | nil => exact ⟨0, .ok report, rfl, le_refl 0, by simp, Or.inl ⟨rfl, report, rfl⟩⟩
  | cons h hs ih =>
    cases hcancel : env.cancel (.blob n) with
    | true =>
      refine ⟨0, .error .cancelled, ?_, zero_le _, by simp, Or.inr ⟨succ_pos _, rfl, ?_⟩⟩
      · simp only [sweepLoop, hcancel, if_true, take_zero, foldl_nil]
      · exact hcancel
    | false =>
      simp only [sweepLoop, hcancel, Bool.false_eq_true, if_false]
      obtain ⟨k, res, hloop, hle, hbefore, hend⟩ := ih (n + 1) _ (s.sweepOne store env h)
      refine ⟨k + 1, res, ?_, succ_le_succ hle, ?_, ?_⟩
      · rw [hloop, take_succ_cons, foldl_cons]
      · intro j hj
        cases j with
        | zero => exact hcancel
        | succ j =>
          rw [← succ_add_eq_add_succ]
          exact hbefore j (lt_of_succ_lt_succ hj)
      · rcases hend with ⟨rfl, hok⟩ | ⟨hlt, herr, hflag⟩
        · exact Or.inl ⟨rfl, hok⟩
        · refine Or.inr ⟨succ_lt_succ hlt, herr, ?_⟩
          rw [← succ_add_eq_add_succ]
          exact hflag

theorem mem_unreferencedBlobs :
    h ∈ idx.unreferencedBlobs ↔ ∃ r ∈ idx.blobs, r.refcount = 0 ∧ r.hash = h := by
  simp [unreferencedBlobs, mem_iff, and_assoc]

theorem IndexTables.RefcountInvariant.not_mem_unreferenced (hinv : RefcountInvariant idx)
    {e : EventRow} (he : e ∈ idx.events) (hh : e.blobHash = some h) :
    h ∉ idx.unreferencedBlobs := by
  intro hmem
  obtain ⟨r, hr, hzero, rfl⟩ := mem_unreferencedBlobs.mp hmem
  have hpos := refs_pos he hh
  have hcount := hinv.counted r hr
  omega

theorem mem_dropBlobs {r : BlobRow} :
    r ∈ (idx.dropBlobs hs).blobs ↔ r ∈ idx.blobs ∧ ¬(r.hash ∈ hs ∧ r.refcount = 0) := by
  simp [dropBlobs]

theorem IndexTables.RefcountInvariant.dropBlobs (hinv : RefcountInvariant idx)
    (hs : List BlobHash) : RefcountInvariant (idx.dropBlobs hs) where
  counted := fun r hr => hinv.counted r (mem_dropBlobs.mp hr).1
  owned := hinv.owned

theorem delete_swept (k : Nat) (idx : IndexTables) :
    ((idx.swept k).blobs.delete fun r => r.refcount = 0)
      = idx.blobs.delete fun r => r.refcount = 0 := by
  change (idx.blobs.delete _).delete _ = _
  rw [delete_delete]
  apply delete_congr
  intro r _
  by_cases hzero : r.refcount = 0
  · simp [hzero]
  · simp [hzero]

theorem dropBlobs_unreferenced (idx : IndexTables) :
    (idx.dropBlobs idx.unreferencedBlobs).blobs = idx.blobs.delete fun r => r.refcount = 0 := by
  apply delete_congr
  intro r hr
  by_cases hzero : r.refcount = 0
  · have hmem : r.hash ∈ idx.unreferencedBlobs :=
      mem_unreferencedBlobs.mpr ⟨r, hr, hzero, rfl⟩
    simp [hzero, hmem]
  · simp [hzero]

end Sweep

/-! ## What a pass leaves -/

/-- The index when every expired command has been reaped. -/
def IndexTables.reaped (cutoff : Nat) (idx : IndexTables) : IndexTables :=
  idx.without (idx.expiredId cutoff)

/-- Equal `commands`, `events` and `blobs`. -/
def IndexTables.SameTables (idx idx' : IndexTables) : Prop :=
  idx.commands = idx'.commands ∧ idx.events = idx'.events ∧ idx.blobs = idx'.blobs

/-- What a pass with this cutoff aims at. -/
def IndexTables.collected (cutoff : Nat) (idx : IndexTables) : IndexTables :=
  { idx.reaped cutoff with blobs := (idx.reaped cutoff).blobs.delete fun r => r.refcount = 0 }

section Pass

variable {config : GcConfig} {now size cutoff : Nat} {s s' : Store} {res : Except GcError GcReport}
  {gone : CommandId → Bool}

theorem IndexTables.reaped_not_expired {c : CommandRow} (hc : c ∈ (idx.reaped cutoff).commands) :
    (idx.reaped cutoff).isExpired cutoff c = false := by
  obtain ⟨hc, hkept⟩ := mem_delete.mp hc
  exact (expiredId_of_mem hc).symm.trans hkept

theorem IndexTables.RefcountInvariant.reaped_without (hinv : RefcountInvariant idx)
    (hgone : ∀ c ∈ idx.commands, gone c.id = true → idx.isExpired cutoff c = true) :
    (idx.without gone).reaped cutoff = idx.reaped cutoff := by
  unfold reaped
  rw [without_without]
  apply hinv.without_congr
  intro c hc
  rw [expiredId_of_mem hc]
  cases hg : gone c.id with
  | true => rw [hgone c hc hg, Bool.true_or]
  | false =>
    have hmem : c ∈ (idx.without gone).commands := mem_delete.mpr ⟨hc, hg⟩
    rw [expiredId_of_mem hmem, Bool.false_or]
    rfl

theorem totalBlobSize_without : (idx.without gone).totalBlobSize = idx.totalBlobSize := by
  have hsizes : (idx.without gone).blobs.rows.map BlobRow.size
      = idx.blobs.rows.map BlobRow.size := by
    simp [without, recount, update, Function.comp_def]
  unfold totalBlobSize
  rw [hsizes]

/-- The tables and files of a pass that has swept `k` blobs. Path rows may be gone. -/
structure Store.AfterSweep (store : BlobStore) (env : GcEnv) (cutoff k : Nat) (s s' : Store) :
    Prop where
  index : ∃ paths, s'.index = { (s.index.reaped cutoff).swept k with paths := paths }
  files : ∀ h, h ∉ (s.index.reaped cutoff).unreferencedBlobs →
    s'.files (store.pathFor h) = s.files (store.pathFor h)
  deleted : ∀ h ∈ (s.index.reaped cutoff).unreferencedBlobs.take k, env.deleteFails h = false →
    s'.files (store.pathFor h) = none

/-- Where a pass can stop, and what it has done by then. -/
inductive PassStop (store : BlobStore) (env : GcEnv) (cutoff : Nat) (s : Store) :
    Store → Except GcError GcReport → Prop
  | marking (gone : CommandId → Bool)
      (hgone : ∀ c ∈ s.index.commands, gone c.id = true → s.index.isExpired cutoff c = true)
      (hflag : (∃ n, env.cancel (.mark n) = true) ∨ env.cancel .sweep = true) :
      PassStop store env cutoff s ⟨s.index.without gone, s.files⟩ (.error .cancelled)
  | sweeping {s' : Store} (k : Nat) (hk : k < (s.index.reaped cutoff).unreferencedBlobs.length)
      (hflag : env.cancel (.blob k) = true) (hafter : s.AfterSweep store env cutoff k s') :
      PassStop store env cutoff s s' (.error .cancelled)
  | finishing {s' : Store} (hflag : env.cancel .compact = true ∨ env.cancel .vacuum = true)
      (hafter : s.AfterSweep store env cutoff (s.index.reaped cutoff).unreferencedBlobs.length s') :
      PassStop store env cutoff s s' (.error .cancelled)
  | done {s' : Store} (report : GcReport)
      (hafter : s.AfterSweep store env cutoff (s.index.reaped cutoff).unreferencedBlobs.length s')
      (hblobs : ∀ k < (s.index.reaped cutoff).unreferencedBlobs.length,
        env.cancel (.blob k) = false)
      (hcompact : env.cancel .compact = false) :
      PassStop store env cutoff s s' (.ok report)

theorem finishPass_ok (env : GcEnv) (cutoff : Nat) (s : Store) (report : GcReport) :
    ∃ paths res, finishPass env cutoff (s, .ok report)
        = (⟨{ s.index with paths := paths }, s.files⟩, res)
      ∧ ((res = .error .cancelled ∧ (env.cancel .compact = true ∨ env.cancel .vacuum = true))
        ∨ (env.cancel .compact = false ∧ ∃ report', res = .ok report')) := by
  unfold finishPass
  cases hcompact : env.cancel .compact with
  | true => exact ⟨s.index.paths, _, rfl, Or.inl ⟨rfl, Or.inl rfl⟩⟩
  | false =>
    cases hvacuum : env.cancel .vacuum with
    | true => exact ⟨_, _, rfl, Or.inl ⟨rfl, Or.inr rfl⟩⟩
    | false => exact ⟨_, _, rfl, Or.inr ⟨rfl, _, rfl⟩⟩

theorem afterSweep_foldl (store : BlobStore) (env : GcEnv) (cutoff k : Nat) (s : Store) :
    s.AfterSweep store env cutoff k (((s.index.reaped cutoff).unreferencedBlobs.take k).foldl
      (Store.sweepOne store env) ⟨s.index.reaped cutoff, s.files⟩) where
  index := ⟨(s.index.reaped cutoff).paths, foldl_sweepOne_index store env _ _⟩
  files := fun _ hh =>
    foldl_sweepOne_files (ne_pathFor_of_not_mem fun hmem => hh (mem_of_mem_take hmem))
  deleted := fun _ hh hdelete => foldl_sweepOne_deleted hh hdelete

theorem Store.AfterSweep.setPaths {k : Nat} (hafter : s.AfterSweep store env cutoff k s')
    (paths : List PathRow) :
    s.AfterSweep store env cutoff k ⟨{ s'.index with paths := paths }, s'.files⟩ where
  index := by
    obtain ⟨_, hindex⟩ := hafter.index
    exact ⟨paths, by rw [hindex]⟩
  files := hafter.files
  deleted := hafter.deleted

theorem sweepPass_stops (store : BlobStore) (cutoff : Nat) (s : Store) (report : GcReport)
    (hsweep : env.cancel .sweep = false) :
    ∃ s' res, sweepPass store env cutoff s.files (s.index.reaped cutoff, .ok report) = (s', res)
      ∧ PassStop store env cutoff s s' res := by
  obtain ⟨k, res, hloop, hle, hbefore, hend⟩ := sweepLoop_spec store env 0 report
    ⟨s.index.reaped cutoff, s.files⟩ (s.index.reaped cutoff).unreferencedBlobs
  have hafter := afterSweep_foldl store env cutoff k s
  simp only [zero_add] at hbefore hend
  simp only [sweepPass, hsweep, Bool.false_eq_true, if_false, hloop]
  rcases hend with ⟨rfl, report', rfl⟩ | ⟨hlt, rfl, hflag⟩
  · -- the whole list is swept
    obtain ⟨paths, res, hfinish, hres⟩ := finishPass_ok env cutoff _ report'
    refine ⟨_, res, hfinish, ?_⟩
    rcases hres with ⟨rfl, hflag⟩ | ⟨hcompact, report'', rfl⟩
    · exact .finishing hflag (hafter.setPaths paths)
    · exact .done report'' (hafter.setPaths paths) hbefore hcompact
  · exact ⟨_, _, rfl, .sweeping k hlt hflag hafter⟩

/-- After the mark loop a pass only drops rows of blobs and paths. -/
theorem sweepPass_index (store : BlobStore) (env : GcEnv) (cutoff : Nat) (files : BlobDir)
    (idx : IndexTables) (res : Except GcError GcReport) :
    ∃ hs paths, (sweepPass store env cutoff files (idx, res)).1.index
      = { idx.dropBlobs hs with paths := paths } := by
  have hnone : idx = { idx.dropBlobs [] with paths := idx.paths } := by rw [dropBlobs_nil]
  cases res with
  | error e => exact ⟨[], idx.paths, hnone⟩
  | ok report =>
    cases hsweep : env.cancel .sweep with
    | true =>
      simp only [sweepPass, hsweep, if_true]
      exact ⟨[], idx.paths, hnone⟩
    | false =>
      obtain ⟨k, res, hloop, -⟩ := sweepLoop_spec store env 0 report ⟨idx, files⟩
        idx.unreferencedBlobs
      have hindex := foldl_sweepOne_index store env ⟨idx, files⟩ (idx.unreferencedBlobs.take k)
      simp only [sweepPass, hsweep, Bool.false_eq_true, if_false, hloop]
      cases res with
      | error e => exact ⟨_, _, hindex⟩
      | ok report' =>
        obtain ⟨paths, res', hfinish, -⟩ := finishPass_ok env cutoff
          ((idx.unreferencedBlobs.take k).foldl (Store.sweepOne store env) ⟨idx, files⟩) report'
        rw [hfinish]
        exact ⟨_, paths, by rw [hindex]⟩

theorem runPass_eq (hsize : s.index.totalBlobSize = .ok size) :
    runPass store env config now s
      = (markLoop env (config.effectiveAgeCutoff now size) config.limit
          (s.index.commands.rows.length + 1) 0
          ⟨0, 0, 0, 0, 0, false, config.aggressive size⟩ s.index).map
        (sweepPass store env (config.effectiveAgeCutoff now size) s.files) := by
  simp only [runPass, hsize]

theorem runPass_stops (store : BlobStore) (env : GcEnv) (now : Nat)
    (hinv : RefcountInvariant s.index) (hbatch : 1 ≤ config.batchSize)
    (hsize : s.index.totalBlobSize = .ok size) :
    ∃ s' res, runPass store env config now s = some (s', res)
      ∧ PassStop store env (config.effectiveAgeCutoff now size) s s' res := by
  rw [runPass_eq hsize]
  obtain ⟨gone, res, hloop, hsound, -, hend⟩ := markLoop_spec env
    (config.effectiveAgeCutoff now size) config.limit (s.index.commands.rows.length + 1) 0
    ⟨0, 0, 0, 0, 0, false, config.aggressive size⟩ hinv (lt_succ_self _)
  rw [hloop, Option.map_some]
  rcases hend with ⟨report, rfl, hall⟩ | ⟨rfl, hflag⟩
  · cases hsweep : env.cancel .sweep with
    | true =>
      refine ⟨⟨s.index.without gone, s.files⟩, .error .cancelled, ?_, ?_⟩
      · simp only [sweepPass, hsweep, if_true]
      · exact .marking gone hsound (Or.inr hsweep)
    | false =>
      have hreaped : s.index.without gone
          = s.index.reaped (config.effectiveAgeCutoff now size) := by
        apply hinv.without_congr
        intro c hc
        rw [expiredId_of_mem hc, Bool.eq_iff_iff]
        exact ⟨hsound c hc, hall (GcConfig.limit_ne_zero hbatch) c hc⟩
      obtain ⟨s', res, hpass, hstop⟩ := sweepPass_stops store
        (config.effectiveAgeCutoff now size) s report hsweep
      exact ⟨s', res, by rw [hreaped, hpass], hstop⟩
  · exact ⟨_, _, rfl, .marking gone hsound (Or.inl hflag)⟩

end Pass

end ShitUndo
