import ShitUndo.StoreCalls
import ShitUndo.Lib.Transition

/-!
# What the collector is asked to remove

Three ways in which a pass removes less, or something else, than what its callers expect.

* `handle_gc` (`ctl.rs`) runs a pass at the logical time 1. With `--aggressive` the cutoff is this
  time, so that commands are kept that started later (`handleGc_emptied_iff`);
* the logical clock starts again with the daemon while the rows stay, so that the order in which
  commands expire is the order of their starts only within one run (`passes_follow_age`);
* pins and holds have an expiry time that no pass looks at (`protectsLive_iff`).
-/

namespace ShitUndo

open IndexTables List Transition Table Option StoreCall

variable {store : BlobStore} {env : GcEnv} {s s' : Store} {c c' : CommandRow}

theorem isExpired_iff {idx : IndexTables} {cutoff : Nat} :
    idx.isExpired cutoff c = true ↔
      idx.isProtected c.id = false ∧ c.startedLogical < cutoffSigned cutoff := by
  simp [isExpired]

/-- A completed pass leaves the commands that are not expired. -/
theorem Store.AfterSweep.mem_commands {cutoff k : Nat}
    (hafter : s.AfterSweep store env cutoff k s') :
    c ∈ s'.index.commands ↔ c ∈ s.index.commands ∧ s.index.isExpired cutoff c = false := by
  rw [hafter.commands, reaped, without, mem_delete]
  refine and_congr_right fun hc => ?_
  rw [expiredId_of_mem hc]

/-! ## Requests -/

/-- `GcRequest`. -/
structure GcRequest where
  dryRun : Bool
  aggressive : Bool
  sizeCapBytes : Option Nat
  ageCapLogical : Option Nat
deriving Repr

/-- `GcConfig::default`. -/
def GcConfig.default : GcConfig := ⟨604800000, some (5 * 1024 * 1024 * 1024), 100⟩

/-- The configuration `handle_gc` makes of a request. -/
def GcRequest.config (req : GcRequest) : GcConfig where
  ageThresholdLogical :=
    if req.aggressive then 0 else req.ageCapLogical.getD GcConfig.default.ageThresholdLogical
  sizeCapBytes := req.sizeCapBytes.or GcConfig.default.sizeCapBytes
  batchSize := GcConfig.default.batchSize

/-- The answer to a request. -/
inductive GcResponse where
  | gcReport (dryRun : Bool) (report : GcReport)
  | error (e : GcError)

def GcResponse.ofPass : Except GcError GcReport → GcResponse
  | .ok report => .gcReport false report
  | .error e => .error e

/-- `handle_gc`: a dry run does nothing; otherwise a pass at the logical time 1. -/
def handleGc (store : BlobStore) (env : GcEnv) (req : GcRequest) (s : Store) :
    Option (Store × GcResponse) :=
  if req.dryRun then some (s, .gcReport true ⟨0, 0, 0, 0, 0, false, false⟩)
  else (runPass store env req.config 1 s).map fun stopped => (stopped.1, .ofPass stopped.2)

/-- Everything that is not pinned or held is gone, with its events and the blobs that nothing
refers to any more. A file stays where it cannot be deleted. -/
structure Store.Emptied (store : BlobStore) (env : GcEnv) (s s' : Store) : Prop where
  commands : ∀ c ∈ s'.index.commands, s.index.isProtected c.id = true
  events : ∀ e ∈ s'.index.events, s.index.isProtected e.command = true
  rows : ∀ r ∈ s'.index.blobs, ∃ e ∈ s'.index.events, e.blobHash = some r.hash
  files : ∀ r ∈ s.index.blobs, (∀ e ∈ s'.index.events, e.blobHash ≠ some r.hash) →
    env.deleteFails r.hash = false → s'.files (store.pathFor r.hash) = none

/-- All unprotected commands started before the cutoff of a pass at time 1. -/
def GcRequest.ReachesAll (req : GcRequest) (s : Store) (size : Nat) : Prop :=
  ∀ c ∈ s.index.commands, s.index.isProtected c.id = false →
    c.startedLogical < cutoffSigned (req.config.effectiveAgeCutoff 1 size)

theorem Store.AfterSweep.emptied {cutoff : Nat} (hinv : RefcountInvariant s.index)
    (hall : ∀ c ∈ s.index.commands, s.index.isProtected c.id = false →
      c.startedLogical < cutoffSigned cutoff)
    (hafter : s.AfterSweep store env cutoff (s.index.reaped cutoff).unreferencedBlobs.length s')
    (hsame : s'.index.SameTables (s.index.collected cutoff)) : s.Emptied store env s' := by
  have hprotected : ∀ c ∈ s.index.commands, s.index.isExpired cutoff c = false →
      s.index.isProtected c.id = true := by
    intro c hc hexp
    by_contra hunprotected
    rw [Bool.not_eq_true] at hunprotected
    exact Bool.eq_false_iff.mp hexp (isExpired_iff.mpr ⟨hunprotected, hall c hc hunprotected⟩)
  have hevents : s'.index.events = (s.index.reaped cutoff).events := hsame.2.1
  have hcounted : ∀ r ∈ (s.index.reaped cutoff).blobs,
      r.refcount = refs (s.index.reaped cutoff).events r.hash := (hinv.without _).counted
  constructor
  · intro c hc
    obtain ⟨hmem, hexp⟩ := hafter.mem_commands.mp hc
    exact hprotected c hmem hexp
  · intro e he
    rw [hevents] at he
    obtain ⟨hmem, hkept⟩ := mem_filter.mp he
    obtain ⟨c, hc, hid⟩ := hinv.owned e hmem
    rw [← hid]
    apply hprotected c hc
    rw [← expiredId_of_mem hc, hid]
    simpa using hkept
  · intro r hr
    rw [hsame.2.2] at hr
    obtain ⟨hr, hcount⟩ := mem_delete.mp hr
    rw [hevents]
    have hpos : 0 < refs (s.index.reaped cutoff).events r.hash := by
      rw [← hcounted r hr]
      simpa [Nat.pos_iff_ne_zero] using hcount
    simpa [refs, countP_pos_iff] using hpos
  · intro r hr hnone hdelete
    apply hafter.deleted _ _ hdelete
    rw [take_length]
    -- the row is still there, with the count of no event
    obtain ⟨r', hr', hhash⟩ : (s.index.reaped cutoff).HasBlob r.hash :=
      hasBlob_without.mpr ⟨r, hr, rfl⟩
    refine mem_unreferencedBlobs.mpr ⟨r', hr', ?_, hhash⟩
    rw [hcounted r' hr', refs, countP_eq_zero]
    intro e he
    rw [← hevents] at he
    simpa [hhash] using hnone e he

/-- **An aggressive request empties the unprotected store** exactly if there was nothing to remove,
or a pass runs and its cutoff reaches every unprotected command. -/
theorem handleGc_emptied_iff (store : BlobStore) {req : GcRequest} (henv : env.Uncancelled)
    (hinv : RefcountInvariant s.index) :
    (∃ s' response, handleGc store env req s = some (s', response) ∧ s.Emptied store env s') ↔
      s.Emptied store env s ∨
        req.dryRun = false ∧ ∃ size, s.index.totalBlobSize = .ok size ∧ req.ReachesAll s size := by
  cases hdry : req.dryRun with
  | true => simp [handleGc, hdry]
  | false =>
    cases hsize : s.index.totalBlobSize with
    | error e => simp [handleGc, hdry, runPass, hsize]
    | ok size =>
      have hbatch : 1 ≤ req.config.batchSize := show 1 ≤ GcConfig.default.batchSize by decide
      obtain ⟨s', report, hpass, hafter, hsame⟩ := runPass_complete hinv hbatch store 1 henv hsize
      simp only [handleGc, hdry, Bool.false_eq_true, if_false, hpass, map_some,
        some.injEq, Prod.mk.injEq, true_and, Except.ok.injEq, exists_eq_left']
      constructor
      · rintro ⟨_, _, ⟨rfl, -⟩, hemptied⟩
        refine .inr fun c hc hunprotected => ?_
        by_contra hyoung
        have hkept := hafter.mem_commands.mpr ⟨hc, by simp [isExpired, hyoung]⟩
        rw [hemptied.commands c hkept] at hunprotected
        cases hunprotected
      · intro hcondition
        refine ⟨s', _, ⟨rfl, rfl⟩, hafter.emptied hinv ?_ hsame⟩
        rcases hcondition with hempty | hall
        · intro c hc hunprotected
          rw [hempty.commands c hc] at hunprotected
          cases hunprotected
        · exact hall

/-- A store with one command. -/
def oneCommand (startedLogical : Nat) : Store :=
  ⟨empty.putCommand ⟨1, 1⟩ startedLogical, fun _ => none⟩

def aggressiveRequest : GcRequest := ⟨false, true, none, none⟩

open GcSample in
/-- A command at time 0 and a pinned one at time 7. The first has a blob of its own, and they share
another. -/
def pinnedNeighbour : Store :=
  runCalls .sample
    [.putCommand ⟨1, 1⟩ 0, .putCommand ⟨1, 2⟩ 7, .putBlobRecord (sampleHash [1]) 1 false ⟨0, 0⟩,
      .putBlobRecord (sampleHash [2]) 1 false ⟨7, 0⟩, .putEvent (preImage 1 (sampleHash [1])),
      .putEventBatch [preImage 1 (sampleHash [2]), preImage 2 (sampleHash [2])],
      .pinCommand ⟨1, 2⟩] .empty

theorem handleGc_emptied_at_zero : (∃ s' response,
    handleGc .sample .quiet aggressiveRequest pinnedNeighbour = some (s', response) ∧
      pinnedNeighbour.Emptied .sample .quiet s') ∧
    (handleGc .sample .quiet aggressiveRequest pinnedNeighbour).map (fun answered =>
      (answered.1.index.commands.rows.map CommandRow.id,
        answered.1.index.blobs.rows.map BlobRow.hash)) = some ([⟨1, 2⟩], [sampleHash [2]]) := by
  have hcon : Consistent pinnedNeighbour.index :=
    consistent_empty.run (s := Store.empty) (by decide +kernel)
  refine ⟨(handleGc_emptied_iff .sample GcEnv.quiet_uncancelled hcon.toRefcountInvariant).mpr
    (.inr ⟨rfl, 2, by decide +kernel, ?_⟩), by decide +kernel⟩
  simp only [GcRequest.ReachesAll, mem_iff]
  decide +kernel

/-- A command that started at any time but the first stays. -/
theorem aggressive_request_keeps_command :
    (handleGc .sample .quiet aggressiveRequest (oneCommand 5)).map (·.1.index.commands.rows)
        = some [⟨⟨1, 1⟩, 5, 0⟩] ∧
      (oneCommand 5).index.isProtected ⟨1, 1⟩ = false := by
  decide +kernel

/-! ## Age across restarts -/

/-- The store and the logical clock of the running daemon. -/
structure ClockedStore where
  store : Store
  clock : Nat

/-- What happens to them. A command starts at the time of the clock, and other captures let it go
on; a restart sets it back and leaves the store. -/
inductive ClockedAction where
  | start (id : CommandId)
  | tick
  | restart
  | setImportance (id : CommandId) (importance : Nat)
  | call (call : StoreCall)

def IndexTables.setImportance (id : CommandId) (importance : Nat) (idx : IndexTables) :
    IndexTables :=
  let commands := idx.commands.update
    (fun r => if r.id = id then { r with importance := importance } else r)
    fun r => by split <;> rfl
  { idx with commands := commands }

def clockedStep (store : BlobStore) (d : ClockedStore) : ClockedAction → Option ClockedStore
  | .start id => some ⟨apply store d.store (.putCommand id d.clock), d.clock + 1⟩
  | .tick => some ⟨d.store, d.clock + 1⟩
  | .restart => some ⟨d.store, 1⟩
  | .setImportance id importance =>
    some ⟨⟨d.store.index.setImportance id importance, d.store.files⟩, d.clock⟩
  | .call storeCall => some ⟨storeCall.apply store d.store, d.clock⟩

/-- A daemon on a new store. -/
def ClockedStore.new : ClockedStore := ⟨.empty, 1⟩

/-- Two unprotected commands of one importance, in the order they started in: rows are appended. -/
structure IndexTables.Peers (idx : IndexTables) (c c' : CommandRow) : Prop where
  rows : [c, c'] <+ idx.commands.rows
  unprotected : idx.isProtected c.id = false
  unprotected' : idx.isProtected c'.id = false
  importance : c.importance = c'.importance

/-- With a command every peer is gone that started earlier. -/
def Store.FollowsAge (s s' : Store) : Prop :=
  ∀ c c', s.index.Peers c c' → c' ∉ s'.index.commands → c ∉ s'.index.commands

/-- The logical starts of peers are in the order of their starts. -/
def IndexTables.AgesAgree (idx : IndexTables) : Prop :=
  ∀ c c', idx.Peers c c' → c.startedLogical ≤ c'.startedLogical

/-- What has to hold at an action: blobs are recorded before the events that refer to them, and
at a pass the starts agree. -/
def ClockedAction.StartsAgree (d : ClockedStore) : ClockedAction → Prop
  | .call (.runPass _ _ _) => d.store.index.AgesAgree
  | .call storeCall =>
    ∀ event ∈ storeCall.inserted d.store.index, ∀ h ∈ event.kind.blobHash, d.store.index.HasBlob h
  | _ => True

def ClockedAction.ExpiresByAge (store : BlobStore) (d : ClockedStore) : ClockedAction → Prop
  | .call (.runPass env config now) =>
    d.store.FollowsAge (apply store d.store (.runPass env config now))
  | _ => True

theorem runPass_followsAge (hinv : RefcountInvariant s.index) (hages : s.index.AgesAgree)
    (config : GcConfig) (now : Nat) :
    s.FollowsAge (apply store s (.runPass env config now)) := by
  intro c c' hpeers hgone
  cases hsize : s.index.totalBlobSize with
  | error e =>
    simp only [apply, runPass, hsize] at hgone
    exact absurd (hpeers.rows.mem (by simp)) hgone
  | ok size =>
    obtain ⟨gone, res, hloop, hsound, horder, -⟩ := markLoop_spec env
      (config.effectiveAgeCutoff now size) config.limit (s.index.commands.rows.length + 1) 0
      ⟨0, 0, 0, 0, 0, false, config.aggressive size⟩ hinv (Nat.lt_succ_self _)
    obtain ⟨hs, paths, hindex⟩ := sweepPass_index store env (config.effectiveAgeCutoff now size)
      s.files (s.index.without gone) res
    simp only [apply, runPass_eq hsize, hloop, map_some, hindex] at hgone ⊢
    have hmem' : c' ∈ s.index.commands := hpeers.rows.mem (by simp)
    have hgone' : gone c'.id = true := by
      by_contra hkept
      exact hgone (mem_delete.mpr ⟨hmem', Bool.eq_false_of_not_eq_true hkept⟩)
    have hle := hages c c' hpeers
    have hexp' := (isExpired_iff.mp (hsound c' hmem' hgone')).2
    have hexp := isExpired_iff.mpr ⟨hpeers.unprotected, Int.lt_of_le_of_lt hle hexp'⟩
    intro hkept
    have := horder c c' hpeers.rows hexp (.inr ⟨hpeers.importance, hle⟩) hgone'
    rw [(mem_delete.mp hkept).2] at this
    cases this

theorem IndexTables.Consistent.setImportance {idx : IndexTables} (hcon : Consistent idx)
    (id : CommandId) (importance : Nat) : Consistent (idx.setImportance id importance) where
  counted := hcon.counted
  owned := by
    intro e he
    obtain ⟨c, hc, hid⟩ := hcon.owned e he
    refine ⟨_, mem_map_of_mem hc, ?_⟩
    split_ifs
    · exact hid
    · exact hid
  recorded := hcon.recorded

/-- **Passes follow age** in every history where the logical starts do, as they do in one run of the
daemon. -/
theorem passes_follow_age (store : BlobStore) (history : List ClockedAction)
    (hstarts : Meets ClockedAction.StartsAgree (clockedStep store) .new history) :
    Meets (ClockedAction.ExpiresByAge store) (clockedStep store) .new history := by
  apply Meets.of_invariant (P := fun d => Consistent d.store.index) hstarts consistent_empty
  · intro d action hcon hguard
    cases action with
    | call storeCall =>
      cases storeCall with
      | runPass env config now =>
        exact runPass_followsAge hcon.toRefcountInvariant hguard config now
      | _ => trivial
    | _ => trivial
  · intro d action d' hcon hguard hstep
    cases action with
    | start id =>
      cases hstep
      exact hcon.putCommand id d.clock
    | tick | restart =>
      cases hstep
      exact hcon
    | setImportance id importance =>
      cases hstep
      exact hcon.setImportance id importance
    | call storeCall =>
      cases hstep
      cases storeCall with
      | runPass env config now => exact hcon.runPass store env config now
      | _ => exact consistent _ hcon hguard

/-- A pass at the given time that removes everything before it. -/
def passAt (now : Nat) : ClockedAction := .call (.runPass .quiet ⟨0, none, 100⟩ now)

theorem one_run_follows_age :
    Meets (ClockedAction.ExpiresByAge .sample) (clockedStep .sample) .new
      [.start ⟨1, 1⟩, .tick, .start ⟨1, 2⟩, passAt 3] := by
  refine passes_follow_age .sample _ ⟨trivial, trivial, trivial, ?_, trivial⟩
  intro c c' hpeers
  have hpair : [c, c'] = [⟨⟨1, 1⟩, 1, 0⟩, ⟨⟨1, 2⟩, 3, 0⟩] :=
    (hpeers.rows.eq_of_length rfl).trans (by decide +kernel)
  cases hpair
  decide

/-- The command of an earlier run is kept, and the one of this run is removed. -/
theorem restart_reverses_age :
    ¬ Meets (ClockedAction.ExpiresByAge .sample) (clockedStep .sample) .new
      [.tick, .tick, .tick, .start ⟨1, 1⟩, .restart, .start ⟨1, 2⟩, passAt 3] := by
  intro hmeets
  have hfollows := hmeets.2.2.2.2.2.2.1
  refine hfollows ⟨⟨1, 1⟩, 4, 0⟩ ⟨⟨1, 2⟩, 1, 0⟩ ⟨?_, ?_, ?_, rfl⟩ ?_ ?_
  · decide +kernel
  · decide +kernel
  · decide +kernel
  · rw [mem_iff]
    decide +kernel
  · rw [mem_iff]
    decide +kernel

/-! ## Expired pins and holds -/

/-- A row of `pins`. -/
structure PinRow where
  command : CommandId
  expiresLogical : Option Int
deriving DecidableEq, Repr

/-- No expiry time, or one after `now`. -/
def LiveAt (now : Nat) (expires : Option Int) : Prop := ∀ e ∈ expires, (now : Int) < e

/-- Some pin or hold of the command has not expired. -/
def HasLive (pins : List PinRow) (idx : IndexTables) (now : Nat) (id : CommandId) : Prop :=
  (∃ p ∈ pins, p.command = id ∧ LiveAt now p.expiresLogical) ∨
    ∃ h ∈ idx.holds, h.command = id ∧ LiveAt now h.expiresLogical

/-- Of the commands before the cutoff, the pass keeps those with a live pin or hold. -/
def ProtectsLive (pins : List PinRow) (now cutoff : Nat) (s s' : Store) : Prop :=
  ∀ c ∈ s.index.commands, c.startedLogical < cutoffSigned cutoff →
    (c ∈ s'.index.commands ↔ HasLive pins s.index now c.id)

theorem isProtected_iff {idx : IndexTables} {pins : List PinRow}
    (hpins : idx.pins = pins.map PinRow.command) {id : CommandId} :
    idx.isProtected id = true ↔
      (∃ p ∈ pins, p.command = id) ∨ ∃ h ∈ idx.holds, h.command = id := by
  simp [isProtected, hpins, isHeld, mem_iff]

/-- **A pass protects by live pins and holds** exactly if no old command has expired ones only. -/
theorem protectsLive_iff (store : BlobStore) {pins : List PinRow}
    (hpins : s.index.pins = pins.map PinRow.command) {config : GcConfig} {now size : Nat}
    (henv : env.Uncancelled) (hinv : RefcountInvariant s.index) (hbatch : 1 ≤ config.batchSize)
    (hsize : s.index.totalBlobSize = .ok size) :
    (∃ s' report, runPass store env config now s = some (s', .ok report) ∧
        ProtectsLive pins now (config.effectiveAgeCutoff now size) s s') ↔
      ∀ c ∈ s.index.commands,
        c.startedLogical < cutoffSigned (config.effectiveAgeCutoff now size) →
          s.index.isProtected c.id = true → HasLive pins s.index now c.id := by
  obtain ⟨s', report, hpass, hafter, -⟩ := runPass_complete hinv hbatch store now henv hsize
  have hkept : ∀ c ∈ s.index.commands,
      c.startedLogical < cutoffSigned (config.effectiveAgeCutoff now size) →
        (c ∈ s'.index.commands ↔ s.index.isProtected c.id = true) := by
    intro c hc hold
    rw [hafter.mem_commands]
    simp [hc, isExpired, hold]
  have hlive : ∀ id, HasLive pins s.index now id → s.index.isProtected id = true := by
    intro id
    rw [isProtected_iff hpins]
    rintro (⟨p, hp, hid, -⟩ | ⟨r, hr, hid, -⟩)
    · exact .inl ⟨p, hp, hid⟩
    · exact .inr ⟨r, hr, hid⟩
  constructor
  · rintro ⟨s₁, report₁, hpass₁, hprotects⟩ c hc hold hprotected
    obtain ⟨rfl, -⟩ : s' = s₁ ∧ _ := by simpa [hpass] using hpass₁
    exact (hprotects c hc hold).mp ((hkept c hc hold).mpr hprotected)
  · intro hall
    refine ⟨s', report, hpass, fun c hc hold => (hkept c hc hold).trans ?_⟩
    exact ⟨hall c hc hold, hlive c.id⟩

/-- A pinned command. -/
def pinnedCommand : Store :=
  ⟨(oneCommand 1).index.pinCommand ⟨1, 1⟩, fun _ => none⟩

theorem protectsLive_pin : ∃ s' report,
    runPass .sample .quiet ⟨0, none, 100⟩ 10 pinnedCommand = some (s', .ok report) ∧
      ProtectsLive [⟨⟨1, 1⟩, none⟩] 10 10 pinnedCommand s' := by
  have hcon : Consistent pinnedCommand.index :=
    (consistent_empty.putCommand ⟨1, 1⟩ 1).of_tables ⟨rfl, rfl, rfl⟩
  refine (protectsLive_iff .sample rfl GcEnv.quiet_uncancelled hcon.toRefcountInvariant (by decide)
    rfl).mpr ?_
  intro c hc _ _
  have hid : pinnedCommand.index.commands.rows.map CommandRow.id = [⟨1, 1⟩] := rfl
  have hc : c.id ∈ [(⟨1, 1⟩ : CommandId)] := hid ▸ mem_map_of_mem hc
  exact .inl ⟨_, mem_singleton_self _, (mem_singleton.mp hc).symm, by simp [LiveAt]⟩

/-- A pin that expired at time 2 keeps its command at time 10. -/
theorem expired_pin_protects :
    (runPass .sample .quiet ⟨0, none, 100⟩ 10 pinnedCommand).map (·.1.index.commands.rows)
        = some [⟨⟨1, 1⟩, 1, 0⟩] ∧
      ¬ HasLive [⟨⟨1, 1⟩, some 2⟩] pinnedCommand.index 10 ⟨1, 1⟩ := by
  refine ⟨by decide +kernel, ?_⟩
  rintro (⟨p, hp, -, hlive⟩ | ⟨h, hh, -, -⟩)
  · rw [mem_singleton.mp hp] at hlive
    exact absurd (hlive 2 rfl) (by decide)
  · cases hh

end ShitUndo
