import ShitUndo.Gc
import Mathlib.Algebra.Order.BigOperators.Group.List
import Mathlib.Algebra.Order.Ring.Int

/-!
# What a pass of the collector promises

A completed pass has removed the expired commands and the blobs nothing refers to, and nothing
else. A cancelled one can be run again to the same end (`PassOutcome`).

The second half depends on the cutoff, which a pass computes from the size of the store: it must
not expire more when the store has shrunk. Without overflow it does not (`cutoffStable_of_small`),
but `size_now * 10` wraps around for stores beyond 1.8 exabytes. `CutoffStable` is what is needed.
-/

namespace ShitUndo

open IndexTables List GcEnv Nat Table

variable {idx : IndexTables}

section Pass

variable {store : BlobStore} {env env₀ : GcEnv} {config : GcConfig} {now size cutoff : Nat}
  {s s' : Store} {res : Except GcError GcReport} {k : Nat} {gone : CommandId → Bool}

/-! ## The tables at a stop -/

theorem sameTables_collected {paths : List PathRow}
    (hk : k = (idx.reaped cutoff).unreferencedBlobs.length) :
    IndexTables.SameTables { (idx.reaped cutoff).swept k with paths := paths }
      (idx.collected cutoff) := by
  refine ⟨rfl, rfl, ?_⟩
  rw [swept, hk, take_length]
  exact dropBlobs_unreferenced _

section

variable (hafter : s.AfterSweep store env₀ cutoff k s')

include hafter

theorem Store.AfterSweep.totalBlobSize :
    s'.index.totalBlobSize = ((s.index.reaped cutoff).swept k).totalBlobSize := by
  obtain ⟨paths, hindex⟩ := hafter.index
  rw [hindex]
  rfl

theorem Store.AfterSweep.isExpired {n : Nat} :
    s'.index.isExpired n = s.index.isExpired n := by
  obtain ⟨paths, hindex⟩ := hafter.index
  rw [hindex]
  rfl

theorem Store.AfterSweep.commands :
    s'.index.commands = (s.index.reaped cutoff).commands := by
  obtain ⟨paths, hindex⟩ := hafter.index
  rw [hindex]
  rfl

end

theorem IndexTables.SameTables.trans_symm {idx₁ idx₂ idx₃ : IndexTables} (h₁ : idx₁.SameTables idx₃)
    (h₂ : idx₂.SameTables idx₃) : idx₁.SameTables idx₂ :=
  ⟨h₁.1.trans h₂.1.symm, h₁.2.1.trans h₂.2.1.symm, h₁.2.2.trans h₂.2.2.symm⟩

/-! ## What a pass promises -/

/-- The events of a command. -/
def IndexTables.eventsOf (idx : IndexTables) (id : CommandId) : List EventRow :=
  idx.events.filter fun e => e.command = id

/-- Every command that is pinned, held or younger than the cutoff is still complete. -/
def Store.Keeps (store : BlobStore) (cutoff : Nat) (s s' : Store) : Prop :=
  ∀ c ∈ s.index.commands, s.index.isExpired cutoff c = false →
    c ∈ s'.index.commands ∧ s'.index.eventsOf c.id = s.index.eventsOf c.id
      ∧ ∀ e ∈ s.index.eventsOf c.id, ∀ h, e.blobHash = some h →
        (s.index.HasBlob h → s'.index.HasBlob h)
          ∧ s'.files (store.pathFor h) = s.files (store.pathFor h)

/-- What a pass promises: completed, it has removed what is expired and unreferenced and nothing
else; cancelled, it can be run again to the same end. -/
structure PassOutcome (store : BlobStore) (config : GcConfig) (now : Nat) (s : Store) : Prop where
  completes : ∀ env : GcEnv, env.Uncancelled → ∃ size s' report, s.index.totalBlobSize = .ok size
      ∧ runPass store env config now s = some (s', .ok report)
      ∧ (∀ c ∈ s'.index.commands, s'.index.isExpired (config.effectiveAgeCutoff now size) c = false)
      ∧ s.Keeps store (config.effectiveAgeCutoff now size) s'
      ∧ ∀ r ∈ s'.index.blobs, r.refcount ≠ 0
  resumes : ∀ env s', runPass store env config now s = some (s', .error .cancelled) →
    (∀ size, s.index.totalBlobSize = .ok size →
        s.Keeps store (config.effectiveAgeCutoff now size) s')
      ∧ RefcountInvariant s'.index
      ∧ ∀ env₁ env₂ : GcEnv, env₁.Uncancelled → env₂.Uncancelled → ∃ s₁ r₁ s₂ r₂,
        runPass store env₁ config now s' = some (s₁, .ok r₁)
          ∧ runPass store env₂ config now s = some (s₂, .ok r₂)
          ∧ s₁.index.SameTables s₂.index

/-- However far the sweep has got, the pass that starts from there computes a size, and a cutoff
that expires none of the commands the first one kept. -/
def CutoffStable (config : GcConfig) (now : Nat) (idx : IndexTables) : Prop :=
  ∃ size, idx.totalBlobSize = .ok size
    ∧ ∀ k ≤ (idx.reaped (config.effectiveAgeCutoff now size)).unreferencedBlobs.length,
      ∃ size', ((idx.reaped (config.effectiveAgeCutoff now size)).swept k).totalBlobSize = .ok size'
        ∧ ∀ c ∈ (idx.reaped (config.effectiveAgeCutoff now size)).commands,
          idx.isExpired (config.effectiveAgeCutoff now size') c = false

theorem eventsOf_without {id : CommandId} (hid : gone id = false) :
    (idx.without gone).eventsOf id = idx.eventsOf id := by
  change (idx.events.filter _).filter _ = idx.events.filter _
  rw [filter_filter]
  apply filter_congr
  intro e _
  by_cases he : e.command = id
  · simp [he, hid]
  · simp [he]

theorem hasBlob_without {h : BlobHash} : (idx.without gone).HasBlob h ↔ idx.HasBlob h := by
  constructor
  · rintro ⟨r, hr, rfl⟩
    obtain ⟨r', hr', rfl⟩ := mem_recount.mp hr
    exact ⟨r', hr', rfl⟩
  · rintro ⟨r, hr, rfl⟩
    exact ⟨_, mem_recount.mpr ⟨r, hr, rfl⟩, rfl⟩

theorem not_gone {c : CommandRow}
    (hgone : ∀ c ∈ idx.commands, gone c.id = true → idx.isExpired cutoff c = true)
    (hc : c ∈ idx.commands) (hexp : idx.isExpired cutoff c = false) : gone c.id = false := by
  cases hg : gone c.id with
  | false => rfl
  | true =>
    rw [hgone c hc hg] at hexp
    cases hexp

theorem keeps_without (store : BlobStore)
    (hgone : ∀ c ∈ s.index.commands, gone c.id = true → s.index.isExpired cutoff c = true) :
    s.Keeps store cutoff ⟨s.index.without gone, s.files⟩ := by
  intro c hc hexp
  have hkept := not_gone hgone hc hexp
  refine ⟨mem_delete.mpr ⟨hc, hkept⟩, eventsOf_without hkept, ?_⟩
  intro e _ h _
  exact ⟨hasBlob_without.mpr, rfl⟩

theorem expiredId_sound (idx : IndexTables) (cutoff : Nat) :
    ∀ c ∈ idx.commands, idx.expiredId cutoff c.id = true → idx.isExpired cutoff c = true :=
  fun _ hc h => (expiredId_of_mem hc).symm.trans h

/-- The environment that sets the flag for one check. -/
def GcEnv.cancelAt (p : Checkpoint) : GcEnv := ⟨fun q => q = p, fun _ => false, false⟩

/-- The environment that never sets it. -/
def GcEnv.quiet : GcEnv := ⟨fun _ => false, fun _ => false, false⟩

theorem GcEnv.quiet_uncancelled : GcEnv.quiet.Uncancelled := fun _ => rfl

theorem totalBlobSize_of_ok {report : GcReport}
    (hpass : runPass store env config now s = some (s', .ok report)) :
    ∃ size, s.index.totalBlobSize = .ok size := by
  cases hsize : s.index.totalBlobSize with
  | ok size => exact ⟨size, rfl⟩
  | error e => simp [runPass, hsize] at hpass

section Counted

variable (hinv : RefcountInvariant s.index)

include hinv

theorem Store.AfterSweep.keeps (hafter : s.AfterSweep store env₀ cutoff k s') :
    s.Keeps store cutoff s' := by
  intro c hc hexp
  obtain ⟨hmem, hevents, -⟩ := keeps_without store (expiredId_sound s.index cutoff) c hc hexp
  obtain ⟨paths, hindex⟩ := hafter.index
  refine ⟨by rw [hindex]; exact hmem, by rw [hindex]; exact hevents, ?_⟩
  intro e he h hh
  -- the event is still there, so its blob is not on the list
  have hkept : e ∈ (s.index.reaped cutoff).events := by
    have he' : e ∈ (s.index.reaped cutoff).eventsOf c.id := hevents.symm ▸ he
    exact mem_of_mem_filter he'
  have hlisted := (hinv.without _).not_mem_unreferenced hkept hh
  refine ⟨?_, hafter.files h hlisted⟩
  intro hrow
  obtain ⟨r, hr, rfl⟩ := hasBlob_without.mpr hrow
  rw [hindex]
  exact ⟨r, mem_dropBlobs.mpr ⟨hr, fun hdrop => hlisted (mem_of_mem_take hdrop.1)⟩, rfl⟩

theorem Store.AfterSweep.refcountInvariant (hafter : s.AfterSweep store env₀ cutoff k s') :
    RefcountInvariant s'.index := by
  obtain ⟨paths, hindex⟩ := hafter.index
  have hswept := (hinv.without (s.index.expiredId cutoff)).dropBlobs
    ((s.index.reaped cutoff).unreferencedBlobs.take k)
  rw [hindex]
  exact ⟨hswept.counted, hswept.owned⟩

theorem PassStop.keeps (hstop : PassStop store env cutoff s s' res) : s.Keeps store cutoff s' := by
  cases hstop with
  | marking gone hgone hflag => exact keeps_without store hgone
  | sweeping k hk hflag hafter | finishing hflag hafter | done report hafter hblobs hcompact =>
    exact hafter.keeps hinv

theorem PassStop.refcountInvariant (hstop : PassStop store env cutoff s s' res) :
    RefcountInvariant s'.index := by
  cases hstop with
  | marking gone hgone hflag => exact hinv.without gone
  | sweeping k hk hflag hafter | finishing hflag hafter | done report hafter hblobs hcompact =>
    exact hafter.refcountInvariant hinv

/-! ## Running a cancelled pass again -/

variable (hbatch : 1 ≤ config.batchSize)

include hbatch

theorem runPass_complete (store : BlobStore) (now : Nat) (henv : env.Uncancelled)
    (hsize : s.index.totalBlobSize = .ok size) :
    ∃ s' report, runPass store env config now s = some (s', .ok report)
      ∧ s.AfterSweep store env (config.effectiveAgeCutoff now size)
        (s.index.reaped (config.effectiveAgeCutoff now size)).unreferencedBlobs.length s'
      ∧ s'.index.SameTables (s.index.collected (config.effectiveAgeCutoff now size)) := by
  obtain ⟨s', res, hpass, hstop⟩ := runPass_stops store env now hinv hbatch hsize
  cases hstop with
  | marking gone hgone hflag | sweeping k hk hflag hafter | finishing hflag hafter =>
    simp [henv _] at hflag
  | done report hafter hblobs hcompact =>
    obtain ⟨paths, hindex⟩ := hafter.index
    exact ⟨s', report, hpass, hafter, hindex ▸ sameTables_collected rfl⟩

theorem resume_without (store : BlobStore) (now : Nat) (hsize : s.index.totalBlobSize = .ok size)
    (hgone : ∀ c ∈ s.index.commands, gone c.id = true →
      s.index.isExpired (config.effectiveAgeCutoff now size) c = true) (henv : env.Uncancelled) :
    ∃ s₁ r₁, runPass store env config now ⟨s.index.without gone, s.files⟩ = some (s₁, .ok r₁)
      ∧ s₁.index.SameTables (s.index.collected (config.effectiveAgeCutoff now size)) := by
  obtain ⟨s₁, r₁, hpass, -, hsame⟩ := runPass_complete
    (s := ⟨s.index.without gone, s.files⟩) (hinv.without gone) hbatch store now henv
    (totalBlobSize_without.trans hsize)
  refine ⟨s₁, r₁, hpass, ?_⟩
  rw [collected, hinv.reaped_without hgone] at hsame
  exact hsame

theorem Store.AfterSweep.resume {size' : Nat} (hafter : s.AfterSweep store env₀ cutoff k s')
    (now : Nat) (hsize' : ((s.index.reaped cutoff).swept k).totalBlobSize = .ok size')
    (hyoung : ∀ c ∈ (s.index.reaped cutoff).commands,
      s.index.isExpired (config.effectiveAgeCutoff now size') c = false) (henv : env.Uncancelled) :
    ∃ s₁ r₁, runPass store env config now s' = some (s₁, .ok r₁)
      ∧ s₁.index.SameTables (s.index.collected cutoff) := by
  have hinv' := hafter.refcountInvariant hinv
  obtain ⟨s₁, r₁, hpass, -, hcommands, hevents, hblobs⟩ := runPass_complete hinv' hbatch
    store now henv (hafter.totalBlobSize.trans hsize')
  have hreaped : s'.index.reaped (config.effectiveAgeCutoff now size') = s'.index := by
    apply hinv'.without_of_forall
    intro c hc
    rw [expiredId_of_mem hc, hafter.isExpired]
    exact hyoung c (hafter.commands ▸ hc)
  simp only [collected, hreaped] at hcommands hevents hblobs
  obtain ⟨paths, hindex⟩ := hafter.index
  refine ⟨s₁, r₁, hpass, hcommands.trans hafter.commands, ?_, ?_⟩
  · rw [hevents, hindex]
    rfl
  · rw [hblobs, hindex]
    exact delete_swept k _

theorem Store.AfterSweep.young_of_sameTables {size' : Nat} {s₁ : Store} {r₁ : GcReport}
    (hafter : s.AfterSweep store env₀ cutoff k s')
    (hsize' : ((s.index.reaped cutoff).swept k).totalBlobSize = .ok size') (henv : env.Uncancelled)
    (hpass : runPass store env config now s' = some (s₁, .ok r₁))
    (hsame : s₁.index.SameTables (s.index.collected cutoff)) :
    ∀ c ∈ (s.index.reaped cutoff).commands,
      s.index.isExpired (config.effectiveAgeCutoff now size') c = false := by
  intro c hc
  obtain ⟨s₂, r₂, hpass₂, -, hcommands, -⟩ := runPass_complete
    (hafter.refcountInvariant hinv) hbatch store now henv (hafter.totalBlobSize.trans hsize')
  obtain ⟨rfl, -⟩ : s₁ = s₂ ∧ r₁ = r₂ := by simpa [hpass] using hpass₂
  -- the second pass reaped nothing: its commands are those of the first
  have hleft : c ∈ (s'.index.reaped (config.effectiveAgeCutoff now size')).commands := by
    have hc₁ : c ∈ s₁.index.commands := hsame.1 ▸ hc
    exact hcommands ▸ hc₁
  rw [← hafter.isExpired (n := config.effectiveAgeCutoff now size')]
  exact reaped_not_expired hleft

theorem exists_cancelled_after (store : BlobStore) (now : Nat)
    (hsize : s.index.totalBlobSize = .ok size)
    (hk : k ≤ (s.index.reaped (config.effectiveAgeCutoff now size)).unreferencedBlobs.length) :
    ∃ env s', runPass store env config now s = some (s', .error .cancelled)
      ∧ s.AfterSweep store env (config.effectiveAgeCutoff now size) k s' := by
  rcases lt_or_eq_of_le hk with hlt | rfl
  · -- at the check before the next blob
    obtain ⟨s', res, hpass, hstop⟩ := runPass_stops store (.cancelAt (.blob k)) now hinv hbatch
      hsize
    refine ⟨.cancelAt (.blob k), s', ?_⟩
    cases hstop with
    | marking gone hgone hflag | finishing hflag hafter => simp [cancelAt] at hflag
    | sweeping j hj hflag hafter =>
      obtain rfl : j = k := by simpa [cancelAt] using hflag
      exact ⟨hpass, hafter⟩
    | done report hafter hblobs hcompact => simpa [cancelAt] using hblobs k hlt
  · -- at the check after the sweep
    obtain ⟨s', res, hpass, hstop⟩ := runPass_stops store (.cancelAt .compact) now hinv hbatch hsize
    refine ⟨.cancelAt .compact, s', ?_⟩
    cases hstop with
    | marking gone hgone hflag | sweeping j hj hflag hafter => simp [cancelAt] at hflag
    | finishing hflag hafter => exact ⟨hpass, hafter⟩
    | done report hafter hblobs hcompact => simp [cancelAt] at hcompact

theorem PassOutcome.cutoffStable (hout : PassOutcome store config now s) :
    CutoffStable config now s.index := by
  obtain ⟨size, -, -, hsize, -⟩ := hout.completes .quiet quiet_uncancelled
  refine ⟨size, hsize, ?_⟩
  intro k hk
  -- cancel after `k` blobs, and run the pass again next to an uninterrupted one
  obtain ⟨env, s', hcancelled, hafter⟩ := exists_cancelled_after hinv hbatch store now hsize hk
  obtain ⟨s₁, r₁, s₂, r₂, hpass₁, hpass₂, hsame⟩ := (hout.resumes env s' hcancelled).2.2
    .quiet .quiet quiet_uncancelled quiet_uncancelled
  obtain ⟨s₃, r₃, hpass₃, -, hwhole⟩ := runPass_complete hinv hbatch store now
    quiet_uncancelled hsize
  obtain ⟨rfl, -⟩ : s₂ = s₃ ∧ r₂ = r₃ := by simpa [hpass₂] using hpass₃
  obtain ⟨size', hsize'⟩ := totalBlobSize_of_ok hpass₁
  rw [hafter.totalBlobSize] at hsize'
  have hcollected : s₁.index.SameTables (s.index.collected (config.effectiveAgeCutoff now size)) :=
    ⟨hsame.1.trans hwhole.1, hsame.2.1.trans hwhole.2.1, hsame.2.2.trans hwhole.2.2⟩
  exact ⟨size', hsize', hafter.young_of_sameTables hinv hbatch hsize' quiet_uncancelled
    hpass₁ hcollected⟩

theorem CutoffStable.resume (hstable : CutoffStable config now s.index)
    (hsize : s.index.totalBlobSize = .ok size) {env' : GcEnv}
    (hstop : PassStop store env' (config.effectiveAgeCutoff now size) s s' res)
    (henv : env.Uncancelled) :
    ∃ s₁ r₁, runPass store env config now s' = some (s₁, .ok r₁)
      ∧ s₁.index.SameTables (s.index.collected (config.effectiveAgeCutoff now size)) := by
  obtain ⟨size₀, hsize₀, hyoung⟩ := hstable
  obtain rfl : size₀ = size := by simpa [hsize] using hsize₀.symm
  cases hstop with
  | marking gone hgone hflag => exact resume_without hinv hbatch store now hsize hgone henv
  | sweeping k hk hflag hafter =>
    obtain ⟨size', hsize', hnone⟩ := hyoung k (le_of_lt hk)
    exact hafter.resume hinv hbatch now hsize' hnone henv
  | finishing hflag hafter | done report hafter hblobs hcompact =>
    obtain ⟨size', hsize', hnone⟩ := hyoung _ (le_refl _)
    exact hafter.resume hinv hbatch now hsize' hnone henv

theorem CutoffStable.passOutcome (store : BlobStore) (hstable : CutoffStable config now s.index) :
    PassOutcome store config now s := by
  obtain ⟨size, hsize, -⟩ := id hstable
  constructor
  · intro env henv
    obtain ⟨s', report, hpass, hafter, -, -, hblobs⟩ := runPass_complete hinv hbatch store now
      henv hsize
    refine ⟨size, s', report, hsize, hpass, ?_, hafter.keeps hinv, ?_⟩
    · intro c hc
      rw [hafter.isExpired]
      exact reaped_not_expired (hafter.commands ▸ hc)
    · intro r hr
      rw [hblobs] at hr
      simpa using (mem_delete.mp hr).2
  · intro env s' hcancelled
    obtain ⟨s'', res, hpass, hstop⟩ := runPass_stops store env now hinv hbatch hsize
    obtain ⟨rfl, rfl⟩ : s' = s'' ∧ Except.error .cancelled = res := by
      simpa [hcancelled] using hpass
    refine ⟨?_, hstop.refcountInvariant hinv, ?_⟩
    · intro size₂ hsize₂
      obtain rfl : size₂ = size := by simpa [hsize] using hsize₂.symm
      exact hstop.keeps hinv
    · intro env₁ env₂ henv₁ henv₂
      obtain ⟨s₁, r₁, hpass₁, hsame₁⟩ := hstable.resume hinv hbatch hsize hstop henv₁
      obtain ⟨s₂, r₂, hpass₂, -, hsame₂⟩ := runPass_complete hinv hbatch store now henv₂ hsize
      exact ⟨s₁, r₁, s₂, r₂, hpass₁, hpass₂, hsame₁.trans_symm hsame₂⟩

end Counted

/-- A pass keeps its promise exactly where sweeping does not move the cutoff. -/
theorem passOutcome_iff (store : BlobStore) (config : GcConfig) (now : Nat) (s : Store)
    (hinv : RefcountInvariant s.index) (hbatch : 1 ≤ config.batchSize) :
    PassOutcome store config now s ↔ CutoffStable config now s.index := by
  constructor
  · intro hout
    exact hout.cutoffStable hinv hbatch
  · intro hstable
    exact hstable.passOutcome hinv hbatch store

end Pass

/-! ## Stores of ordinary size -/

section Small

variable {config : GcConfig} {now cutoff size size' : Nat}

/-- The sum of the sizes, without overflow. -/
def IndexTables.sizeSum (idx : IndexTables) : Int := (idx.blobs.rows.map BlobRow.size).sum

theorem foldlM_addI64 (sizes : List Int) (acc : Int) (hsizes : ∀ n ∈ sizes, 0 ≤ n)
    (hacc : 0 ≤ acc) (hsum : acc + sizes.sum < 2 ^ 63) :
    sizes.foldlM addI64 acc = some (acc + sizes.sum) := by
  induction sizes generalizing acc with
  | nil => simp
  | cons n sizes ih =>
    have hn := hsizes n mem_cons_self
    have hrest : 0 ≤ sizes.sum :=
      sum_nonneg fun m hm => hsizes m (mem_cons_of_mem _ hm)
    rw [sum_cons, ← add_assoc] at hsum ⊢
    have hadd : addI64 acc n = some (acc + n) := if_pos ⟨by omega, by omega⟩
    rw [foldlM_cons, hadd]
    exact ih (acc + n) (fun m hm => hsizes m (mem_cons_of_mem _ hm)) (by omega) hsum

theorem aggressive_of_le (hle : size' ≤ size) (hsmall : size * 10 < 2 ^ 64)
    (hagg : config.aggressive size' = true) : config.aggressive size = true := by
  unfold GcConfig.aggressive sizeThresholdBreached nearCap at hagg ⊢
  cases hcap : config.sizeCapBytes with
  | none => simp [hcap] at hagg
  | some cap =>
    have hmod : size * 10 % 2 ^ 64 = size * 10 := mod_eq_of_lt hsmall
    have hmod' : size' * 10 % 2 ^ 64 = size' * 10 := mod_eq_of_lt (by omega)
    simp only [hcap, Option.any_some, Bool.or_eq_true, decide_eq_true_eq, hmod, hmod'] at hagg ⊢
    rcases hagg with h | h
    · exact Or.inl (lt_of_lt_of_le h hle)
    · exact Or.inr (by omega)

theorem cutoffSigned_le (hle : size' ≤ size) (hsmall : size * 10 < 2 ^ 64) :
    cutoffSigned (config.effectiveAgeCutoff now size')
      ≤ cutoffSigned (config.effectiveAgeCutoff now size) := by
  have hmax : ∀ n, cutoffSigned n ≤ cutoffSigned u64Max := by
    unfold cutoffSigned u64Max
    omega
  cases hagg : config.aggressive size with
  | true =>
    simp only [GcConfig.effectiveAgeCutoff, hagg, if_true]
    exact hmax _
  | false =>
    have hagg' : config.aggressive size' = false := by
      cases h : config.aggressive size' with
      | false => rfl
      | true =>
        rw [aggressive_of_le hle hsmall h] at hagg
        cases hagg
    simp [GcConfig.effectiveAgeCutoff, hagg, hagg']

variable (hsizes : ∀ r ∈ idx.blobs, 0 ≤ r.size)

include hsizes

theorem totalBlobSize_of_small
    (hsum : idx.sizeSum < 2 ^ 63) : idx.totalBlobSize = .ok idx.sizeSum.toNat := by
  have hnonneg : ∀ n ∈ idx.blobs.rows.map BlobRow.size, 0 ≤ n := by
    intro n hn
    obtain ⟨r, hr, rfl⟩ := mem_map.mp hn
    exact hsizes r hr
  have hfold := foldlM_addI64 _ 0 hnonneg (Int.le_refl 0) (by simpa [sizeSum] using hsum)
  have hpos : 0 ≤ idx.sizeSum := sum_nonneg hnonneg
  rw [zero_add] at hfold
  rw [totalBlobSize, hfold]
  change Except.ok (idx.sizeSum % 2 ^ 64).toNat = _
  rw [Int.emod_eq_of_lt hpos (by omega)]

theorem sizeSum_swept_le (k : Nat) :
    (idx.swept k).sizeSum ≤ idx.sizeSum := by
  apply List.Sublist.sum_le_sum
  · exact filter_sublist.map _
  · intro n hn
    obtain ⟨r, hr, rfl⟩ := mem_map.mp hn
    exact hsizes r hr

theorem cutoffStable_of_small (config : GcConfig) (now : Nat) (hsmall : idx.sizeSum * 10 < 2 ^ 64) :
    CutoffStable config now idx := by
  have hsize := totalBlobSize_of_small hsizes (by omega)
  refine ⟨_, hsize, ?_⟩
  generalize hcut : config.effectiveAgeCutoff now idx.sizeSum.toNat = cutoff
  intro k _
  have hreaped : ∀ r ∈ (idx.reaped cutoff).blobs, 0 ≤ r.size := by
    intro r hr
    obtain ⟨r', hr', rfl⟩ := mem_recount.mp hr
    exact hsizes r' hr'
  have hsame : (idx.reaped cutoff).sizeSum = idx.sizeSum := by
    simp [sizeSum, reaped, without, recount, update,
      Function.comp_def]
  have hle := sizeSum_swept_le hreaped k
  have hswept : ((idx.reaped cutoff).swept k).totalBlobSize = .ok _ :=
    totalBlobSize_of_small (fun r hr => hreaped r (mem_dropBlobs.mp hr).1) (by omega)
  refine ⟨_, hswept, ?_⟩
  intro c hc
  have hkept := reaped_not_expired hc
  have hcutoff : cutoffSigned
      (config.effectiveAgeCutoff now ((idx.reaped cutoff).swept k).sizeSum.toNat)
      ≤ cutoffSigned (config.effectiveAgeCutoff now idx.sizeSum.toNat) :=
    cutoffSigned_le (by omega) (by omega)
  rw [hcut] at hcutoff
  change (!idx.isProtected c.id && decide (c.startedLogical < cutoffSigned cutoff)) = false at hkept
  unfold isExpired
  rw [Bool.and_eq_false_iff, decide_eq_false_iff_not] at hkept ⊢
  rcases hkept with h | h
  · exact Or.inl h
  · exact Or.inr (by omega)

end Small

/-! ## A store beyond that size -/

namespace GcSample

/-- A pre-image of a file, for the command with this number. -/
def preImage (seq : Nat) (blob : BlobHash) : CaptureEvent :=
  ⟨⟨0⟩, ⟨1, seq⟩, ⟨seq, 0⟩, false, .filePreImage ⟨1, 2⟩ (PathBuf.ofString "/f") blob (plainMeta 1)
    none .other⟩

/-- Two commands, at times 10 and 1000, with a pre-image each, of the given sizes. -/
def twoCommands (size₁ size₂ : Int) : IndexTables :=
  { IndexTables.empty with
    commands := ⟨[⟨⟨1, 1⟩, 10, 0⟩, ⟨⟨1, 2⟩, 1000, 0⟩], by decide⟩
    events := [⟨1, preImage 1 (sampleHash [1])⟩, ⟨2, preImage 2 (sampleHash [2])⟩]
    blobs := ⟨[⟨sampleHash [1], size₁, false, 1, 0⟩, ⟨sampleHash [2], size₂, false, 1, 0⟩], by
      change [sampleHash [1], sampleHash [2]].Nodup
      decide⟩ }

/-- Everything older than 100, within two exabytes. -/
def config : GcConfig := ⟨100, some 2000000000000000000, 100⟩

theorem refcountInvariant_twoCommands (size₁ size₂ : Int) :
    RefcountInvariant (twoCommands size₁ size₂) where
  counted := by
    intro r hr
    simp only [twoCommands, mem_iff, mem_cons, not_mem_nil, or_false] at hr
    rcases hr with rfl | rfl
    · rfl
    · rfl
  owned := by
    simp only [twoCommands, mem_iff]
    decide

end GcSample

open GcSample in
/-- The pass keeps its promise for two blobs of ordinary size. -/
theorem passOutcome_ordinary :
    PassOutcome BlobStore.sample config 500 ⟨twoCommands 10 20, fun _ => none⟩ := by
  refine (passOutcome_iff BlobStore.sample config 500 ⟨twoCommands 10 20, fun _ => none⟩
    (refcountInvariant_twoCommands 10 20) (by decide)).mpr ?_
  apply cutoffStable_of_small
  · simp only [twoCommands, mem_iff]
    decide
  · decide

open GcSample in
/-- At 1.9 of 2 exabytes `size_now * 10` wraps around, and the pass stays at the age cutoff.
Cancelled when the first blob is swept, it starts again at 1.84: that does not wrap around, so it
turns aggressive and drops the young command too. -/
theorem overflow_changes_cutoff :
    RefcountInvariant (twoCommands 60000000000000000 1840000000000000000)
      ∧ ¬ PassOutcome BlobStore.sample config 500
        ⟨twoCommands 60000000000000000 1840000000000000000, fun _ => none⟩ := by
  refine ⟨refcountInvariant_twoCommands _ _, ?_⟩
  intro hout
  generalize hs : (⟨twoCommands 60000000000000000 1840000000000000000, fun _ => none⟩ : Store) = s
    at hout
  have hcancelled : (runPass BlobStore.sample (.cancelAt .compact) config 500 s).map (·.2)
      = some (.error .cancelled) := by
    subst hs
    decide +kernel
  have hagain : ((runPass BlobStore.sample (.cancelAt .compact) config 500 s).bind
      fun r => runPass BlobStore.sample .quiet config 500 r.1).map (·.1.index.commands.rows)
      = some [] := by
    subst hs
    decide +kernel
  have hthrough : (runPass BlobStore.sample .quiet config 500 s).map (·.1.index.commands.rows)
      = some [⟨⟨1, 2⟩, 1000, 0⟩] := by
    subst hs
    decide +kernel
  obtain ⟨⟨s', res⟩, hrun, hres⟩ := Option.map_eq_some_iff.mp hcancelled
  obtain rfl : res = .error .cancelled := hres
  obtain ⟨s₁, r₁, s₂, r₂, hpass₁, hpass₂, hcommands, -⟩ := (hout.resumes _ s' hrun).2.2
    .quiet .quiet quiet_uncancelled quiet_uncancelled
  rw [hrun, Option.bind_some, hpass₁, Option.map_some, Option.some.injEq] at hagain
  rw [hpass₂, Option.map_some, Option.some.injEq, ← hcommands, hagain] at hthrough
  cases hthrough

end ShitUndo
