import ShitUndo.FileSystem
import ShitUndo.Lib.Transition

/-!
# The live baseline

`LiveBaseline` (`baseline.rs`): when a command attaches, a walk caches the content of every file
under its working directory; the first write to a file promotes the cached blob into the command's
pre-image (`dispatch_response`).

There is a cache per working directory, and the lookup takes the first one that knows the inode, in
the order of a hash map. The order is a parameter of every promotion.

* `HistorySound`: a promotion returns what the latest walk has seen, and returns it to a command at
  most once;
* `Unmixed`: only one cache knows the inode, and a command that asks again was the last to be
  served. Under it every history is sound (`historySound_of_unmixed`).
-/

namespace ShitUndo

open Transition Option Function

/-! ## Caches -/

structure BaselineEntry where
  inode : InodeRef
  blob : BlobHash
  size : Nat
  xattrs : List (String × Bytes)
  stale : Bool
  staleForCommand : Option CommandId
deriving DecidableEq, Repr

/-- `BaselineEntry::new`. -/
def BaselineEntry.fresh (inode : InodeRef) (blob : BlobHash) (size : Nat)
    (xattrs : List (String × Bytes)) : BaselineEntry :=
  ⟨inode, blob, size, xattrs, false, none⟩

/-- `mark_stale`: nothing for the command that made the entry stale. -/
def BaselineEntry.markStale (entry : BaselineEntry) (command : CommandId) :
    Option (BlobHash × List (String × Bytes)) × BaselineEntry :=
  if entry.stale ∧ entry.staleForCommand = some command then (none, entry)
  else (some (entry.blob, entry.xattrs),
    { entry with stale := true, staleForCommand := some command })

/-- `BaselineCacheEntry`, the cache of one working directory. -/
structure BaselineCacheEntry where
  byInode : InodeRef → Option BaselineEntry
  byPath : PathBuf → Option InodeRef

namespace BaselineCacheEntry

/-- `BaselineCacheEntry::new`. -/
def empty : BaselineCacheEntry := ⟨fun _ => none, fun _ => none⟩

def insert (cache : BaselineCacheEntry) (path : PathBuf) (entry : BaselineEntry) :
    BaselineCacheEntry :=
  ⟨update cache.byInode entry.inode (some entry),
    update cache.byPath path (some entry.inode)⟩

def promote (cache : BaselineCacheEntry) (inode : InodeRef) (command : CommandId) :
    Option (BlobHash × List (String × Bytes)) × BaselineCacheEntry :=
  match cache.byInode inode with
  | none => (none, cache)
  | some entry =>
    ((entry.markStale command).1,
      { cache with
        byInode := update cache.byInode inode (some (entry.markStale command).2) })

end BaselineCacheEntry

structure LiveBaseline where
  byCwd : PathBuf → Option BaselineCacheEntry

namespace LiveBaseline

/-- `entry_for_cwd`: the cache, created if there is none. -/
def entryForCwd (live : LiveBaseline) (cwd : PathBuf) : BaselineCacheEntry :=
  (live.byCwd cwd).getD .empty

def setCwd (live : LiveBaseline) (cwd : PathBuf) (cache : BaselineCacheEntry) : LiveBaseline :=
  ⟨update live.byCwd cwd (some cache)⟩

/-- The entry of an inode in the cache of a directory. -/
def entry (live : LiveBaseline) (cwd : PathBuf) (inode : InodeRef) : Option BaselineEntry :=
  (live.byCwd cwd).bind fun cache => cache.byInode inode

/-- `get_cwd_for_inode`, with the order in which the map yields its keys. -/
def getCwdForInode (live : LiveBaseline) (order : List PathBuf) (inode : InodeRef) :
    Option PathBuf :=
  order.find? fun cwd => (live.entry cwd inode).isSome

/-- The promotion in `dispatch_response`. -/
def promote (live : LiveBaseline) (order : List PathBuf) (inode : InodeRef)
    (command : CommandId) : Option (BlobHash × List (String × Bytes)) × LiveBaseline :=
  match live.getCwdForInode order inode with
  | none => (none, live)
  | some cwd =>
    (((live.entryForCwd cwd).promote inode command).1,
      live.setCwd cwd ((live.entryForCwd cwd).promote inode command).2)

end LiveBaseline

/-! ## Histories -/

/-- What happens to the files and the caches. -/
inductive BaselineAction where
  | write (inode : InodeRef) (bytes : Bytes)
  | capture (cwd path : PathBuf) (inode : InodeRef) (xattrs : List (String × Bytes))
  | walkComplete (cwd : PathBuf)
  | promote (order : List PathBuf) (inode : InodeRef) (command : CommandId)
deriving Repr

/-- The contents of the files and the caches; for the statement also what the latest insert of an
inode has seen, and the commands that were served since, latest first. -/
structure BaselineState where
  contents : InodeRef → Bytes
  live : LiveBaseline
  latest : InodeRef → Option BlobHash
  served : InodeRef → List CommandId

/-- One step of a history. -/
def baselineStep (blake3 : Bytes → BlobHash) (s : BaselineState) :
    BaselineAction → Option BaselineState
  | .write inode bytes => some { s with contents := update s.contents inode bytes }
  -- `handle_baseline_captured`
  | .capture cwd path inode xattrs =>
    let bytes := s.contents inode
    let entry := BaselineEntry.fresh inode (blake3 bytes) bytes.length xattrs
    some { s with
      live := s.live.setCwd cwd ((s.live.entryForCwd cwd).insert path entry)
      latest := update s.latest inode (some (blake3 bytes))
      served := update s.served inode [] }
  | .walkComplete cwd => some { s with live := s.live.setCwd cwd (s.live.entryForCwd cwd) }
  | .promote order inode command =>
    let promoted := s.live.promote order inode command
    some { s with
      live := promoted.2
      served := if promoted.1.isSome then
          update s.served inode (command :: s.served inode)
        else s.served }

/-- No cache yet. -/
def BaselineState.start (contents : InodeRef → Bytes) : BaselineState :=
  ⟨contents, ⟨fun _ => none⟩, fun _ => none, fun _ => []⟩

/-- A promotion that returns a blob returns what the latest insert has seen, to a command that was
not served since. -/
def PromotesSoundly (s : BaselineState) : BaselineAction → Prop
  | .promote order inode command =>
    ∀ blob xattrs, (s.live.promote order inode command).1 = some (blob, xattrs) →
      s.latest inode = some blob ∧ command ∉ s.served inode
  | _ => True

/-- Every promotion of the history does. -/
def HistorySound (blake3 : Bytes → BlobHash) (contents : InodeRef → Bytes)
    (as : List BaselineAction) : Prop :=
  Meets PromotesSoundly (baselineStep blake3) (.start contents) as

/-- Only one cache knows the inode, and a command that was served since the latest insert was the
last one to be. -/
def Unmixed (s : BaselineState) : BaselineAction → Prop
  | .promote _ inode command =>
    (∀ cwd cwd', (s.live.entry cwd inode).isSome → (s.live.entry cwd' inode).isSome → cwd = cwd')
      ∧ (command ∈ s.served inode → (s.served inode).head? = some command)
  | _ => True

/-! ## What a step does to an entry -/

variable {entry : BaselineEntry} {order : List PathBuf} {command : CommandId}

namespace LiveBaseline

variable {live : LiveBaseline} {cwd cwd' path : PathBuf} {inode inode' : InodeRef}

theorem byInode_entryForCwd : (live.entryForCwd cwd).byInode inode = live.entry cwd inode := by
  unfold entryForCwd LiveBaseline.entry
  cases live.byCwd cwd with
  | none => rfl
  | some cache => rfl

theorem entry_setCwd {cache : BaselineCacheEntry} :
    (live.setCwd cwd cache).entry cwd' inode
      = if cwd' = cwd then cache.byInode inode else live.entry cwd' inode := by
  by_cases h : cwd' = cwd
  · subst h
    simp [LiveBaseline.entry, setCwd]
  · simp [LiveBaseline.entry, setCwd, h]

theorem entry_insert :
    (live.setCwd cwd ((live.entryForCwd cwd).insert path entry)).entry cwd' inode
      = if cwd' = cwd ∧ inode = entry.inode then some entry else live.entry cwd' inode := by
  rw [entry_setCwd]
  by_cases hcwd : cwd' = cwd
  · subst hcwd
    by_cases hinode : inode = entry.inode
    · subst hinode
      simp [BaselineCacheEntry.insert]
    · simp [BaselineCacheEntry.insert, hinode, byInode_entryForCwd]
  · simp [hcwd]

theorem entry_walkComplete :
    (live.setCwd cwd (live.entryForCwd cwd)).entry cwd' inode = live.entry cwd' inode := by
  rw [entry_setCwd]
  by_cases hcwd : cwd' = cwd
  · rw [if_pos hcwd, byInode_entryForCwd, hcwd]
  · rw [if_neg hcwd]

theorem isSome_of_getCwdForInode (hfound : live.getCwdForInode order inode = some cwd) :
    (live.entry cwd inode).isSome = true := by
  simpa using List.find?_some hfound

theorem promote_of_unknown (hnone : ∀ cwd, live.entry cwd inode = none) :
    live.promote order inode command = (none, live) := by
  have hfound : live.getCwdForInode order inode = none := by
    simp [getCwdForInode, hnone]
  simp [promote, hfound]

theorem promote_of_found (command : CommandId) (hfound : live.getCwdForInode order inode = some cwd)
    (hentry : live.entry cwd inode = some entry) :
    (live.promote order inode command).1 = (entry.markStale command).1
      ∧ ∀ cwd' inode', (live.promote order inode command).2.entry cwd' inode'
        = if cwd' = cwd ∧ inode' = inode then some (entry.markStale command).2
          else live.entry cwd' inode' := by
  have hcache : (live.entryForCwd cwd).byInode inode = some entry :=
    byInode_entryForCwd.trans hentry
  constructor
  · simp [promote, hfound, BaselineCacheEntry.promote, hcache]
  · intro cwd' inode'
    simp only [promote, hfound, BaselineCacheEntry.promote, hcache, entry_setCwd]
    by_cases hcwd : cwd' = cwd
    · subst hcwd
      by_cases hinode : inode' = inode
      · subst hinode
        simp
      · simp [hinode, byInode_entryForCwd]
    · simp [hcwd]

theorem entry_promote_of_ne (hne : inode' ≠ inode) :
    (live.promote order inode command).2.entry cwd inode' = live.entry cwd inode' := by
  cases hfound : live.getCwdForInode order inode with
  | none => simp [promote, hfound]
  | some found =>
    obtain ⟨entry, hentry⟩ := isSome_iff_exists.mp (isSome_of_getCwdForInode hfound)
    rw [(promote_of_found command hfound hentry).2 cwd inode', if_neg]
    rintro ⟨-, heq⟩
    exact hne heq

theorem isSome_entry_promote :
    ((live.promote order inode command).2.entry cwd inode').isSome
      = (live.entry cwd inode').isSome := by
  cases hfound : live.getCwdForInode order inode with
  | none => simp [promote, hfound]
  | some found =>
    obtain ⟨entry, hentry⟩ := isSome_iff_exists.mp (isSome_of_getCwdForInode hfound)
    rw [(promote_of_found command hfound hentry).2 cwd inode']
    split
    · rename_i heq
      rw [heq.1, heq.2, hentry]
      rfl
    · rfl

end LiveBaseline

/-! ## The invariant -/

/-- An inode is in no cache, or the cache of the latest insert has its entry, marked for the command
that was served last. -/
def BaselineInv (s : BaselineState) (inode : InodeRef) : Prop :=
  (∀ cwd, s.live.entry cwd inode = none) ∨
    ∃ cwd entry, s.live.entry cwd inode = some entry ∧ s.latest inode = some entry.blob
      ∧ entry.stale = !(s.served inode).isEmpty
      ∧ entry.staleForCommand = (s.served inode).head?

section History

variable {blake3 : Bytes → BlobHash} {s s' : BaselineState} {inode : InodeRef} {a : BaselineAction}

theorem baselineInv_start (contents : InodeRef → Bytes) : BaselineInv (.start contents) inode := by
  left
  intro cwd
  rfl

theorem markStale_of_served {served : List CommandId} (hstale : entry.stale = !served.isEmpty)
    (hlast : entry.staleForCommand = served.head?)
    (hagain : command ∈ served → served.head? = some command) :
    entry.markStale command = if command ∈ served then (none, entry)
      else (some (entry.blob, entry.xattrs),
        { entry with stale := true, staleForCommand := some command }) := by
  unfold BaselineEntry.markStale
  by_cases hserved : command ∈ served
  · have hne : served ≠ [] := List.ne_nil_of_mem hserved
    rw [if_pos hserved, if_pos]
    refine ⟨?_, hlast.trans (hagain hserved)⟩
    rw [hstale]
    simpa using hne
  · rw [if_neg hserved, if_neg]
    rintro ⟨-, hcommand⟩
    -- the entry is marked for this command, which then was served
    rw [hlast] at hcommand
    exact hserved (List.mem_of_head? hcommand)

theorem promote_of_unmixed (hinv : BaselineInv s inode)
    (hone : ∀ cwd cwd', (s.live.entry cwd inode).isSome → (s.live.entry cwd' inode).isSome →
      cwd = cwd') :
    (s.live.promote order inode command = (none, s.live)) ∨
      ∃ cwd entry, s.live.getCwdForInode order inode = some cwd
        ∧ s.live.entry cwd inode = some entry ∧ s.latest inode = some entry.blob
        ∧ entry.stale = !(s.served inode).isEmpty
        ∧ entry.staleForCommand = (s.served inode).head? := by
  rcases hinv with hnone | ⟨cwd, entry, hentry, hrest⟩
  · exact Or.inl (LiveBaseline.promote_of_unknown hnone)
  cases hfound : s.live.getCwdForInode order inode with
  | none =>
    simp [LiveBaseline.promote, hfound]
  | some found =>
    have hsome := LiveBaseline.isSome_of_getCwdForInode hfound
    obtain rfl : found = cwd := hone found cwd hsome (by rw [hentry]; rfl)
    exact Or.inr ⟨found, entry, rfl, hentry, hrest⟩

theorem promotesSoundly_of_unmixed (hinv : ∀ inode, BaselineInv s inode) (hunmixed : Unmixed s a) :
    PromotesSoundly s a := by
  cases a with
  | promote order inode command =>
    obtain ⟨hone, hagain⟩ := hunmixed
    intro blob xattrs hblob
    rcases promote_of_unmixed (hinv inode) hone with hnone |
      ⟨cwd, entry, hfound, hentry, hlatest, hstale, hlast⟩
    · rw [hnone] at hblob
      cases hblob
    · have hspec := (LiveBaseline.promote_of_found command hfound hentry).1
      rw [hspec, markStale_of_served hstale hlast hagain] at hblob
      split at hblob
      · cases hblob
      · rename_i hserved
        cases hblob
        exact ⟨hlatest, hserved⟩
  | _ => trivial

theorem BaselineInv.congr (hinv : BaselineInv s inode)
    (hentries : ∀ cwd, s'.live.entry cwd inode = s.live.entry cwd inode)
    (hlatest : s'.latest inode = s.latest inode) (hserved : s'.served inode = s.served inode) :
    BaselineInv s' inode := by
  unfold BaselineInv
  simp only [hentries, hlatest, hserved]
  exact hinv

theorem BaselineInv.promote (hinv : BaselineInv s inode)
    (hunmixed : Unmixed s (.promote order inode command))
    (hstep : baselineStep blake3 s (.promote order inode command) = some s') :
    BaselineInv s' inode := by
  obtain ⟨hone, hagain⟩ := hunmixed
  cases hstep
  rcases promote_of_unmixed hinv hone with hnone |
    ⟨cwd, entry, hfound, hentry, hlatest, hstale, hlast⟩
  · -- nothing was promoted
    rw [hnone]
    exact hinv
  · obtain ⟨hblob, hentries⟩ := LiveBaseline.promote_of_found command hfound hentry
    have hmarked := hentries cwd inode
    rw [if_pos ⟨rfl, rfl⟩] at hmarked
    rw [markStale_of_served hstale hlast hagain] at hblob hmarked
    right
    by_cases hserved : command ∈ s.served inode
    · -- served before: the entry is its own already
      rw [if_pos hserved] at hblob hmarked
      refine ⟨cwd, entry, hmarked, ?_⟩
      simp only [hblob, isSome_none, Bool.false_eq_true, if_false]
      exact ⟨hlatest, hstale, hlast⟩
    · -- served now
      rw [if_neg hserved] at hblob hmarked
      refine ⟨cwd, _, hmarked, ?_⟩
      simp only [hblob, isSome_some, if_true, update_self]
      exact ⟨hlatest, rfl, rfl⟩

theorem BaselineInv.step (hinv : ∀ inode, BaselineInv s inode) (hunmixed : Unmixed s a)
    (hstep : baselineStep blake3 s a = some s') :
    ∀ inode, BaselineInv s' inode := by
  intro inode
  cases a with
  | write i bytes =>
    cases hstep
    exact (hinv inode).congr (fun _ => rfl) rfl rfl
  | capture cwd path i xattrs =>
    cases hstep
    by_cases hi : inode = i
    · -- the new entry is the latest, and fresh
      subst hi
      right
      refine ⟨cwd, .fresh inode (blake3 (s.contents inode)) (s.contents inode).length xattrs,
        ?_, ?_, ?_, ?_⟩
      · exact LiveBaseline.entry_insert.trans (if_pos ⟨rfl, rfl⟩)
      · simp [BaselineEntry.fresh]
      · simp [BaselineEntry.fresh]
      · simp [BaselineEntry.fresh]
    · apply (hinv inode).congr
      · intro cwd'
        refine LiveBaseline.entry_insert.trans (if_neg ?_)
        rintro ⟨-, heq⟩
        exact hi heq
      · exact update_of_ne hi _ _
      · exact update_of_ne hi _ _
  | walkComplete cwd =>
    cases hstep
    exact (hinv inode).congr (fun _ => LiveBaseline.entry_walkComplete) rfl rfl
  | promote order i command =>
    by_cases hi : inode = i
    · subst hi
      exact (hinv inode).promote hunmixed hstep
    cases hstep
    apply (hinv inode).congr
    · intro cwd
      exact LiveBaseline.entry_promote_of_ne hi
    · rfl
    · simp only
      split
      · exact update_of_ne hi _ _
      · rfl

/-- In every history in which only one cache knows a promoted inode, and a command asks again only
if no other was served in between, promotions are sound. -/
theorem historySound_of_unmixed (blake3 : Bytes → BlobHash) (contents : InodeRef → Bytes)
    (as : List BaselineAction)
    (hunmixed : Meets Unmixed (baselineStep blake3) (.start contents) as) :
    HistorySound blake3 contents as := by
  refine hunmixed.of_invariant (P := fun s => ∀ inode, BaselineInv s inode) ?_ ?_ ?_
  · intro inode
    exact baselineInv_start contents
  · intro s a hinv ha
    exact promotesSoundly_of_unmixed hinv ha
  · intro s a s' hinv ha hstep
    exact BaselineInv.step hinv ha hstep

theorem cwd_of_first_insert {contents : InodeRef → Bytes} {cwd cwd' path : PathBuf}
    (hknown : (((BaselineState.start contents).live.setCwd cwd
      (((BaselineState.start contents).live.entryForCwd cwd).insert path entry)).entry cwd'
        inode).isSome = true) :
    cwd' = cwd := by
  rw [LiveBaseline.entry_insert] at hknown
  by_contra hne
  rw [if_neg (fun h => hne h.1)] at hknown
  cases hknown

/-- One directory, one command that writes the file twice. -/
theorem historySound_one_command :
    HistorySound sampleHash (fun _ => [1])
      [.capture (.ofString "/w") (.ofString "/w/f") ⟨1, 7⟩ [], .write ⟨1, 7⟩ [2],
        .promote [.ofString "/w"] ⟨1, 7⟩ ⟨1, 1⟩, .write ⟨1, 7⟩ [2, 3],
        .promote [.ofString "/w"] ⟨1, 7⟩ ⟨1, 1⟩] := by
  refine historySound_of_unmixed _ _ _ ⟨trivial, trivial, ⟨?_, ?_⟩, trivial, ⟨?_, ?_⟩, trivial⟩
  · intro cwd cwd' h h'
    exact (cwd_of_first_insert h).trans (cwd_of_first_insert h').symm
  · decide +kernel
  · intro cwd cwd' h h'
    rw [LiveBaseline.isSome_entry_promote] at h h'
    exact (cwd_of_first_insert h).trans (cwd_of_first_insert h').symm
  · decide +kernel

/-- A walk of the inner directory, a write, a walk of the outer one: the inner cache may be asked
first, and has the old content. And two commands that write in turn: the entry is marked for the
second one when the first asks again. -/
theorem nested_and_repeated_promotions :
    ¬HistorySound sampleHash (fun _ => [1])
      [.capture (.ofString "/w/sub") (.ofString "/w/sub/f") ⟨1, 7⟩ [], .write ⟨1, 7⟩ [2],
        .capture (.ofString "/w") (.ofString "/w/sub/f") ⟨1, 7⟩ [],
        .promote [.ofString "/w/sub", .ofString "/w"] ⟨1, 7⟩ ⟨1, 1⟩]
    ∧ ¬HistorySound sampleHash (fun _ => [1])
      [.capture (.ofString "/w") (.ofString "/w/f") ⟨1, 7⟩ [],
        .promote [.ofString "/w"] ⟨1, 7⟩ ⟨1, 1⟩, .promote [.ofString "/w"] ⟨1, 7⟩ ⟨2, 1⟩,
        .promote [.ofString "/w"] ⟨1, 7⟩ ⟨1, 1⟩] := by
  constructor
  · rintro ⟨-, -, -, hpromote, -⟩
    obtain ⟨hlatest, -⟩ := hpromote (sampleHash [1]) [] (by decide +kernel)
    revert hlatest
    decide +kernel
  · rintro ⟨-, -, -, hpromote, -⟩
    obtain ⟨-, hserved⟩ := hpromote (sampleHash [1]) [] (by decide +kernel)
    revert hserved
    decide +kernel

end History

end ShitUndo
