import ShitUndo.Commands
import ShitUndo.Gc

/-!
# Redirect targets

The handler of `PreStashRedirects` (`redirect_track.rs`). The shell hook names the targets of `>`,
`>>`, `tee` and `dd of=` before it opens them, and the daemon records for each what undo will need:
the whole content of a file that is about to be truncated, only the size of one that is about to
grow.

`AppendedBy`: what a command that only appends to its targets leaves behind.
-/

namespace ShitUndo

open List Option Fs IndexTables

/-! ## The handler -/

/-- `RedirectOpWire`. -/
inductive RedirectOp where
  | truncate | append | teeTruncate | teeAppend | ddOf
deriving DecidableEq, Repr

/-- The ops that extend their target. -/
def RedirectOp.isAppend : RedirectOp → Bool
  | .append | .teeAppend => true
  | _ => false

/-- `RedirectTargetWire`. -/
structure RedirectTarget where
  op : RedirectOp
  path : String
deriving DecidableEq, Repr

structure PreStashRedirectError where
  path : String
  reason : String
deriving DecidableEq, Repr

structure PreStashRedirectsResult where
  stashed : Nat
  errors : List PreStashRedirectError
deriving DecidableEq, Repr

inductive StashOutcome where
  | stashed | skipped
deriving DecidableEq, Repr

/-- `impl Display for BlobError`. -/
def BlobError.text : BlobError → String
  | io err => "io: " ++ err
  | hashMismatch expected actual =>
    "hash mismatch after streaming: expected " ++ expected.toHex ++ ", got " ++ actual.toHex
  | malformed path => "malformed blob file (no flag byte): " ++ path.display
  | unknownFlag path flag =>
    "unknown compression flag " ++ toString flag ++ " in " ++ path.display

/-- `impl Display for IndexError`. -/
def IndexError.text : IndexError → String
  | foreignKey => "sqlite: FOREIGN KEY constraint failed"
  | integerOverflow => "sqlite: integer overflow"

/-- What the handler works with besides the tree and the store: the blob store, the `n`-th reading
of `next_ts`, the errors its calls run into (a missing file apart), the `Debug` of a file type. -/
structure RedirectEnv where
  os : Os
  blobStore : BlobStore
  nextTs : Nat → TimePoint
  statErr : PathBuf → Option Errno
  statErr_ne : ∀ p, statErr p ≠ some .enoent
  readErr : PathBuf → Option Errno
  putErr : Bytes → Option String
  debugFileType : FileKind → String

/-- The store, and how often the clock was read. -/
structure StashState where
  store : Store
  ticks : Nat

section Handler

variable (env : RedirectEnv) (fs : Fs) (command : CommandId)

def symlinkMetadata (path : PathBuf) : Except Errno InodeRef :=
  match env.statErr path with
  | some e => .error e
  | none =>
    match fs.lookup path with
    | some i => .ok i
    | none => .error .enoent

/-- The event both stash functions journal. -/
def stashEvent (kind : CaptureEventKind) (ts : TimePoint) : CaptureEvent :=
  { id := ⟨0⟩, command := command, ts := ts, isPartial := false, kind := kind }

/-- `put_event`, with its error as text. -/
def journalStash (event : CaptureEvent) (s : StashState) :
    Except String StashOutcome × StashState :=
  match s.store.index.putEvent event with
  | .error e => (.error ("put_event: " ++ e.text), s)
  | .ok (_, index) => (.ok .stashed, { s with store := { s.store with index := index } })

def stashAppend (path : PathBuf) (s : StashState) : Except String StashOutcome × StashState :=
  match symlinkMetadata env fs path with
  | .error .enoent => (.ok .skipped, s)
  | .error e => (.error ("stat: " ++ e.text), s)
  | .ok i =>
    let fileMeta := (fs.inode i).stat env.os
    if (fs.inode i).kind ≠ .regular then
      (.error ("not a regular file (" ++ env.debugFileType (fs.inode i).kind ++ ")"), s)
    -- an empty file is left out of the journal
    else if fileMeta.size = 0 then (.ok .skipped, s)
    else
      journalStash
        (stashEvent command (.fileAppendPreStash i path fileMeta.size) (env.nextTs s.ticks))
        { s with ticks := s.ticks + 1 }

def stashTruncate (path : PathBuf) (s : StashState) : Except String StashOutcome × StashState :=
  match symlinkMetadata env fs path with
  | .error .enoent => (.ok .skipped, s)
  | .error e => (.error ("stat: " ++ e.text), s)
  | .ok i =>
    if (fs.inode i).kind ≠ .regular then
      (.error ("not a regular file (" ++ env.debugFileType (fs.inode i).kind ++ ")"), s)
    else
      match env.readErr path with
      | some e => (.error ("read: " ++ e.text), s)
      | none =>
        let bytes := (fs.inode i).content
        match env.blobStore.put (env.putErr bytes) bytes s.store.files with
        | (.error e, files) =>
          (.error ("blob put: " ++ e.text), { s with store := { s.store with files := files } })
        | (.ok (hash, stat), files) =>
          let ts := env.nextTs s.ticks
          let fileMeta := { (fs.inode i).stat env.os with xattrs := [], acl := none, flags := 0 }
          journalStash
            (stashEvent command (.filePreImage i path hash fileMeta none .baselineCachePromote) ts)
            { store :=
                { index := s.store.index.putBlobRecord hash stat.storedBytes stat.compressed ts
                  files := files }
              ticks := s.ticks + 1 }

def stashOne (target : RedirectTarget) (s : StashState) : Except String StashOutcome × StashState :=
  match target.op with
  | .truncate | .teeTruncate | .ddOf => stashTruncate env fs command (.ofString target.path) s
  | .append | .teeAppend => stashAppend env fs command (.ofString target.path) s

/-- One round of the loop of `handle`. -/
def handleOne (acc : PreStashRedirectsResult × StashState) (target : RedirectTarget) :
    PreStashRedirectsResult × StashState :=
  let r := stashOne env fs command target acc.2
  match r.1 with
  | .ok .stashed => ({ acc.1 with stashed := acc.1.stashed + 1 }, r.2)
  | .ok .skipped => (acc.1, r.2)
  | .error reason =>
    ({ acc.1 with errors := acc.1.errors ++ [⟨target.path, reason⟩] }, r.2)

/-- `handle`: a target that fails does not stop the others. -/
def handle (targets : List RedirectTarget) (s : StashState) :
    PreStashRedirectsResult × StashState :=
  targets.foldl (handleOne env fs command) (⟨0, []⟩, s)

end Handler

/-! ## What is journaled -/

/-- The event of a target that is about to grow: a regular file with something in it. -/
inductive StashOf (fs : Fs) (p : PathBuf) (ev : CaptureEvent) : Prop
  | mk {i : InodeRef} (hlookup : fs.lookup p = some i) (hregular : (fs.inode i).kind = .regular)
      (hcontent : (fs.inode i).content ≠ [])
      (hkind : ev.kind = .fileAppendPreStash i p (fs.inode i).content.length)
      (hcomplete : ev.isPartial = false)

/-- There is nothing to cut back: no regular file at the path, or an empty one. -/
def NothingToStash (fs : Fs) (p : PathBuf) : Prop :=
  ∀ i, fs.lookup p = some i → (fs.inode i).kind = .regular → (fs.inode i).content = []

section Journal

variable {env : RedirectEnv} {fs fs' : Fs} {command : CommandId} {targets : List RedirectTarget}
  {target : RedirectTarget} {s : StashState} {i : InodeRef} {p : PathBuf}
  {acc : PreStashRedirectsResult × StashState}

theorem symlinkMetadata_eq_ok (h : symlinkMetadata env fs p = .ok i) : fs.lookup p = some i := by
  unfold symlinkMetadata at h
  split at h
  · cases h
  · split at h
    · cases h
      assumption
    · cases h

theorem symlinkMetadata_eq_enoent (h : symlinkMetadata env fs p = .error .enoent) :
    fs.lookup p = none := by
  unfold symlinkMetadata at h
  split at h
  · rename_i e he
    cases h
    exact absurd he (env.statErr_ne p)
  · split at h
    · cases h
    · assumption

/-- What `stash_append` does: it journals the event, or it fails, or there is nothing to stash. -/
theorem stashAppend_cases (env : RedirectEnv) (fs : Fs) (command : CommandId) (p : PathBuf)
    (s : StashState) :
    (∃ ev, StashOf fs p ev ∧ ev.command = command ∧
        (stashAppend env fs command p s).1 = .ok .stashed ∧
        (stashAppend env fs command p s).2.store.index = s.store.index.appendEvent ev) ∨
      (stashAppend env fs command p s).2.store = s.store ∧
        ((∃ reason, (stashAppend env fs command p s).1 = .error reason) ∨
          (stashAppend env fs command p s).1 = .ok .skipped ∧ NothingToStash fs p) := by
  unfold stashAppend
  split
  · rename_i hstat
    right
    refine ⟨rfl, Or.inr ⟨rfl, ?_⟩⟩
    intro i hi
    rw [symlinkMetadata_eq_enoent hstat] at hi
    cases hi
  · exact Or.inr ⟨rfl, Or.inl ⟨_, rfl⟩⟩
  · rename_i i hstat
    have hi := symlinkMetadata_eq_ok hstat
    dsimp only
    split
    · exact Or.inr ⟨rfl, Or.inl ⟨_, rfl⟩⟩
    rename_i hreg
    have hregular : (fs.inode i).kind = .regular := not_not.mp hreg
    have hsize : ((fs.inode i).stat env.os).size = (fs.inode i).content.length := by
      simp [Inode.stat, hregular]
    rw [hsize]
    split
    · -- the empty file
      rename_i hempty
      right
      refine ⟨rfl, Or.inr ⟨rfl, ?_⟩⟩
      intro j hj _
      obtain rfl : i = j := some.inj (hi.symm.trans hj)
      exact eq_nil_of_length_eq_zero hempty
    · rename_i hsome
      have hcontent : (fs.inode i).content ≠ [] := by
        intro hnil
        exact hsome (by rw [hnil]; rfl)
      unfold journalStash
      split
      · exact Or.inr ⟨rfl, Or.inl ⟨_, rfl⟩⟩
      · rename_i id index hput
        left
        exact ⟨_, .mk hi hregular hcontent rfl rfl, rfl, rfl,
          (putEvent_eq_ok.mp hput).2.2⟩

theorem StashOf.withId {ev : CaptureEvent} (hstash : StashOf fs p ev) (id : EventId) :
    StashOf fs p { ev with id := id } := by
  obtain ⟨hlookup, hregular, hcontent, hkind, hcomplete⟩ := hstash
  exact ⟨hlookup, hregular, hcontent, hkind, hcomplete⟩

/-- What the handler has journaled after some targets. -/
structure Handled (fs : Fs) (command : CommandId) (targets : List RedirectTarget)
    (acc : PreStashRedirectsResult × StashState) : Prop where
  sound : ∀ ev ∈ acc.2.store.index.eventsForCommand command,
    ∃ t ∈ targets, StashOf fs (.ofString t.path) ev
  complete : ∀ t ∈ targets,
    (∃ ev ∈ acc.2.store.index.eventsForCommand command, StashOf fs (.ofString t.path) ev) ∨
      (∃ e ∈ acc.1.errors, e.path = t.path) ∨ NothingToStash fs (.ofString t.path)

theorem Handled.pass {acc' : PreStashRedirectsResult × StashState}
    (hacc : Handled fs command targets acc) (hstore : acc'.2.store = acc.2.store)
    (herrors : ∀ e ∈ acc.1.errors, e ∈ acc'.1.errors)
    (hlast : (∃ e ∈ acc'.1.errors, e.path = target.path) ∨
      NothingToStash fs (.ofString target.path)) :
    Handled fs command (targets ++ [target]) acc' := by
  constructor
  · intro ev hev
    rw [hstore] at hev
    obtain ⟨t, ht, hstash⟩ := hacc.sound ev hev
    exact ⟨t, mem_append_left _ ht, hstash⟩
  · intro t ht
    rw [hstore]
    rcases mem_append.mp ht with hold | hnew
    · rcases hacc.complete t hold with hstash | ⟨e, he, hpath⟩ | hnothing
      · exact Or.inl hstash
      · exact Or.inr (Or.inl ⟨e, herrors e he, hpath⟩)
      · exact Or.inr (Or.inr hnothing)
    · rw [mem_singleton.mp hnew]
      exact Or.inr hlast

theorem Handled.step (hacc : Handled fs command targets acc) (happend : target.op.isAppend = true) :
    Handled fs command (targets ++ [target]) (handleOne env fs command acc target) := by
  have hone : stashOne env fs command target acc.2 =
      stashAppend env fs command (.ofString target.path) acc.2 := by
    unfold stashOne
    cases hop : target.op with
    | append | teeAppend => rfl
    | truncate | teeTruncate | ddOf =>
      rw [hop] at happend
      cases happend
  unfold handleOne
  rw [hone]
  rcases stashAppend_cases env fs command (.ofString target.path) acc.2 with
    ⟨new, hnew, hcommand, hout, hindex⟩ | ⟨hstore, hrest⟩
  · -- the event is journaled
    have hmem : ∀ ev, ev ∈ (acc.2.store.index.appendEvent new).eventsForCommand command ↔
        ev ∈ acc.2.store.index.eventsForCommand command ∨
          { new with id := ⟨acc.2.store.index.nextEventId⟩ } = ev := by
      intro ev
      simp only [mem_eventsForCommand, IndexTables.appendEvent, mem_append,
        mem_singleton, or_and_right, exists_or, exists_eq_left]
      simp [EventRow.command, hcommand]
    simp only [hout]
    constructor
    · intro ev hev
      simp only [hindex] at hev
      rcases (hmem ev).mp hev with hold | rfl
      · obtain ⟨t, ht, hstash⟩ := hacc.sound ev hold
        exact ⟨t, mem_append_left _ ht, hstash⟩
      · exact ⟨target, by simp, hnew.withId _⟩
    · intro t ht
      simp only [hindex]
      rcases mem_append.mp ht with hold | hlast
      · rcases hacc.complete t hold with ⟨ev, hev, hstash⟩ | hother
        · exact Or.inl ⟨ev, (hmem ev).mpr (Or.inl hev), hstash⟩
        · exact Or.inr hother
      · rw [mem_singleton.mp hlast]
        exact Or.inl ⟨_, (hmem _).mpr (Or.inr rfl), hnew.withId _⟩
  · rcases hrest with ⟨reason, hout⟩ | ⟨hout, hnothing⟩
    · -- the error is in the reply
      simp only [hout]
      refine hacc.pass hstore ?_ (Or.inl ⟨⟨target.path, reason⟩, by simp, rfl⟩)
      intro e he
      exact mem_append_left _ he
    · simp only [hout]
      refine hacc.pass hstore ?_ (Or.inr hnothing)
      intro e he
      exact he

theorem handled_handle (env : RedirectEnv) (fs : Fs) (happend : ∀ t ∈ targets, t.op.isAppend = true)
    (hnew : s.store.index.eventsForCommand command = []) :
    Handled fs command targets (handle env fs command targets s) := by
  induction targets using reverseRecOn with
  | nil =>
    constructor
    · intro ev hev
      rw [handle, foldl_nil, hnew] at hev
      cases hev
    · intro t ht
      cases ht
  | append_singleton targets target ih =>
    rw [handle, foldl_append]
    apply Handled.step
    · apply ih
      intro t ht
      exact happend t (mem_append_left _ ht)
    · exact happend target (by simp)

end Journal

/-! ## What is appended -/

/-- The regular files among the targets are still there, and have grown by some bytes. -/
def AppendedBy (fs fs' : Fs) (targets : List RedirectTarget) (bytes : InodeRef → Bytes) : Prop :=
  ∀ t ∈ targets, ∀ i, fs.lookup (.ofString t.path) = some i → (fs.inode i).kind = .regular →
    fs'.lookup (.ofString t.path) = some i ∧ (fs'.inode i).kind = .regular ∧
      (fs'.inode i).content = (fs.inode i).content ++ bytes i

/-- One `write` to a file that was opened with `O_APPEND`. -/
structure AppendWrite where
  inode : InodeRef
  bytes : Bytes
  mtime : Int

/-- The file grows by the bytes. -/
def Fs.append (fs : Fs) (w : AppendWrite) : Fs :=
  fs.modifyInode w.inode fun n => { n with content := n.content ++ w.bytes, mtime := w.mtime }

/-- All bytes written to a file. -/
def bytesTo (writes : List AppendWrite) (i : InodeRef) : Bytes :=
  (writes.filter fun w => w.inode = i).flatMap AppendWrite.bytes

section Writes

variable {fs : Fs} {writes : List AppendWrite}

theorem Fs.inode_append (fs : Fs) (w : AppendWrite) (i : InodeRef) :
    ((fs.append w).inode i).kind = (fs.inode i).kind ∧
    ((fs.append w).inode i).content =
      (fs.inode i).content ++ if w.inode = i then w.bytes else [] := by
  by_cases hi : w.inode = i
  · subst hi
    simp [append, inode_modifyInode_self]
  · simp [append, inode_modifyInode_of_ne _ (Ne.symm hi), hi]

/-- After any number of writes the names are the same, and every file has grown by its bytes. -/
theorem foldl_append (fs : Fs) (writes : List AppendWrite) :
    (writes.foldl append fs).lookup = fs.lookup ∧
      ∀ i, ((writes.foldl append fs).inode i).kind = (fs.inode i).kind ∧
        ((writes.foldl append fs).inode i).content =
          (fs.inode i).content ++ bytesTo writes i := by
  induction writes generalizing fs with
  | nil => simp [bytesTo]
  | cons w writes ih =>
    obtain ⟨hlookup, hinode⟩ := ih (fs.append w)
    refine ⟨hlookup, ?_⟩
    intro i
    obtain ⟨hkind, hcontent⟩ := hinode i
    obtain ⟨hkind', hcontent'⟩ := inode_append fs w i
    refine ⟨hkind.trans hkind', ?_⟩
    rw [foldl_cons, hcontent, hcontent', append_assoc]
    congr 1
    by_cases hi : w.inode = i
    · simp [bytesTo, hi]
    · simp [bytesTo, hi]

theorem appendedBy_of_writes (targets : List RedirectTarget) :
    AppendedBy fs (writes.foldl append fs) targets (bytesTo writes) := by
  intro t _ i hi hreg
  obtain ⟨hlookup, hinode⟩ := foldl_append fs writes
  obtain ⟨hkind, hcontent⟩ := hinode i
  exact ⟨by rw [hlookup, hi], by rw [hkind, hreg], hcontent⟩

end Writes

/-! ## Undo -/

section Undo

variable {h : Host} {r : Renderers} {order : HashOrder} {store : PlannerStore}
  {command : CommandRecord} {fs fs' u : Fs} {targets : List RedirectTarget}
  {bytes : InodeRef → Bytes} {events : List CaptureEvent} {nodes : List PlanNode}
  {target : RedirectTarget} {i : InodeRef} {node : PlanNode}

/-- On the way from the grown files back to the old ones. An empty file is never cut. -/
structure CutBack (fs fs' u : Fs) : Prop where
  lookup : u.lookup = fs'.lookup
  kind : ∀ i, (u.inode i).kind = (fs'.inode i).kind
  content : ∀ i, (u.inode i).content = (fs'.inode i).content ∨
    (fs.inode i).content ≠ [] ∧ (u.inode i).content = (fs.inode i).content

/-- The inverse of a target's append. -/
inductive CutsBack (fs : Fs) (targets : List RedirectTarget) (i : InodeRef) : PlanNode → Prop
  | mk {t : RedirectTarget} {c : Option Conflict} (ht : t ∈ targets)
      (hlookup : fs.lookup (.ofString t.path) = some i)
      (hregular : (fs.inode i).kind = .regular) (hcontent : (fs.inode i).content ≠ [])
      (hc : c.any Conflict.isHard = false) :
      CutsBack fs targets i (.fresh (.fileExtend (.ofString t.path) (fs.inode i).content.length) c)

theorem CutsBack.unique {j : InodeRef} (hi : CutsBack fs targets i node)
    (hj : CutsBack fs targets j node) : j = i := by
  obtain ⟨-, hlookup, -, -, -⟩ := hi
  generalize hnode : PlanNode.fresh _ _ = node at hj
  obtain ⟨-, hlookup', -, -, -⟩ := hj
  obtain ⟨hpath, -⟩ := InverseOp.fileExtend.inj (congrArg PlanNode.op hnode)
  rw [← hpath, hlookup] at hlookup'
  exact (some.inj hlookup').symm

theorem CutBack.step (hp : h.Permissive) (hgrown : AppendedBy fs fs' targets bytes)
    (hcut : CutBack fs fs' u) (hnode : CutsBack fs targets i node) :
    ∃ u', RunsThrough (fileRuntime h) OutcomeKind.IsApplied [node] u u' ∧ CutBack fs fs' u' ∧
      (u'.inode i).content = (fs.inode i).content ∧
      ∀ j, j ≠ i → u'.inode j = u.inode j := by
  obtain ⟨ht, hlookup, hregular, hcontent, hc⟩ := hnode
  rename_i t c
  obtain ⟨hlookup', hregular', hgrown⟩ := hgrown t ht i hlookup hregular
  have hi : u.lookup (.ofString t.path) = some i := by rw [hcut.lookup, hlookup']
  have hreg : (u.inode i).kind = .regular := by rw [hcut.kind, hregular']
  -- whether it was cut before or not, the old content is what it starts with
  have htake : (u.inode i).content.take (fs.inode i).content.length = (fs.inode i).content := by
    rcases hcut.content i with hfull | ⟨-, hold⟩
    · rw [hfull, hgrown, take_left]
    · rw [hold, take_length]
  have hlen : (fs.inode i).content.length ≤ (u.inode i).content.length := by
    have hlength := congrArg length htake
    rw [length_take] at hlength
    omega
  have hresolve : u.resolve (.ofString t.path) = some i := by
    apply resolve_of_lookup hi
    rw [hreg]
    decide
  have hpre : preconditionConflict (u.probe h)
      (.fileExtend (.ofString t.path) (fs.inode i).content.length) = none := by
    simp [preconditionConflict, probe_pathExists, node_of_lookup hi]
  refine ⟨_, through_op OutcomeKind.isApplied hc rfl hpre
    (applyFileExtend_eq hp hresolve hreg hlen), ?_, ?_, ?_⟩
  · constructor
    · exact hcut.lookup
    · intro j
      by_cases hj : j = i
      · subst hj
        rw [inode_modifyInode_self]
        exact hcut.kind j
      · rw [inode_modifyInode_of_ne _ hj]
        exact hcut.kind j
    · intro j
      by_cases hj : j = i
      · subst hj
        rw [inode_modifyInode_self]
        exact Or.inr ⟨hcontent, htake⟩
      · rw [inode_modifyInode_of_ne _ hj]
        exact hcut.content j
  · rw [inode_modifyInode_self]
    exact htake
  · intro j hj
    exact inode_modifyInode_of_ne _ hj

theorem CutBack.run (hp : h.Permissive) (hgrown : AppendedBy fs fs' targets bytes)
    (hcut : CutBack fs fs' u) (hnodes : ∀ node ∈ nodes, ∃ i, CutsBack fs targets i node) :
    ∃ u', RunsThrough (fileRuntime h) OutcomeKind.IsApplied nodes u u' ∧ CutBack fs fs' u' ∧
      ∀ i, (u.inode i).content = (fs.inode i).content ∨ (∃ node ∈ nodes, CutsBack fs targets i node)
        → (u'.inode i).content = (fs.inode i).content := by
  induction nodes generalizing u with
  | nil =>
    refine ⟨u, .nil u, hcut, ?_⟩
    rintro i (hdone | ⟨node, hnode, -⟩)
    · exact hdone
    · cases hnode
  | cons node rest ih =>
    obtain ⟨i, hnode⟩ := hnodes node mem_cons_self
    obtain ⟨u₁, hone, hcut₁, hi, hothers⟩ := hcut.step hp hgrown hnode
    obtain ⟨u', hrest, hcut', hdone⟩ := ih hcut₁ fun n hn => hnodes n (mem_cons_of_mem _ hn)
    refine ⟨u', hone.append hrest, hcut', ?_⟩
    intro j hj
    apply hdone
    by_cases hji : j = i
    · subst hji
      exact Or.inl hi
    rcases hj with hj | ⟨n, hn, hcuts⟩
    · left
      rw [hothers j hji]
      exact hj
    · rcases mem_cons.mp hn with rfl | hn
      · exact absurd (hnode.unique hcuts) hji
      · exact Or.inr ⟨n, hn, hcuts⟩

theorem emit_stash (hsound : ∀ ev ∈ events, ∃ t ∈ targets, StashOf fs (.ofString t.path) ev)
    (r : Renderers) (order : HashOrder) (probe : StateProbe) (store : PlannerStore)
    {ev : CaptureEvent} (htarget : target ∈ targets)
    (hstash : StashOf fs (.ofString target.path) ev) :
    ∃ i node, fs.lookup (.ofString target.path) = some i ∧ CutsBack fs targets i node ∧
      (emitUnlessSkipped r probe store (classify order events probe) ev).nodes = [node] := by
  have hno : NoTreeOps events := by
    intro ev hev op hop
    obtain ⟨t, -, hstash⟩ := hsound ev hev
    obtain ⟨-, -, -, hkind, -⟩ := hstash
    rw [hop] at hkind
    cases hkind
  obtain ⟨hlookup, hregular, hcontent, hkind, -⟩ := hstash
  rename_i i
  have hpath : eventPath ev = some (.ofString target.path) := by simp [eventPath, hkind]
  have hskip : skipsEvent (classify order events probe) ev = false :=
    skipsEvent_of_noAliases hno.noAliases hpath (hno.not_transient _)
  refine ⟨i, .fresh (.fileExtend (.ofString target.path) (fs.inode i).content.length)
    (filePathConflict (.ofString target.path) i probe), hlookup, ?_, ?_⟩
  · exact .mk htarget hlookup hregular hcontent filePathConflict_not_hard
  · simp [emitUnlessSkipped, hskip, emitForEvent, hkind]

theorem undo_appends (r : Renderers) (order : HashOrder) (store : PlannerStore)
    (hp : h.Permissive) (hgrown : AppendedBy fs fs' targets bytes)
    (hsound : ∀ ev ∈ events, ∃ t ∈ targets, StashOf fs (.ofString t.path) ev)
    (hplain : command.refusal = none) :
    CutBack fs fs' (undo h r order command events store fs').2 ∧
      ∀ t ∈ targets, ∀ ev ∈ events, StashOf fs (.ofString t.path) ev →
        ∀ i, fs.lookup (.ofString t.path) = some i → ((undo h r order command events
          store fs').2.inode i).content = (fs.inode i).content := by
  have hnodes : ∀ node ∈ planNodes r order events (fs'.probe h) store,
      ∃ i, CutsBack fs targets i node := by
    intro node hnode
    obtain ⟨ev, hev, hnode⟩ := mem_flatMap.mp hnode
    obtain ⟨t, ht, hstash⟩ := hsound ev (mem_liveEvents.mp hev).1
    obtain ⟨i, n, -, hcuts, hemit⟩ := emit_stash hsound r order (fs'.probe h) store ht hstash
    rw [hemit, mem_singleton] at hnode
    exact ⟨i, hnode ▸ hcuts⟩
  have hstart : CutBack fs fs' fs' := ⟨rfl, fun _ => rfl, fun _ => Or.inl rfl⟩
  obtain ⟨u, hrun, hcut, hdone⟩ := hstart.run hp hgrown hnodes
  have hundo : (undo h r order command events store fs').2 = u := by
    rw [undo, ShitUndo.run, plan_nodes_of_not_refused hplain]
    dsimp only
    rw [runFrom_assignCohorts]
    exact (hrun.runFrom_eq 0).1
  rw [hundo]
  refine ⟨hcut, ?_⟩
  intro t ht ev hev hstash i hi
  obtain ⟨j, node, hj, hcuts, hemit⟩ := emit_stash hsound r order (fs'.probe h) store ht hstash
  obtain rfl : j = i := some.inj (hj.symm.trans hi)
  obtain ⟨-, -, -, -, hcomplete⟩ := hstash
  apply hdone
  right
  refine ⟨node, mem_flatMap.mpr ⟨ev, mem_liveEvents.mpr ⟨hev, hcomplete⟩, ?_⟩, hcuts⟩
  rw [hemit]
  exact mem_singleton_self node

variable {env : RedirectEnv} {s : StashState}

/-- **A file that was appended to is cut back to what it was** if it was not empty and undo is not
refused, or if nothing was appended after all. -/
theorem append_undone_iff (hp : h.Permissive) (happend : ∀ t ∈ targets, t.op.isAppend = true)
    (hnew : s.store.index.eventsForCommand command.command = [])
    (hgrown : AppendedBy fs fs' targets bytes) (htarget : target ∈ targets)
    (hi : fs.lookup (.ofString target.path) = some i) (hregular : (fs.inode i).kind = .regular)
    (hstashed : ∀ e ∈ (handle env fs command.command targets s).1.errors, e.path ≠ target.path) :
    (undo h r order command
        ((handle env fs command.command targets s).2.store.index.eventsForCommand command.command)
        store fs').2.fileAt (.ofString target.path) = some (fs.inode i).content ↔
      bytes i = [] ∨ (fs.inode i).content ≠ [] ∧ command.refusal = none := by
  obtain ⟨hsound, hcomplete⟩ := handled_handle env fs happend hnew
  obtain ⟨hi', hregular', hcontent'⟩ := hgrown target htarget i hi hregular
  generalize (handle env fs command.command targets s).2.store.index.eventsForCommand
    command.command = events at hsound hcomplete ⊢
  by_cases hplain : command.refusal = none
  · obtain ⟨hcut, hdone⟩ := undo_appends r order store hp hgrown hsound hplain
    have hlookup : (undo h r order command events store fs').2.lookup (.ofString target.path) =
        some i := by rw [hcut.lookup, hi']
    have hkind : ((undo h r order command events store fs').2.inode i).kind = .regular := by
      rw [hcut.kind, hregular']
    rw [fileAt_of_lookup hlookup hkind, some.injEq]
    rcases hcomplete target htarget with ⟨ev, hev, hstash⟩ | ⟨e, he, hpath⟩ | hnothing
    · -- the target has its event
      have hcontent : (fs.inode i).content ≠ [] := by
        obtain ⟨hj, -, hcontent, -, -⟩ := hstash
        obtain rfl := some.inj (hj.symm.trans hi)
        exact hcontent
      simp [hdone target htarget ev hev hstash i hi, hcontent, hplain]
    · exact absurd hpath (hstashed e he)
    · -- the empty file keeps what was appended
      have hempty := hnothing i hi hregular
      rcases hcut.content i with hfull | ⟨hne, -⟩
      · rw [hfull, hcontent', hempty]
        simp
      · exact absurd hempty hne
  · -- a refused plan does nothing
    rw [undo_of_refused hplain, fileAt_of_lookup hi' hregular', hcontent', some.injEq,
      append_right_eq_self]
    simp [hplain]

end Undo

/-! ## Two logs -/

section Logs

/-- A daemon whose calls never fail. -/
def RedirectEnv.sample : RedirectEnv where
  os := .linux
  blobStore := .sample
  nextTs := fun n => ⟨n, 0⟩
  statErr := fun _ => none
  statErr_ne := nofun
  readErr := fun _ => none
  putErr := fun _ => none
  debugFileType := fun _ => ""

/-- A new store that knows the command. -/
def openCommand : StashState :=
  ⟨⟨empty.putCommand plainCommand.command 0, fun _ => none⟩, 0⟩

/-- A log with one byte and an empty one. -/
def twoLogs : Fs := ofList [("/log", .file [1]), ("/new", .file [])]

/-- `tee -a /log /new`. -/
def bothLogs : List RedirectTarget := [⟨.teeAppend, "/log"⟩, ⟨.teeAppend, "/new"⟩]

/-- Two writes to each. -/
def logWrites : List AppendWrite :=
  [⟨⟨1, 2⟩, [2], 9⟩, ⟨⟨1, 3⟩, [2], 9⟩, ⟨⟨1, 2⟩, [3], 10⟩, ⟨⟨1, 3⟩, [3], 10⟩]

/-- The log is cut back to its one byte. -/
theorem append_undone_log :
    (undo .sample .silent .insertion plainCommand
      ((handle .sample twoLogs plainCommand.command bothLogs
        openCommand).2.store.index.eventsForCommand plainCommand.command)
      fullStore (logWrites.foldl append twoLogs)).2.fileAt (.ofString "/log") = some [1] :=
  have hlog : (⟨.teeAppend, "/log"⟩ : RedirectTarget) ∈ bothLogs := by decide
  (append_undone_iff (i := ⟨1, 2⟩) Host.sample_permissive (by decide) (by decide +kernel)
    (appendedBy_of_writes bothLogs) hlog (by decide +kernel) (by decide +kernel)
    (by decide +kernel)).mpr (Or.inr (by decide +kernel))

/-- The log that was empty keeps what was appended: it has no event. -/
theorem append_to_empty_stays :
    AppendedBy twoLogs (logWrites.foldl append twoLogs) bothLogs (bytesTo logWrites) ∧
      (handle .sample twoLogs plainCommand.command bothLogs openCommand).1.errors = [] ∧
      twoLogs.fileAt (.ofString "/new") = some [] ∧
      (undo .sample .silent .insertion plainCommand
        ((handle .sample twoLogs plainCommand.command bothLogs
          openCommand).2.store.index.eventsForCommand plainCommand.command)
        fullStore (logWrites.foldl append twoLogs)).2.fileAt (.ofString "/new")
          = some [2, 3] := by
  refine ⟨appendedBy_of_writes bothLogs, ?_, ?_, ?_⟩
  · decide +kernel
  · decide +kernel
  · decide +kernel

end Logs

end ShitUndo
