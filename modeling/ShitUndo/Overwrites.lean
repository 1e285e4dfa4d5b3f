import ShitUndo.RoundTrips

/-!
# Overwriting renames

A command renames files, possibly over others, and deletes files. The planner drops the inverse
of a rename whose destination it counts as atomically replaced, which a destination with a
pre-image is when it exists at undo or was deleted. What was moved there is then not moved back.
-/

namespace ShitUndo

open List PathTree Fs PathBuf Option Function OutcomeKind

open UndoLog (Runs Undone)

variable {h : Host} {fs fs' s s' : Fs} {events log entries : List CaptureEvent} {r : Renderers}
  {order : HashOrder} {command : CommandRecord} {store : PlannerStore} {act : Act} {i : InodeRef}
  {ev : CaptureEvent} {ok : OutcomeKind → Prop} {src dst : PathBuf}

/-! ## Statement -/

/-- Renames, onto free names or over files, and deletions of files. -/
def Act.MovesOrRemoves (act : Act) : Prop := act = .rename ∨ act = .replace ∨ act = .removeFile

/-- Every file of `fs` is in `u` with the same content. -/
def ContentsRestored (fs u : Fs) : Prop :=
  ∀ p bytes, fs.fileAt p = some bytes → u.fileAt p = some bytes

/-- No destination of a rename has a pre-image, unless it was never deleted and is gone. -/
def DestinationsClear (events : List CaptureEvent) (fs' : Fs) : Prop :=
  ∀ dst ∈ renameDestinations events, dst ∈ preImages events →
    dst ∉ unlinks events ∧ fs'.kindAt dst = none

instance (events : List CaptureEvent) (fs' : Fs) : Decidable (DestinationsClear events fs') :=
  inferInstanceAs (Decidable (∀ dst ∈ renameDestinations events, dst ∈ preImages events →
    dst ∉ unlinks events ∧ fs'.kindAt dst = none))

/-! ## What the steps do to names -/

theorem lookup_of_moves (hact : act.MovesOrRemoves) (hwf : s.WellFormed)
    (hdoes : Does h act s entries s') :
    (∃ src dst, s'.lookup = move src dst s.lookup) ∨
      ∃ p, s'.lookup = update s.lookup p none := by
  cases hdoes with
  | rename habs hi hfree hparent hout hev =>
    have hnot := hwf.not_isPrefix_of_free habs hfree (kindAt_ne_none hi)
    exact .inl ⟨_, _, lookup_move hout hnot s⟩
  | replace hi hreg hij hpre hlost hev =>
    obtain ⟨hout, hnot⟩ := hwf.incomparable hi hreg hpre.lookup hpre.regular hij
    exact .inl ⟨_, _, lookup_move hout hnot s⟩
  | removeFile hpre hunlink => exact .inr ⟨_, lookup_erase _ s⟩
  | _ => rcases hact with hact | hact | hact <;> cases hact

theorem singleNamed_of_moves (hact : act.MovesOrRemoves) (hwf : s.WellFormed)
    (hnames : s.SingleNamed) (hdoes : Does h act s entries s') : s'.SingleNamed := by
  rcases lookup_of_moves hact hwf hdoes with ⟨src, dst, hlookup⟩ | ⟨p, hlookup⟩
  · exact hnames.move hlookup
  · exact hnames.erase hlookup

/-- The inode `i` has no name. -/
def Fs.Nameless (fs : Fs) (i : InodeRef) : Prop := ∀ q, fs.lookup q ≠ some i

theorem nameless_of_moves (hact : act.MovesOrRemoves) (hwf : s.WellFormed) (hno : s.Nameless i)
    (hdoes : Does h act s entries s') : s'.Nameless i := by
  intro q hq
  rcases lookup_of_moves hact hwf hdoes with ⟨src, dst, hlookup⟩ | ⟨p, hlookup⟩
  · rw [hlookup] at hq
    obtain ⟨q', hq'⟩ := exists_of_move hq
    exact hno q' hq'
  rw [hlookup] at hq
  by_cases hqp : q = p
  · rw [hqp, update_self] at hq
    cases hq
  · rw [update_of_ne hqp] at hq
    exact hno q hq

theorem unlinked_of_moves {p : PathBuf} {kind : FileKind} {mode : Nat} (hact : act.MovesOrRemoves)
    (hwf : s.WellFormed) (hnames : s.SingleNamed) (hdoes : Does h act s entries s')
    (hev : ev ∈ entries) (hkind : ev.kind = .treeOp (.unlink i p kind mode)) :
    s'.Nameless i ∧ p ∈ preImages entries := by
  have honly : ∀ q, s.lookup q = some i → q = p := fun q hq =>
    hnames q p i hq (hdoes.unlinkOf hev hkind).lookup
  cases hdoes with
  | rename habs hi hfree hparent hout hev' =>
    rw [mem_singleton.mp hev, hev'] at hkind
    cases hkind
  | replace hi hreg hij hpre hlost hev₂ =>
    rename_i i₁ j src dst ev₁ ev₂ lost
    obtain ⟨_, _, hkind₁, hsrc, -⟩ := hpre.recorded
    obtain ⟨hout, hnot⟩ := hwf.incomparable hi hreg hpre.lookup hpre.regular hij
    -- the lost name is that of the replaced file
    have hlostName : i = j ∧ p = dst := by
      rcases mem_append.mp hev with hev | hev
      · rcases mem_cons.mp hev with rfl | hev
        · rw [hkind₁] at hkind
          cases hkind
        rcases hlost with rfl | ⟨ev', rfl, hunlink⟩
        · cases hev
        · obtain ⟨_, hkind', -⟩ := hunlink.recorded
          rw [mem_singleton.mp hev, hkind'] at hkind
          cases hkind
          exact ⟨rfl, rfl⟩
      · rw [mem_singleton.mp hev, hev₂] at hkind
        cases hkind
    obtain ⟨rfl, rfl⟩ := hlostName
    refine ⟨fun q hq => ?_, mem_preImages.mpr ⟨ev₁, by simp, _, _, _, _, _, hkind₁, hsrc⟩⟩
    rw [lookup_move hout hnot] at hq
    by_cases hd : p <+: q
    · obtain ⟨t, rfl⟩ := hd
      rw [move_append] at hq
      exact hout ⟨t, honly _ hq⟩
    by_cases hs : src <+: q
    · rw [move_src _ hd hs] at hq
      cases hq
    · rw [move_of_outside _ hd hs] at hq
      exact hd (honly q hq ▸ prefix_refl _)
  | removeFile hpre hunlink =>
    rename_i i' p' ev₁ ev₂
    obtain ⟨_, _, hkind₁, hsrc, -⟩ := hpre.recorded
    obtain ⟨_, hkind₂, -⟩ := hunlink.recorded
    rcases mem_pair.mp hev with rfl | rfl
    · rw [hkind₁] at hkind
      cases hkind
    rw [hkind₂] at hkind
    cases hkind
    refine ⟨fun q hq => ?_, mem_preImages.mpr ⟨ev₁, by simp, _, _, _, _, _, hkind₁, hsrc⟩⟩
    rw [lookup_erase] at hq
    by_cases hqp : q = p
    · rw [hqp, update_self] at hq
      cases hq
    · rw [update_of_ne hqp] at hq
      exact hqp (honly q hq)
  | _ => rcases hact with hact | hact | hact <;> cases hact

/-! ## What the journal says -/

/-- What is kept along such a command. -/
structure MovesInvariant (s : Fs) : Prop where
  wellFormed : s.WellFormed
  names : s.SingleNamed

theorem MovesInvariant.step (hs : MovesInvariant s) (hact : act.MovesOrRemoves)
    (hdoes : Does h act s entries s') : MovesInvariant s' :=
  ⟨hdoes.wellFormed hs.wellFormed, singleNamed_of_moves hact hs.wellFormed hs.names hdoes⟩

theorem never_unlinked (hs : MovesInvariant s) (hno : s.Nameless i)
    (hrun : Runs (CommandStep h Act.MovesOrRemoves) s log s') :
    ∀ ev ∈ log, ∀ p kind mode, ev.kind ≠ .treeOp (.unlink i p kind mode) := by
  refine hrun.forall_of_step (fun s => MovesInvariant s ∧ s.Nameless i) ⟨hs, hno⟩ ?_ ?_
  · rintro s₀ entries s₁ ⟨hs₀, hno₀⟩ ⟨act, hact, hdoes⟩
    exact ⟨hs₀.step hact hdoes, nameless_of_moves hact hs₀.wellFormed hno₀ hdoes⟩
  · rintro s₀ entries s₁ ⟨hs₀, hno₀⟩ ⟨act, hact, hdoes⟩ ev hev p kind mode hkind
    exact hno₀ p (hdoes.unlinkOf hev hkind).lookup

theorem unlinked_once (hs : MovesInvariant s)
    (hrun : Runs (CommandStep h Act.MovesOrRemoves) s log s') {ev₁ ev₂ : CaptureEvent}
    {p q : PathBuf} {k₁ k₂ : FileKind} {m₁ m₂ : Nat} (hev₁ : ev₁ ∈ log) (hev₂ : ev₂ ∈ log)
    (hkind₁ : ev₁.kind = .treeOp (.unlink i p k₁ m₁))
    (hkind₂ : ev₂.kind = .treeOp (.unlink i q k₂ m₂)) : p = q := by
  induction hrun with
  | nil s => cases hev₁
  | cons hstep hrest ih =>
    obtain ⟨act, hact, hdoes⟩ := hstep
    have hs₁ := hs.step hact hdoes
    rename_i s₀ s₁ s₂ entries log
    have hfirst : ∀ {ev : CaptureEvent} {p k m}, ev ∈ entries →
        ev.kind = .treeOp (.unlink i p k m) → s₀.lookup p = some i ∧ s₁.Nameless i := by
      intro ev p k m hev hkind
      exact ⟨(hdoes.unlinkOf hev hkind).lookup,
        (unlinked_of_moves hact hs.wellFormed hs.names hdoes hev hkind).1⟩
    -- after the step that unlinks `i`, no other can
    rcases mem_append.mp hev₁ with hev₁ | hev₁ <;> rcases mem_append.mp hev₂ with hev₂ | hev₂
    · exact hs.names _ _ _ (hfirst hev₁ hkind₁).1 (hfirst hev₂ hkind₂).1
    · exact absurd hkind₂ (never_unlinked hs₁ (hfirst hev₁ hkind₁).2 hrest _ hev₂ _ _ _)
    · exact absurd hkind₁ (never_unlinked hs₁ (hfirst hev₂ hkind₂).2 hrest _ hev₁ _ _ _)
    · exact ih hs₁ hev₁ hev₂

/-! ## The classification -/

section Classification

variable (hwf : fs.WellFormed) (hnames : fs.SingleNamed)
  (hj : FaithfulJournal h Act.MovesOrRemoves fs events fs') {p : PathBuf}

include hj

theorem not_created_of_moves (p : PathBuf) : p ∉ creates (liveEvents events) := by
  intro hp
  obtain ⟨ev, hev, i, kind, mode, hkind⟩ := mem_creates.mp hp
  obtain ⟨s₀, entries, s₁, ⟨act, hact, hdoes⟩, hmem⟩ :=
    hj.steps.step_of_mem (hj.mem_liveEvents.mp hev)
  rw [hdoes.act_eq_create hmem hkind] at hact
  rcases hact with hact | hact | hact <;> cases hact

include hwf hnames

theorem singleUnlinks_of_moves : SingleUnlinks (liveEvents events) := by
  intro i p q hp hq
  obtain ⟨ev₁, hev₁, _, _, hkind₁, -⟩ := mem_unlinkedInodes.mp hp
  obtain ⟨ev₂, hev₂, _, _, hkind₂, -⟩ := mem_unlinkedInodes.mp hq
  exact unlinked_once ⟨hwf, hnames⟩ hj.steps (hj.mem_liveEvents.mp hev₁)
    (hj.mem_liveEvents.mp hev₂) hkind₁ hkind₂

theorem preImage_of_unlinked (hp : p ∈ unlinks (liveEvents events)) :
    p ∈ preImages (liveEvents events) := by
  obtain ⟨ev, hev, i, kind, mode, hkind⟩ := mem_unlinks.mp hp
  have hsteps := hj.keeping MovesInvariant ⟨hwf, hnames⟩ fun _ _ _ _ hact hs hdoes =>
    hs.step hact hdoes
  obtain ⟨s₀, entries, s₁, ⟨hs₀, -, hall, act, hact, hdoes⟩, hmem⟩ :=
    hsteps.step_of_mem (hj.mem_liveEvents.mp hev)
  obtain ⟨-, hpre⟩ := unlinked_of_moves hact hs₀.wellFormed hs₀.names hdoes hmem hkind
  obtain ⟨ev', hev', hrest⟩ := mem_preImages.mp hpre
  exact mem_preImages.mpr ⟨ev', hj.mem_liveEvents.mpr (hall ev' hev'), hrest⟩

variable (hclear : DestinationsClear (liveEvents events) fs')

include hclear

theorem not_destination_of_unlinked (hp : p ∈ unlinks (liveEvents events)) :
    p ∉ renameDestinations (liveEvents events) :=
  fun hdst => (hclear p hdst (preImage_of_unlinked hwf hnames hj hp)).1 hp

theorem not_transient_of_clear (p : PathBuf) :
    p ∉ (classify order events (fs'.probe h)).transientPaths := by
  intro hp
  rcases mem_transientPaths.mp hp with ⟨hcreated | hdst, hunlinked, -⟩ | ⟨hcreated, -⟩
  · exact not_created_of_moves hj p hcreated
  · exact not_destination_of_unlinked hwf hnames hj hclear hunlinked hdst
  · exact not_created_of_moves hj p hcreated

omit hwf hnames hj in
theorem not_atomic_of_destination {dst : PathBuf}
    (hdst : dst ∈ renameDestinations (liveEvents events)) :
    dst ∉ (classify order events (fs'.probe h)).atomicReplacePaths := by
  intro hatomic
  obtain ⟨hpre, hway⟩ := mem_atomicReplacePaths.mp hatomic
  obtain ⟨hkept, hgone⟩ := hclear dst hdst hpre
  rcases hway with ⟨-, hunlinked, -⟩ | ⟨-, -, hexists⟩ | ⟨hunlinked, -⟩
  · exact hkept hunlinked
  · exact hexists (probe_stat_eq_none_iff.mpr (kindAt_eq_none_iff.mp hgone))
  · exact hkept hunlinked

/-- A deletion counts as an atomic replacement, so the pre-image alone brings the file back. -/
theorem atomic_of_unlinked (hp : p ∈ unlinks (liveEvents events)) :
    p ∈ (classify order events (fs'.probe h)).atomicReplacePaths := by
  refine mem_atomicReplacePaths.mpr ⟨preImage_of_unlinked hwf hnames hj hp, .inr (.inr ⟨hp, ?_,
    (singleUnlinks_of_moves hwf hnames hj).isHardlinkDead p⟩)⟩
  rintro (hcreated | hdst)
  · exact not_created_of_moves hj p hcreated
  · exact not_destination_of_unlinked hwf hnames hj hclear hp hdst

end Classification

/-! ## Undoing one step -/

theorem undone_move (hok : ok .applied) (hp : h.Permissive) (hwf : s.WellFormed)
    (habs : AbsolutePath dst) (hi : s.lookup src = some i) (hfree : s.kindAt dst = none)
    (hout : ¬ src <+: dst) :
    Undone (RunsThrough (fileRuntime h) ok) (fun u s => u.visible = s.visible)
      [.fresh (.rename dst src) none] s { s with entries := s.entries.move src dst } := by
  intro u hu
  have hnot := hwf.not_isPrefix_of_free habs hfree (kindAt_ne_none hi)
  have hkinds : u.kindAt = move src dst s.kindAt := by
    rw [← kindAt_move hout hnot]
    exact funext fun q => kindAt_eq_of_visible_eq (congrFun hu q)
  refine ⟨_, through_moveBack hp hok hwf habs hi hout hnot hkinds, ?_⟩
  have hempty : ∀ q, dst <+: q → s.visible q = none := by
    intro q hq
    rw [visible, kindAt_eq_none_iff.mp (hwf.none_below habs hfree hq), map_none]
  show visible _ = s.visible
  rw [visible_move hnot hout, hu, visible_move hout hnot, move_move hempty]

theorem undone_replace (hok : ok .applied) (hp : h.Permissive) (hwf : s.WellFormed) {j : InodeRef}
    {fileMeta : FileMetadata} {c : Option Conflict} (hc : c.any Conflict.isHard = false)
    (hi : s.lookup src = some i) (hreg : (s.inode i).kind = .regular) (hij : i ≠ j)
    (hpre : PreImageOf h s j dst none ev) (hmeta : (s.inode j).CapturedAs fileMeta) :
    Undone (RunsThrough (fileRuntime h) ok) (fun u s => u.visible = s.visible)
      ([.fresh (.rename dst src) none] ++
        [.fresh (.restoreContent j dst (h.blake3 (s.inode j).content)) c,
          .fresh (.restoreMetadata j dst fileMeta) c])
      s { s with entries := s.entries.move src dst } := by
  intro u hu
  obtain ⟨habs, -, -, hbelow⟩ := hwf.of_regular hpre.lookup hpre.regular
  obtain ⟨hout, hnot⟩ := hwf.incomparable hi hreg hpre.lookup hpre.regular hij
  have hkinds : u.kindAt = move src dst s.kindAt := by
    rw [← kindAt_move hout hnot]
    exact funext fun q => kindAt_eq_of_visible_eq (congrFun hu q)
  have hback := through_moveBack hp hok hwf habs hi hout hnot hkinds
  -- after the rename back only the replaced file is missing
  have hview : visible { u with entries := u.entries.move dst src } =
      move dst src (move src dst s.visible) := by
    rw [visible_move hnot hout, hu, visible_move hout hnot]
  have hagree : ∀ q, q ≠ dst →
      visible { u with entries := u.entries.move dst src } q = s.visible q := by
    intro q hq
    rw [hview]
    by_cases hs : src <+: q
    · obtain ⟨t, rfl⟩ := hs
      rw [move_append, move_append]
    · by_cases hd : dst <+: q
      · rw [move_src _ hs hd, visible, kindAt_eq_none_iff.mp (hbelow q hd hq), map_none]
      · rw [move_of_outside _ hs hd, move_of_outside _ hd hs]
  have hfile : ¬ Fs.IsDir { u with entries := u.entries.move dst src } dst := by
    refine not_isDir_of_free ?_
    rw [kindAt_eq_visible, hview, move_src _ hout (prefix_refl dst), map_none]
  obtain ⟨u', hrun, hu'⟩ := through_preImage hp hok hc hwf hagree hpre hmeta hfile
  exact ⟨u', hback.append hrun, hu'⟩

theorem undone_moves (hp : h.Permissive) (hwf : fs.WellFormed) (hnames : fs.SingleNamed)
    (hj : FaithfulJournal h Act.MovesOrRemoves fs events fs')
    (hclear : DestinationsClear (liveEvents events) fs') (hs : s.WellFormed)
    (hact : act.MovesOrRemoves) (hdoes : Does h act s entries s')
    (hmem : ∀ ev ∈ entries, ev ∈ events) :
    Undone (RunsThrough (fileRuntime h) OutcomeKind.IsApplied) (fun u s => u.visible = s.visible)
      (entries.reverse.flatMap fun ev => (emitUnlessSkipped r (fs'.probe h) store
        (classify order events (fs'.probe h)) ev).nodes) s s' := by
  have hna : NoAliases (classify order events (fs'.probe h)) :=
    (singleUnlinks_of_moves hwf hnames hj).noAliases
  have htrans : ∀ p, p ∉ (classify order events (fs'.probe h)).transientPaths :=
    not_transient_of_clear hwf hnames hj hclear
  have hdst : ∀ {ev src dst i}, ev ∈ entries → ev.kind = .treeOp (.rename src dst i) →
      dst ∈ renameDestinations (liveEvents events) := fun hev hkind =>
    mem_renameDestinations.mpr ⟨_, hj.mem_liveEvents.mpr (hmem _ hev), _, _, hkind⟩
  have hunlinked : ∀ {ev i p kind mode}, ev ∈ entries →
      ev.kind = .treeOp (.unlink i p kind mode) → p ∈ unlinks (liveEvents events) :=
    fun hev hkind => mem_unlinks.mpr ⟨_, hj.mem_liveEvents.mpr (hmem _ hev), _, _, _, hkind⟩
  cases hdoes with
  | rename habs hi hfree hparent hout hkind =>
    have hd := hdst (mem_singleton_self _) hkind
    rw [reverse_singleton, flatMap_singleton,
      emit_rename hkind (not_atomic_of_destination hclear hd)]
    exact undone_move isApplied hp hs habs hi hfree hout
  | replace hi hreg hij hpre hlost hkind =>
    rename_i lost
    obtain ⟨fileMeta, source, hkind₁, hsrc, hmeta⟩ := hpre.recorded
    have hd := hdst (by simp) hkind
    -- the old name is not recorded as unlinked, or the rename would have lost its inverse
    have hlost : lost = [] := by
      rcases hlost with hlost | ⟨ev', rfl, hunlink⟩
      · exact hlost
      · obtain ⟨_, hkind', -⟩ := hunlink.recorded
        have hu := hunlinked (by simp) hkind'
        exact absurd hd (not_destination_of_unlinked hwf hnames hj hclear hu)
    rw [hlost, cons_append, nil_append, flatMap_reverse_pair,
      emit_rename hkind (not_atomic_of_destination hclear hd),
      emit_preImage hna hkind₁ hsrc (htrans _)]
    exact undone_replace isApplied hp hs (preImageConflict_of_no_post ..) hi hreg hij
      hpre hmeta
  | removeFile hpre hunlink =>
    obtain ⟨fileMeta, source, hkind, hsrc, hmeta⟩ := hpre.recorded
    obtain ⟨mode, hkind', -⟩ := hunlink.recorded
    have hatomic : _ ∈ (classify order events (fs'.probe h)).atomicReplacePaths :=
      atomic_of_unlinked hwf hnames hj hclear (hunlinked (by simp) hkind')
    rw [flatMap_reverse_pair, emit_unlink_of_atomic hkind' hatomic, nil_append,
      emit_preImage hna hkind hsrc (htrans _)]
    intro u hu
    obtain ⟨hagree, hgone⟩ := visible_of_erased hu
    exact through_preImage hp isApplied (preImageConflict_of_no_post ..) hs hagree hpre
      hmeta (not_isDir_of_free hgone)
  | _ => rcases hact with hact | hact | hact <;> cases hact

/-- **Overwriting renames are undone exactly** when no destination of a rename has a pre-image,
apart from those that were only moved on. -/
theorem overwriting_rename_round_trip (hp : h.Permissive) (hwf : fs.WellFormed)
    (hnames : fs.SingleNamed) (hj : FaithfulJournal h Act.MovesOrRemoves fs events fs')
    (href : command.refusal = none) (hclear : DestinationsClear (liveEvents events) fs') :
    (∀ rec ∈ (undo h r order command events store fs').1.records, rec.outcomeKind = .applied) ∧
      (undo h r order command events store fs').2.visible = fs.visible ∧
      ContentsRestored fs (undo h r order command events store fs').2 := by
  have hsteps := hj.keeping Fs.WellFormed hwf fun _ _ _ _ _ hs hdoes => hdoes.wellFormed hs
  obtain ⟨hrecs, hview⟩ := hj.undone hsteps OutcomeKind.IsApplied
    (fun u s => u.visible = s.visible) href rfl fun s entries s' ⟨hs, _, hmem, act, hact, hdoes⟩ =>
      undone_moves hp hwf hnames hj hclear hs hact hdoes hmem
  refine ⟨hrecs, hview, fun p bytes hfile => ?_⟩
  rw [← hfile]
  exact fileAt_of_visible_eq (congrFun hview p)

section Clobbered

/-- A directory with three files. -/
def threeFiles : Fs := ofList [("/a", .file [1]), ("/b", .file [2]), ("/d", .file [3])]

theorem threeFiles_wellFormed : threeFiles.WellFormed := wellFormed_of_check (by decide)

theorem threeFiles_singleNamed : threeFiles.SingleNamed := singleNamed_of_nodup (by decide)

/-- `mv /a /b`, over `/b`. -/
def moveOver : List CaptureEventKind :=
  [.filePreImage ⟨1, 3⟩ (ofString "/b") (sampleHash [2]) ((Inode.file [2]).stat .linux) none .other,
    .treeOp (.rename (ofString "/a") (ofString "/b") ⟨1, 2⟩)]

/-- The tree after it. -/
def movedOver : Fs :=
  { threeFiles with
    entries := threeFiles.entries.move (ofString "/a") (ofString "/b") }

/-- `mv /a /b; mv /b /c; rm /d`. -/
def moveOn : List CaptureEventKind :=
  moveOver ++ [.treeOp (.rename (ofString "/b") (ofString "/c") ⟨1, 2⟩),
    .filePreImage ⟨1, 4⟩ (ofString "/d") (sampleHash [3]) ((Inode.file [3]).stat .linux)
      none .other,
    .treeOp (.unlink ⟨1, 4⟩ (ofString "/d") .regular 0o100644)]

/-- The tree after the second rename. -/
def movedOn : Fs :=
  { movedOver with
    entries := movedOver.entries.move (ofString "/b") (ofString "/c") }

/-- The tree after the deletion. -/
def movedOnRemoved : Fs :=
  { movedOn with entries := movedOn.entries.erase (ofString "/d") }

theorem moveOver_faithful :
    FaithfulJournal .sample Act.MovesOrRemoves threeFiles (journalOf moveOver) movedOver where
  steps := by
    have hmove : CommandStep .sample Act.MovesOrRemoves threeFiles (journalOf moveOver) movedOver :=
      ⟨_, .inr (.inl rfl), .replace (by decide) (by decide) (by decide) ⟨by decide, by decide,
        ⟨_, _, rfl, by decide, by decide, rfl, rfl, rfl, rfl⟩, rfl⟩ (.inl rfl) rfl⟩
    exact Runs.cons hmove (Runs.nil _)
  complete := by decide
  ordered := by decide

theorem moveOn_faithful :
    FaithfulJournal .sample Act.MovesOrRemoves threeFiles (journalOf moveOn) movedOnRemoved where
  steps := by
    have hmove : CommandStep .sample Act.MovesOrRemoves threeFiles
        [(journalOf moveOn)[0], (journalOf moveOn)[1]] movedOver :=
      ⟨_, .inr (.inl rfl), .replace (by decide) (by decide) (by decide) ⟨by decide, by decide,
        ⟨_, _, rfl, by decide, by decide, rfl, rfl, rfl, rfl⟩, rfl⟩ (.inl rfl) rfl⟩
    have hon : CommandStep .sample Act.MovesOrRemoves movedOver [(journalOf moveOn)[2]] movedOn :=
      ⟨_, .inl rfl, .rename (AbsolutePath.of_check (by decide)) (by decide) (by decide)
        (by decide) (by decide) rfl⟩
    have hremove : CommandStep .sample Act.MovesOrRemoves movedOn
        [(journalOf moveOn)[3], (journalOf moveOn)[4]] movedOnRemoved :=
      ⟨_, .inr (.inr rfl), .removeFile ⟨by decide, by decide,
        ⟨_, _, rfl, by decide, by decide, rfl, rfl, rfl, rfl⟩, rfl⟩ ⟨by decide, _, rfl, by decide⟩⟩
    exact Runs.cons hmove (Runs.cons hon (Runs.cons hremove (Runs.nil _)))
  complete := by decide
  ordered := by decide

/-- The replaced file and the moved one both come back when the latter was moved on. -/
theorem overwriting_rename_round_trip_moved_on :
    (undo .sample .silent .insertion plainCommand (journalOf moveOn) fullStore
      movedOnRemoved).2.visible = threeFiles.visible := by
  have hclear : DestinationsClear (liveEvents (journalOf moveOn)) movedOnRemoved := by decide
  exact (overwriting_rename_round_trip Host.sample_permissive threeFiles_wellFormed
    threeFiles_singleNamed moveOn_faithful rfl hclear).2.1

/-- `mv /a /b` over `/b`: undo restores `/b` and leaves no `/a`. -/
theorem mv_over_loses_source :
    threeFiles.WellFormed ∧ threeFiles.SingleNamed ∧
      FaithfulJournal .sample Act.MovesOrRemoves threeFiles (journalOf moveOver) movedOver ∧
      threeFiles.fileAt (ofString "/a") = some [1] ∧
      (undo .sample .silent .insertion plainCommand (journalOf moveOver) fullStore
        movedOver).2.fileAt (ofString "/a") = none :=
  ⟨threeFiles_wellFormed, threeFiles_singleNamed, moveOver_faithful, by decide, by decide⟩

end Clobbered

end ShitUndo
