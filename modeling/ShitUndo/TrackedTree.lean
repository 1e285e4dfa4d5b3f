import Mathlib.Data.List.Induction
import ShitUndo.Events
import ShitUndo.Lib.AncestorWalk

/-!
# Which watched tree an event belongs to

The helper is told by the daemon which process trees to watch (`fanotify/tree.rs`). For an event it
asks for the command of the process: is the process the root of a watched tree, is its parent, or
does the walk up `/proc` meet a root. The answer is kept per pid until the next `watch` or
`unwatch`.

* `TreeAction`, `TreeWorld.step`: the calls, with the processes that come and go between them;
* `TreeLog`: the history without the answers.
-/

namespace ShitUndo

open AncestorWalk List Option Prod

/-! ## The map of trees -/

/-- The watched trees with their root pids. A new one is put at the end. -/
abbrev Trees := List (CommandId × Int)

/-- The order in which the `HashMap` of trees is iterated: some order of its entries. -/
structure TreeOrder where
  arrange : Trees → Trees
  arrange_perm : ∀ trees, (arrange trees).Perm trees

/-- The order of the calls, one of the possible ones. -/
def TreeOrder.insertion : TreeOrder where
  arrange := id
  arrange_perm := fun _ => List.Perm.refl _

instance : Nonempty TreeOrder := ⟨.insertion⟩

/-- `TreeMap`. `pidCache` has what `is_tracked` has answered since it was cleared. -/
structure TreeMap where
  trees : Trees
  pidCache : Int → Option (Option CommandId)

/-- The trees without the one of a command. -/
def Trees.without (trees : Trees) (command : CommandId) : Trees :=
  trees.filter fun t => t.1 ≠ command

/-- The trees with a new one, in the place of another one of the same command. -/
def Trees.watch (trees : Trees) (command : CommandId) (rootPid : Int) : Trees :=
  trees.without command ++ [(command, rootPid)]

/-- The loop over `trees` for one with the root pid. -/
def Trees.rootedAt (trees : Trees) (order : TreeOrder) (pid : Int) : Option CommandId :=
  ((order.arrange trees).find? fun t => t.2 = pid).map fst

namespace TreeMap

def new : TreeMap := ⟨[], fun _ => none⟩

/-- `watch`: the cache is cleared, descendants of the new root may be in it as untracked. -/
def watch (m : TreeMap) (command : CommandId) (rootPid : Int) : TreeMap :=
  ⟨m.trees.watch command rootPid, fun _ => none⟩

def unwatch (m : TreeMap) (command : CommandId) : TreeMap :=
  ⟨m.trees.without command, fun _ => none⟩

/-- `pid_cache.insert`. -/
def remember (m : TreeMap) (pid : Int) (resolved : Option CommandId) : TreeMap :=
  { m with pidCache := fun p => if p = pid then some resolved else m.pidCache p }

end TreeMap

def maxDepth : Nat := 64

/-- Where the walk up `/proc` ends. -/
def isInitPid (pid : Int) : Bool := pid = 0 || pid = 1

/-- The loop of `resolve`. -/
def resolveLoop (rootedAt : Int → Option CommandId) (parentPid : Int → Option Int) :
    Nat → Int → Option CommandId
  | 0, _ => none
  | fuel + 1, current =>
    match rootedAt current with
    | some command => some command
    | none =>
      match parentPid current with
      | none => none
      | some ppid => if isInitPid ppid then none else resolveLoop rootedAt parentPid fuel ppid

namespace TreeMap

/-- `resolve`: up the parents that `/proc` shows. -/
def resolve (m : TreeMap) (order : TreeOrder) (parentPid : Int → Option Int) (pid : Int) :
    Option CommandId :=
  resolveLoop (m.trees.rootedAt order) parentPid maxDepth pid

/-- `is_tracked_with_parent`: the process itself, the parent it had at the time of the event, and
then the walk. -/
def isTrackedWithParent (m : TreeMap) (order : TreeOrder) (parentPid : Int → Option Int)
    (pid parent : Int) : Option CommandId × TreeMap :=
  match m.pidCache pid with
  | some cached => (cached, m)
  | none =>
    match m.trees.rootedAt order pid with
    | some command => (some command, m.remember pid (some command))
    | none =>
      match if 0 < parent then m.trees.rootedAt order parent else none with
      | some command => (some command, m.remember pid (some command))
      | none => (m.resolve order parentPid pid, m.remember pid (m.resolve order parentPid pid))

end TreeMap

/-! ## Calls and processes -/

/-- A call, or a change of the processes. When a process exits, its children go to a reaper. -/
inductive TreeAction where
  | watch (command : CommandId) (rootPid : Int)
  | unwatch (command : CommandId)
  | fork (parent child : Int)
  | exit (pid reaper : Int)
  | event (pid parent : Int)
deriving DecidableEq, Repr

/-- The parents after a fork. -/
def forked (parentPid : Int → Option Int) (parent child : Int) : Int → Option Int :=
  fun pid => if pid = child then some parent else parentPid pid

/-- The parents after an exit. -/
def exited (parentPid : Int → Option Int) (gone reaper : Int) : Int → Option Int :=
  fun pid =>
    if pid = gone then none
    else (parentPid pid).map fun parent => if parent = gone then reaper else parent

/-- The parents that `/proc` shows, and the map of the helper. -/
structure TreeWorld where
  parentPid : Int → Option Int
  map : TreeMap

def TreeWorld.step (order : TreeOrder) (w : TreeWorld) : TreeAction → TreeWorld
  | .watch command rootPid => { w with map := w.map.watch command rootPid }
  | .unwatch command => { w with map := w.map.unwatch command }
  | .fork parent child => { w with parentPid := forked w.parentPid parent child }
  | .exit pid reaper => { w with parentPid := exited w.parentPid pid reaper }
  | .event pid parent =>
    { w with map := (w.map.isTrackedWithParent order w.parentPid pid parent).2 }

/-- A new helper on a machine, after a history. -/
def TreeWorld.after (order : TreeOrder) (parentPid : Int → Option Int) (acts : List TreeAction) :
    TreeWorld :=
  acts.foldl (TreeWorld.step order) ⟨parentPid, TreeMap.new⟩

/-- The answer to an event after a history. -/
def attributed (order : TreeOrder) (parentPid : Int → Option Int) (acts : List TreeAction)
    (pid parent : Int) : Option CommandId :=
  let w := TreeWorld.after order parentPid acts
  (w.map.isTrackedWithParent order w.parentPid pid parent).1

/-! ## The history without the answers -/

/-- The pids that are looked at for an event, one after the other. -/
def lookedAt (parentPid : Int → Option Int) (pid parent : Int) : List Int :=
  pid :: ((if 0 < parent then [parent] else []) ++ climb parentPid isInitPid maxDepth pid)

/-- What matters of a history: the parents, the watched trees in the order in which they were
watched, and what was looked at for each pid when it was first asked about since they changed. -/
structure TreeLog where
  parentPid : Int → Option Int
  watched : Trees
  looked : Int → Option (List Int)

namespace TreeLog

/-- The pids an answer for the event comes from. -/
def pidsSeen (log : TreeLog) (pid parent : Int) : List Int :=
  (log.looked pid).getD (lookedAt log.parentPid pid parent)

def step (log : TreeLog) : TreeAction → TreeLog
  | .watch command rootPid =>
    { log with watched := log.watched.watch command rootPid, looked := fun _ => none }
  | .unwatch command =>
    { log with watched := log.watched.without command, looked := fun _ => none }
  | .fork parent child => { log with parentPid := forked log.parentPid parent child }
  | .exit pid reaper => { log with parentPid := exited log.parentPid pid reaper }
  | .event pid parent =>
    { log with
      looked := fun p => if p = pid then some (log.pidsSeen pid parent) else log.looked p }

def after (parentPid : Int → Option Int) (acts : List TreeAction) : TreeLog :=
  acts.foldl step ⟨parentPid, [], fun _ => none⟩

/-- The world a log stands for. -/
def world (log : TreeLog) (order : TreeOrder) : TreeWorld where
  parentPid := log.parentPid
  map :=
    { trees := log.watched
      pidCache := fun pid =>
        (log.looked pid).map fun pids => pids.findSome? (log.watched.rootedAt order) }

end TreeLog

/-! ## The answer -/

variable {order : TreeOrder} {parentPid : Int → Option Int} {m : TreeMap} {pid parent : Int}
  {trees : Trees}

theorem resolveLoop_eq (rootedAt : Int → Option CommandId) (fuel : Nat) (pid : Int) :
    resolveLoop rootedAt parentPid fuel pid =
      (climb parentPid isInitPid fuel pid).findSome? rootedAt := by
  induction fuel generalizing pid with
  | zero => rfl
  | succ fuel ih =>
    rw [resolveLoop, climb, findSome?_cons]
    cases rootedAt pid with
    | some command => rfl
    | none =>
      cases parentPid pid with
      | none => rfl
      | some ppid =>
        by_cases hinit : isInitPid ppid = true
        · simp [hinit]
        · simp [hinit, ih]

theorem isTrackedWithParent_of_cached {cached : Option CommandId}
    (hcached : m.pidCache pid = some cached) :
    m.isTrackedWithParent order parentPid pid parent = (cached, m) := by
  rw [TreeMap.isTrackedWithParent, hcached]

theorem isTrackedWithParent_of_fresh (hfresh : m.pidCache pid = none) :
    m.isTrackedWithParent order parentPid pid parent =
      let found := (lookedAt parentPid pid parent).findSome? (m.trees.rootedAt order)
      (found, m.remember pid found) := by
  rw [TreeMap.isTrackedWithParent, hfresh, lookedAt, findSome?_cons]
  cases m.trees.rootedAt order pid with
  | some command => rfl
  | none =>
    rw [findSome?_append, TreeMap.resolve, resolveLoop_eq]
    by_cases hparent : 0 < parent
    · simp only [if_pos hparent, findSome?_singleton]
      cases m.trees.rootedAt order parent with
      | some command => rfl
      | none => rfl
    · simp only [if_neg hparent, findSome?_nil, none_or]

namespace TreeLog

variable {log : TreeLog}

theorem isTracked_world (log : TreeLog) (order : TreeOrder) (pid parent : Int) :
    (log.world order).map.isTrackedWithParent order log.parentPid pid parent =
      ((log.pidsSeen pid parent).findSome? (log.watched.rootedAt order),
        ((log.step (.event pid parent)).world order).map) := by
  unfold step pidsSeen
  cases hlooked : log.looked pid with
  | some pids =>
    rw [isTrackedWithParent_of_cached (by simp only [world, hlooked, map_some]; rfl)]
    simp only [world, getD_some, Prod.mk.injEq, TreeMap.mk.injEq, true_and]
    funext p
    by_cases hp : p = pid
    · rw [if_pos hp, hp, hlooked, getD_some]
    · rw [if_neg hp]
  | none =>
    rw [isTrackedWithParent_of_fresh (by simp only [world, hlooked, map_none])]
    simp only [world, getD_none, TreeMap.remember, Prod.mk.injEq, TreeMap.mk.injEq, true_and]
    funext p
    by_cases hp : p = pid
    · rw [if_pos hp, if_pos hp, map_some, hlooked, getD_none]
    · rw [if_neg hp, if_neg hp]

theorem world_step (order : TreeOrder) (log : TreeLog) (act : TreeAction) :
    (log.world order).step order act = (log.step act).world order := by
  cases act with
  | watch command rootPid => rfl
  | unwatch command => rfl
  | fork parent child => rfl
  | exit pid reaper => rfl
  | event pid parent =>
    exact congrArg (fun r => TreeWorld.mk log.parentPid r.2) (log.isTracked_world order pid parent)

theorem after_world (order : TreeOrder) (parentPid : Int → Option Int) (acts : List TreeAction) :
    TreeWorld.after order parentPid acts = (TreeLog.after parentPid acts).world order := by
  have hnew : (⟨parentPid, TreeMap.new⟩ : TreeWorld) =
      (⟨parentPid, [], fun _ => none⟩ : TreeLog).world order := rfl
  unfold TreeWorld.after TreeLog.after
  rw [hnew]
  exact foldl_hom (TreeLog.world · order) (world_step order)

theorem attributed_eq (order : TreeOrder) (parentPid : Int → Option Int) (acts : List TreeAction)
    (pid parent : Int) :
    attributed order parentPid acts pid parent =
      ((TreeLog.after parentPid acts).pidsSeen pid parent).findSome?
        ((TreeLog.after parentPid acts).watched.rootedAt order) := by
  unfold attributed
  rw [after_world]
  exact congrArg fst (isTracked_world _ order pid parent)

theorem nodup_watched (parentPid : Int → Option Int) (acts : List TreeAction) :
    ((TreeLog.after parentPid acts).watched.map fst).Nodup := by
  unfold after
  induction acts using reverseRecOn with
  | nil => exact nodup_nil
  | append_singleton acts act ih =>
    rw [foldl_concat]
    generalize acts.foldl step ⟨parentPid, [], fun _ => none⟩ = log at ih ⊢
    have hwithout : ∀ command, ((log.watched.without command).map fst).Nodup := fun command =>
      ih.sublist (filter_sublist.map fst)
    cases act with
    | watch command rootPid =>
      rw [step, Trees.watch, map_append, map_singleton]
      refine nodup_append.mpr ⟨hwithout command, nodup_singleton _, ?_⟩
      intro c hc c' hc' heq
      rw [mem_singleton.mp hc'] at heq
      rcases mem_map.mp hc with ⟨t, ht, rfl⟩
      simpa [heq] using (mem_filter.mp ht).2
    | unwatch command => exact hwithout command
    | fork parent child => exact ih
    | exit pid reaper => exact ih
    | event pid parent => exact ih

end TreeLog

/-! ## The nearest root -/

namespace Trees

/-- A watched tree has this root. -/
def isRoot (trees : Trees) (pid : Int) : Bool := trees.any fun t => t.2 = pid

/-- The first root among the pids. -/
def nearestRoot (trees : Trees) (pids : List Int) : Option Int := pids.find? trees.isRoot

/-- The most recently watched command with this root. -/
def latestAt (trees : Trees) (pid : Int) : Option CommandId :=
  ((trees.filter fun t => t.2 = pid).getLast?).map fst

/-- The most recently watched command of the first root among the pids. -/
def nearestTree (trees : Trees) (pids : List Int) : Option CommandId :=
  pids.findSome? trees.latestAt

/-- All watched trees with this root are one. -/
def OneTreeAt (trees : Trees) (root : Int) : Prop :=
  ∀ t ∈ trees, ∀ t' ∈ trees, t.2 = root → t'.2 = root → t = t'

instance (trees : Trees) (root : Int) : Decidable (trees.OneTreeAt root) :=
  inferInstanceAs (Decidable (∀ t ∈ trees, ∀ t' ∈ trees, t.2 = root → t'.2 = root → t = t'))

theorem isSome_rootedAt (trees : Trees) (order : TreeOrder) (pid : Int) :
    (trees.rootedAt order pid).isSome = trees.isRoot pid := by
  rw [rootedAt, isSome_map, isSome_find?, isRoot]
  exact (order.arrange_perm trees).any_eq

theorem isSome_latestAt (trees : Trees) (pid : Int) :
    (trees.latestAt pid).isSome = trees.isRoot pid := by
  rw [Bool.eq_iff_iff, latestAt, isSome_map]
  simp [isRoot]

theorem mem_of_rootedAt {command : CommandId} (h : trees.rootedAt order pid = some command) :
    (command, pid) ∈ trees := by
  rcases map_eq_some_iff.mp h with ⟨t, ht, rfl⟩
  have hpid : t.2 = pid := by simpa using find?_some ht
  exact hpid ▸ (order.arrange_perm trees).mem_iff.mp (mem_of_find?_eq_some ht)

theorem mem_of_latestAt {command : CommandId} (h : trees.latestAt pid = some command) :
    (command, pid) ∈ trees := by
  rcases map_eq_some_iff.mp h with ⟨t, ht, rfl⟩
  have hmem := mem_filter.mp (mem_of_getLast? ht)
  have hpid : t.2 = pid := by simpa using hmem.2
  exact hpid ▸ hmem.1

/-- An order that has one of the trees in front. -/
def firstIn (t : CommandId × Int) : TreeOrder where
  arrange := fun trees => trees.filter (· = t) ++ trees.filter (fun t' => !decide (t' = t))
  arrange_perm := fun _ => filter_append_perm _ _

theorem rootedAt_firstIn {t : CommandId × Int} (ht : t ∈ trees) :
    trees.rootedAt (firstIn t) t.2 = some t.1 := by
  have hfront : (trees.filter (· = t)).find? (fun t' => t'.2 = t.2) = some t := by
    have hmem : t ∈ trees.filter (· = t) := mem_filter.mpr ⟨ht, decide_eq_true rfl⟩
    have hall : ∀ t' ∈ trees.filter (· = t), t' = t := fun t' ht' =>
      of_decide_eq_true (mem_filter.mp ht').2
    cases hfilter : trees.filter (· = t) with
    | nil => simp [hfilter] at hmem
    | cons t' rest =>
      rw [hall t' (hfilter ▸ mem_cons_self), find?_cons_of_pos (by simp)]
  rw [rootedAt, firstIn, find?_append, hfront]
  rfl

/-- In every order the root leads to the latest tree of the other root, exactly when they are one
root, and the root of one tree only. -/
theorem rootedAt_eq_latestAt_iff (hkeys : (trees.map fst).Nodup) {root root' : Int}
    (hroot : trees.isRoot root) :
    (∀ order, trees.rootedAt order root = trees.latestAt root') ↔
      root = root' ∧ trees.OneTreeAt root := by
  have hkey : ∀ t ∈ trees, ∀ t' ∈ trees, t.1 = t'.1 → t = t' := fun t ht t' ht' heq =>
    inj_on_of_nodup_map hkeys ht ht' heq
  constructor
  · intro hall
    -- each tree with the root is the answer in some order
    have hanswer : ∀ t ∈ trees, t.2 = root → trees.latestAt root' = some t.1 := by
      intro t ht hpid
      rw [← hall (firstIn t), ← hpid]
      exact rootedAt_firstIn ht
    constructor
    · rcases any_eq_true.mp hroot with ⟨t, ht, hpid⟩
      have hpid : t.2 = root := of_decide_eq_true hpid
      have hmem := mem_of_latestAt (hanswer t ht hpid)
      rw [← hpid, hkey t ht _ hmem rfl]
    · intro t ht t' ht' hpid hpid'
      have hsame := (hanswer t ht hpid).symm.trans (hanswer t' ht' hpid')
      exact hkey t ht t' ht' (some.inj hsame)
  · rintro ⟨rfl, hone⟩ order
    have hsome := isSome_rootedAt trees order root
    have hsome' := isSome_latestAt trees root
    rw [hroot] at hsome hsome'
    rcases isSome_iff_exists.mp hsome with ⟨c, hc⟩
    rcases isSome_iff_exists.mp hsome' with ⟨c', hc'⟩
    have hsame := hone _ (mem_of_rootedAt hc) _ (mem_of_latestAt hc') rfl rfl
    rw [hc, hc', (mk.inj hsame).1]

/-- The tree of the first root of one list is the latest tree of the first root of the other one,
in every order. -/
theorem findSome?_rootedAt_eq_iff (hkeys : (trees.map fst).Nodup) (pids pids' : List Int) :
    (∀ order, pids.findSome? (trees.rootedAt order) = trees.nearestTree pids') ↔
      trees.nearestRoot pids = trees.nearestRoot pids' ∧
        ∀ root, trees.nearestRoot pids' = some root → trees.OneTreeAt root := by
  have hfound : ∀ order, pids.findSome? (trees.rootedAt order) =
      (trees.nearestRoot pids).bind (trees.rootedAt order) := fun order =>
    findSome?_eq_bind_find? (isSome_rootedAt trees order) pids
  have hnearest : trees.nearestTree pids' = (trees.nearestRoot pids').bind trees.latestAt :=
    findSome?_eq_bind_find? (isSome_latestAt trees) pids'
  simp only [hfound, hnearest]
  have hseen : ∀ root, trees.nearestRoot pids = some root → trees.isRoot root := fun root h =>
    find?_some h
  have hnow : ∀ root, trees.nearestRoot pids' = some root → trees.isRoot root := fun root h =>
    find?_some h
  cases hpids : trees.nearestRoot pids with
  | none =>
    cases hpids' : trees.nearestRoot pids' with
    | none => simp
    | some root' =>
      have hsome := isSome_latestAt trees root'
      rw [hnow root' hpids'] at hsome
      rcases isSome_iff_exists.mp hsome with ⟨c, hc⟩
      simp [hc]
  | some root =>
    have hroot := hseen root hpids
    cases hpids' : trees.nearestRoot pids' with
    | none =>
      have hsome := isSome_rootedAt trees .insertion root
      rw [hroot] at hsome
      rcases isSome_iff_exists.mp hsome with ⟨c, hc⟩
      simp only [bind_some, bind_none, reduceCtorEq, false_and, iff_false, not_forall]
      exact ⟨.insertion, by simp [hc]⟩
    | some root' =>
      simp only [bind_some, some.injEq, forall_eq']
      rw [rootedAt_eq_latestAt_iff hkeys hroot]
      constructor
      · rintro ⟨rfl, hone⟩
        exact ⟨rfl, hone⟩
      · rintro ⟨rfl, hone⟩
        exact ⟨rfl, hone⟩

end Trees

/-! ## Attribution after a history -/

/-- When the process and its ancestors are alive as the event is handled, the nearest root is found
if one of the pids that are looked at is a root at all. -/
theorem nearestRoot_lookedAt_iff (trees : Trees) {ancestors : List Int}
    (halive : parentPid pid = some parent) (hchain : Lineage parentPid parent ancestors) :
    trees.nearestRoot (lookedAt parentPid pid parent) = trees.nearestRoot (pid :: ancestors) ↔
      ((∃ p ∈ pid :: ancestors, trees.isRoot p) →
        ∃ p ∈ lookedAt parentPid pid parent, trees.isRoot p) := by
  have hclimb : climb parentPid isInitPid maxDepth pid <+: pid :: ancestors := by
    rw [(Lineage.step halive hchain).climb_eq isInitPid maxDepth]
    have htake := take_prefix maxDepth (lower isInitPid (pid :: ancestors))
    exact htake.trans lower_isPrefix
  unfold lookedAt Trees.nearestRoot
  by_cases hself : trees.isRoot pid = true
  · simp [hself]
  -- the walk starts at the process once more
  have hwalk := find?_iff_of_isPrefix trees.isRoot hclimb
  by_cases hparent : 0 < parent ∧ trees.isRoot parent = true
  · cases hchain with
    | last | step => simp [hself, hparent]
  have hskip : (if 0 < parent then [parent] else []).find? trees.isRoot = none := by
    split
    case isTrue hpos =>
      exact find?_eq_none.mpr fun p hp hroot =>
        hparent ⟨hpos, mem_singleton.mp hp ▸ hroot⟩
    case isFalse => rfl
  have hsame : (pid :: ((if 0 < parent then [parent] else []) ++
      climb parentPid isInitPid maxDepth pid)).find? trees.isRoot =
        (climb parentPid isInitPid maxDepth pid).find? trees.isRoot := by
    rw [find?_cons_of_neg hself, find?_append, hskip, none_or]
  rw [hsame, hwalk, ← find?_isSome, ← find?_isSome, ← find?_isSome, hsame]

/-- For every history and every order of the map, the answer is the most recently watched command
of the nearest root above the process, exactly when the nearest root among the pids that were looked
at when the pid was first asked about since the last `watch` or `unwatch` is the nearest root now,
and is the root of one watched tree only. For a pid that is asked about for the first time while its
process is alive, the former means that the walk gets as far as a root. -/
theorem attributes_nearest_iff (parentPid : Int → Option Int) (acts : List TreeAction)
    (pid parent : Int) (ancestors : List Int) (log : TreeLog)
    (hlog : log = TreeLog.after parentPid acts) (hchain : Lineage log.parentPid parent ancestors) :
    ((∀ order, attributed order parentPid acts pid parent =
        log.watched.nearestTree (pid :: ancestors)) ↔
      log.watched.nearestRoot (log.pidsSeen pid parent) =
          log.watched.nearestRoot (pid :: ancestors) ∧
        ∀ root, log.watched.nearestRoot (pid :: ancestors) = some root →
          log.watched.OneTreeAt root) ∧
    (log.looked pid = none → log.parentPid pid = some parent →
      (log.watched.nearestRoot (log.pidsSeen pid parent) =
          log.watched.nearestRoot (pid :: ancestors) ↔
        ((∃ p ∈ pid :: ancestors, log.watched.isRoot p) →
          ∃ p ∈ lookedAt log.parentPid pid parent, log.watched.isRoot p))) := by
  subst hlog
  constructor
  · simp only [TreeLog.attributed_eq]
    exact Trees.findSome?_rootedAt_eq_iff (TreeLog.nodup_watched parentPid acts) _ _
  · intro hfresh halive
    rw [TreeLog.pidsSeen, hfresh, getD_none]
    exact nearestRoot_lookedAt_iff _ halive hchain

/-- The parents on a small machine: the shells 100 and 300, `make` 200 below the first one, and 201
below that. -/
def makeParents (pid : Int) : Option Int :=
  if pid = 201 then some 200 else if pid = 200 then some 100
  else if pid = 100 ∨ pid = 300 then some 1 else if pid = 1 then some 0 else none

/-- An event of a grandchild of a shell, with the command of another shell watched as well. -/
theorem grandchild_attributed :
    Trees.nearestTree [(⟨0, 1⟩, 100), (⟨1, 1⟩, 300)] [201, 200, 100, 1, 0] = some ⟨0, 1⟩ ∧
    ∀ order, attributed order makeParents [.watch ⟨0, 1⟩ 100, .watch ⟨1, 1⟩ 300] 201 200 =
      some ⟨0, 1⟩ := by
  have hchain : Lineage makeParents 200 [200, 100, 1, 0] :=
    .step rfl (.step rfl (.step rfl (.last rfl)))
  have hiff := (attributes_nearest_iff makeParents [.watch ⟨0, 1⟩ 100, .watch ⟨1, 1⟩ 300] 201 200
    [200, 100, 1, 0] _ rfl hchain).1
  have hone : ∀ root, Trees.nearestRoot [(⟨0, 1⟩, 100), (⟨1, 1⟩, 300)] [201, 200, 100, 1, 0] =
      some root → Trees.OneTreeAt [(⟨0, 1⟩, 100), (⟨1, 1⟩, 300)] root := by
    intro root hroot
    cases (show some 100 = some root from hroot)
    decide
  exact ⟨by decide, hiff.mpr ⟨by decide, hone⟩⟩

/-- A background command and the next command have the same shell as root: for a child of the shell
the map may come up with the older one. A pid that was asked about and is then used by a process of
another shell keeps its old answer. And a shell with pid 1 is not found from further below. -/
theorem other_tree_attributed :
    (attributed .insertion makeParents [.watch ⟨0, 1⟩ 100, .watch ⟨0, 2⟩ 100] 200 100 =
        some ⟨0, 1⟩ ∧
      Trees.nearestTree [(⟨0, 1⟩, 100), (⟨0, 2⟩, 100)] [200, 100, 1, 0] = some ⟨0, 2⟩) ∧
    (attributed .insertion makeParents
        [.watch ⟨0, 1⟩ 100, .event 200 100, .exit 200 1, .fork 300 200] 200 300 = some ⟨0, 1⟩ ∧
      Trees.nearestTree [(⟨0, 1⟩, 100)] [200, 300, 1, 0] = none) ∧
    (attributed .insertion makeParents [.watch ⟨0, 1⟩ 1] 200 100 = none ∧
      Trees.nearestTree [(⟨0, 1⟩, 1)] [200, 100, 1, 0] = some ⟨0, 1⟩) := by
  decide

end ShitUndo
