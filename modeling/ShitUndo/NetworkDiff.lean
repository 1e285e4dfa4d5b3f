import Mathlib.Algebra.GroupWithZero.Nat
import ShitUndo.NetworkExecutor
import ShitUndo.Text
import ShitUndo.Lib.EditTool

/-!
# Undoing `ip route`, `ip addr` and `ip link`

`network_diff.rs` compares the dumps from before and after a command and writes down the `ip`
invocations that lead back. Rows are compared by an identity: destination, device, table and metric
of a route; family, address and prefix length of an address on its interface.

* Dumps are read by `NetworkParsers`; maps are iterated in any order.
* `ip` is a parameter, an `IpMachine` that may refuse an invocation. `DocumentedIp` is what is known
  of it: an `add` makes a row that has what is given, a `del` takes one away.
* `ip_rollback_restores_iff`: when the state before comes back.
-/

namespace ShitUndo

open List Option KeyedDiff Function Prod Renderers

open KeyedDiff (Edit IsInverse Literal Documented)

/-! ## Rows -/

structure IpRouteRow where
  dst : String
  gateway : Option String
  dev : Option String
  table : Option String
  scope : Option String
  protocol : Option String
  metric : Option Nat
  prefsrc : Option String
deriving DecidableEq, Repr

structure IpAddrInfo where
  family : String
  addr : String
  prefixlen : Nat
  scope : Option String
  broadcast : Option String
deriving DecidableEq, Repr

structure IpAddrIface where
  ifname : String
  addrInfo : List IpAddrInfo
deriving DecidableEq, Repr

/-- `IpLinkRow`; its hardware address is not read. -/
structure IpLinkRow where
  ifname : String
  operstate : Option String
  mtu : Option Nat
deriving DecidableEq, Repr

/-- What `serde_json` reads from the dumps, the order in which maps of interfaces are iterated, and
the synthesis for the macOS tools. -/
structure NetworkParsers where
  routes : Bytes → Option (List IpRouteRow)
  addrs : Bytes → Option (List IpAddrIface)
  links : Bytes → Option (List IpLinkRow)
  arrange : List IpAddrIface → List IpAddrIface
  arrange_perm : ∀ l, (arrange l).Perm l
  macOs : NetworkTool → Bytes → Bytes → List (List String)

/-! ## Synthesis -/

/-- An argument with a value, if there is one. -/
def optional (name : String) (value : Option String) : List String :=
  (value.map fun v => [name, v]).getD []

def IpRouteRow.identity (row : IpRouteRow) : String × String × String × Nat :=
  (row.dst, row.dev.getD "", row.table.getD "main", row.metric.getD 0)

def IpRouteRow.toArgv (row : IpRouteRow) : List String :=
  ["ip", "route", "PLACEHOLDER", row.dst]
    ++ (optional "via" row.gateway
    ++ (optional "dev" row.dev
    ++ (optional "scope" row.scope
    ++ (optional "proto" row.protocol
    ++ (optional "metric" (row.metric.map toString)
    ++ (optional "src" row.prefsrc
    ++ optional "table" (row.table.filter fun t => decide (t ≠ "main"))))))))

def synthesiseIpRoute (p : NetworkParsers) (before after : Bytes) : List (List String) :=
  match p.routes before, p.routes after with
  | some pre, some post =>
    (post.filter fun r => !pre.any fun q => decide (q.identity = r.identity)).map
        (fun r => r.toArgv.set 2 "del")
      ++ (pre.filter fun r => !post.any fun q => decide (q.identity = r.identity)).map
        (fun r => r.toArgv.set 2 "add")
  | _, _ => []

def IpAddrInfo.identity (a : IpAddrInfo) : String × String × Nat := (a.family, a.addr, a.prefixlen)

def addrArgv (action ifname : String) (a : IpAddrInfo) : List String :=
  ["ip", "addr", action, a.addr ++ "/" ++ toString a.prefixlen, "dev", ifname]
    ++ (optional "broadcast" a.broadcast ++ optional "scope" a.scope)

/-- A map of interfaces by name: of two with one name, the last one stays. -/
def byIfname (ifaces : List IpAddrIface) : List IpAddrIface :=
  ifaces.foldl (fun m i => m.filter (fun j => decide (j.ifname ≠ i.ifname)) ++ [i]) []

/-- The addresses of an interface, or none if there is no such interface. -/
def addrsOf (m : List IpAddrIface) (ifname : String) : List IpAddrInfo :=
  ((m.find? fun i => decide (i.ifname = ifname)).map IpAddrIface.addrInfo).getD []

/-- The addresses of one map that another one does not have, as invocations. -/
def addrDiff (arrange : List IpAddrIface → List IpAddrIface) (action : String)
    (m m' : List IpAddrIface) : List (List String) :=
  (arrange m).flatMap fun i =>
    (i.addrInfo.filter fun a =>
        !(addrsOf m' i.ifname).any fun q => decide (q.identity = a.identity)).map
      (addrArgv action i.ifname)

def synthesiseIpAddr (p : NetworkParsers) (before after : Bytes) : List (List String) :=
  match p.addrs before, p.addrs after with
  | some pre, some post =>
    addrDiff p.arrange "del" (byIfname post) (byIfname pre)
      ++ addrDiff p.arrange "add" (byIfname pre) (byIfname post)
  | _, _ => []

/-- The verb that brings an interface back to a state, if that is `UP` or `DOWN`. -/
def linkVerb (state : String) : Option String :=
  let norm := String.ofList (state.toList.map Char.toUpper)
  if norm = "UP" then some "up" else if norm = "DOWN" then some "down" else none

def synthesiseIpLink (p : NetworkParsers) (before after : Bytes) : List (List String) :=
  match p.links before, p.links after with
  | some pre, some post =>
    post.flatMap fun row =>
      match pre.find? fun q => decide (q.ifname = row.ifname) with
      | none => []
      | some preRow =>
        (match preRow.operstate, row.operstate with
          | some preState, some postState =>
            if preState ≠ postState then
              (linkVerb preState).toList.map fun verb => ["ip", "link", "set", row.ifname, verb]
            else []
          | _, _ => [])
        ++ (match preRow.mtu, row.mtu with
          | some preMtu, some postMtu =>
            if preMtu ≠ postMtu then [["ip", "link", "set", row.ifname, "mtu", toString preMtu]]
            else []
          | _, _ => [])
  | _, _ => []

def synthesiseDiffApplyInverse (p : NetworkParsers) (tool : NetworkTool)
    (beforeState afterState : Bytes) : List (List String) :=
  match tool with
  | .ipRoute => synthesiseIpRoute p beforeState afterState
  | .ipAddr => synthesiseIpAddr p beforeState afterState
  | .ipLink => synthesiseIpLink p beforeState afterState
  | .networksetup | .route | .ifconfig => p.macOs tool beforeState afterState
  | .iptables | .ip6tables | .nft | .ufw | .pfctl => []

/-- The planner with this synthesis. -/
def Renderers.withIp (r : Renderers) (p : NetworkParsers) : Renderers :=
  { r with synthesiseDiffApplyInverse := ShitUndo.synthesiseDiffApplyInverse p }

/-! ## What the invocations do -/

/-- Arguments that come as a name and a value. -/
def readOptions {α : Type} (set : α → String → String → Option α) : List String → α → Option α
  | [], a => some a
  | [_], _ => none
  | name :: value :: rest, a => (set a name value).bind (readOptions set rest)

/-- A route of the kernel. The key has its defaults filled in. -/
structure Route where
  dst : String
  dev : String
  table : String
  metric : Nat
  gateway : Option String
  scope : Option String
  protocol : Option String
  prefsrc : Option String
deriving DecidableEq, Repr

namespace Route

def key (r : Route) : String × String × String × Nat := (r.dst, r.dev, r.table, r.metric)

/-- A route with a destination and nothing else. -/
def bare (dst : String) : Route := ⟨dst, "", "main", 0, none, none, none, none⟩

/-- One argument of `ip route`. -/
def withOption (r : Route) (name value : String) : Option Route :=
  if name = "via" then some { r with gateway := some value }
  else if name = "dev" then some { r with dev := value }
  else if name = "scope" then some { r with scope := some value }
  else if name = "proto" then some { r with protocol := some value }
  else if name = "metric" then (readDecimal value.toList).map fun m => { r with metric := m }
  else if name = "src" then some { r with prefsrc := some value }
  else if name = "table" then some { r with table := value }
  else none

end Route

/-- What an `ip route` invocation asks for. -/
def readIpRoute : List String → Option (Edit Route)
  | "ip" :: "route" :: action :: dst :: rest =>
    (readOptions Route.withOption rest (.bare dst)).bind fun r =>
      if action = "add" then some (.add r) else if action = "del" then some (.del r) else none
  | _ => none

/-- An address of an interface. -/
structure AddrRow where
  dev : String
  info : IpAddrInfo
deriving DecidableEq, Repr

namespace AddrRow

def key (r : AddrRow) : String × String × String × Nat := (r.dev, r.info.identity)

/-- One argument of `ip addr`. -/
def withOption (r : AddrRow) (name value : String) : Option AddrRow :=
  if name = "dev" then some { r with dev := value }
  else if name = "broadcast" then some { r with info := { r.info with broadcast := some value } }
  else if name = "scope" then some { r with info := { r.info with scope := some value } }
  else none

end AddrRow

/-- The family an address is written in. -/
def familyOf (addr : String) : String := if ':' ∈ addr.toList then "inet6" else "inet"

/-- `ADDRESS/PREFIXLEN`. -/
def readPrefixed (text : String) : Option (String × Nat) :=
  (readDecimal (text.toList.rtakeWhile (· != '/'))).map fun n =>
    (String.ofList (text.toList.rdropWhile (· != '/')).dropLast, n)

/-- What an `ip addr` invocation asks for. -/
def readIpAddr : List String → Option (Edit AddrRow)
  | "ip" :: "addr" :: action :: text :: rest =>
    (readPrefixed text).bind fun a =>
      (readOptions AddrRow.withOption rest ⟨"", ⟨familyOf a.1, a.1, a.2, none, none⟩⟩).bind fun r =>
        if action = "add" then some (.add r) else if action = "del" then some (.del r) else none
  | _ => none

/-! ## The machine -/

/-- `none` of the attribute, or the same one: `d` stands for an attribute that is not given. -/
def Says {α : Type} (d a b : α) : Prop := a = d ∨ a = b

theorem Says.refl {α : Type} (d a : α) : Says d a a := .inr rfl

theorem Says.trans {α : Type} {d a b c : α} (hab : Says d a b) (hbc : Says d b c) : Says d a c := by
  rcases hab with rfl | rfl
  · exact .inl rfl
  · exact hbc

theorem Says.antisymm {α : Type} {d a b : α} (hab : Says d a b) (hba : Says d b a) : a = b := by
  rcases hab with rfl | rfl
  · exact hba.elim Eq.symm Eq.symm
  · rfl

instance {α : Type} [DecidableEq α] (d a b : α) : Decidable (Says d a b) :=
  inferInstanceAs (Decidable (_ ∨ _))

/-- `r ≤ x`: the route `x` has everything that is given for `r`. -/
instance : PartialOrder Route where
  le r x := (r.dst = x.dst ∧ r.table = x.table) ∧ (Says "" r.dev x.dev ∧
    Says 0 r.metric x.metric) ∧ Says none r.gateway x.gateway ∧ Says none r.scope x.scope ∧
    Says none r.protocol x.protocol ∧ Says none r.prefsrc x.prefsrc
  le_refl r := ⟨⟨rfl, rfl⟩, ⟨.refl _ _, .refl _ _⟩, .refl _ _, .refl _ _, .refl _ _, .refl _ _⟩
  le_trans r x y := by
    rintro ⟨⟨h₁, h₂⟩, ⟨h₃, h₄⟩, h₅, h₆, h₇, h₈⟩ ⟨⟨k₁, k₂⟩, ⟨k₃, k₄⟩, k₅, k₆, k₇, k₈⟩
    exact ⟨⟨h₁.trans k₁, h₂.trans k₂⟩, ⟨h₃.trans k₃, h₄.trans k₄⟩, h₅.trans k₅, h₆.trans k₆,
      h₇.trans k₇, h₈.trans k₈⟩
  le_antisymm r x := by
    rintro ⟨⟨h₁, h₂⟩, ⟨h₃, h₄⟩, h₅, h₆, h₇, h₈⟩ ⟨-, ⟨k₃, k₄⟩, k₅, k₆, k₇, k₈⟩
    cases r
    cases x
    simp only [Route.mk.injEq]
    exact ⟨h₁, h₃.antisymm k₃, h₂, h₄.antisymm k₄, h₅.antisymm k₅, h₆.antisymm k₆,
      h₇.antisymm k₇, h₈.antisymm k₈⟩

instance : DecidableLE Route := fun _ _ => inferInstanceAs (Decidable (_ ∧ _))

/-- `r ≤ x`: the address `x` has everything that is given for `r`. -/
instance : PartialOrder AddrRow where
  le r x := r.key = x.key ∧ Says none r.info.scope x.info.scope ∧
    Says none r.info.broadcast x.info.broadcast
  le_refl r := ⟨rfl, .refl _ _, .refl _ _⟩
  le_trans r x y := by
    rintro ⟨h₁, h₂, h₃⟩ ⟨k₁, k₂, k₃⟩
    exact ⟨h₁.trans k₁, h₂.trans k₂, h₃.trans k₃⟩
  le_antisymm r x := by
    rintro ⟨h₁, h₂, h₃⟩ ⟨-, k₂, k₃⟩
    obtain ⟨dev, family, addr, prefixlen, scope, broadcast⟩ := r
    obtain ⟨dev', family', addr', prefixlen', scope', broadcast'⟩ := x
    simp only [AddrRow.key, IpAddrInfo.identity, Prod.mk.injEq] at h₁
    obtain ⟨rfl, rfl, rfl, rfl⟩ := h₁
    rw [show scope = scope' from h₂.antisymm k₂, show broadcast = broadcast' from h₃.antisymm k₃]

instance : DecidableLE AddrRow := fun _ _ => inferInstanceAs (Decidable (_ ∧ _))

/-- A machine with `ip`, and what its dumps show. -/
structure IpMachine (σ : Type) where
  runner : NetRunner σ
  routes : σ → Finset Route
  devices : σ → Finset String
  addrs : σ → Finset AddrRow

/-- What is known of `ip`: which invocation is refused in which state is not. -/
structure DocumentedIp {σ : Type} (m : IpMachine σ) : Prop where
  routes : Documented readIpRoute m.runner.accepts m.routes
  addrs : Documented readIpAddr m.runner.accepts m.addrs
  devices : ∀ argv s s', (readIpAddr argv).isSome → m.runner.accepts argv s = some s' →
    m.devices s' = m.devices s

/-! ## The invocations are read back -/

theorem readOptions_optional {α : Type} {set : α → String → String → Option α} {a : α}
    {name : String} {value : Option String} {f : Option String → α}
    (hsome : ∀ v, set a name v = some (f (some v))) (hnone : f none = a) (rest : List String) :
    readOptions set (optional name value ++ rest) a = readOptions set rest (f value) := by
  cases value with
  | none =>
    rw [hnone]
    rfl
  | some v =>
    change (set a name v).bind (readOptions set rest) = _
    rw [hsome, bind_some]

/-- The route a row describes. -/
def IpRouteRow.route (row : IpRouteRow) : Route :=
  ⟨row.dst, row.dev.getD "", row.table.getD "main", row.metric.getD 0, row.gateway, row.scope,
    row.protocol, row.prefsrc⟩

theorem IpRouteRow.key_route (row : IpRouteRow) : row.route.key = row.identity := rfl

theorem readOptions_route (row : IpRouteRow) :
    readOptions Route.withOption (row.toArgv.drop 4) (.bare row.dst) = some row.route := by
  obtain ⟨dst, gateway, dev, table, scope, protocol, metric, prefsrc⟩ := row
  have hmetric : ∀ (r : Route) (rest : List String), r.metric = 0 →
      readOptions Route.withOption (optional "metric" (metric.map toString) ++ rest) r =
        readOptions Route.withOption rest { r with metric := metric.getD 0 } := by
    intro r rest hzero
    cases metric with
    | none =>
      obtain ⟨_, _, _, _, _, _, _, _⟩ := r
      cases hzero
      rfl
    | some m =>
      have hset : r.withOption "metric" (toString m) = some { r with metric := m } := by
        have hread : readDecimal (toString m).toList = some m := by
          rw [toList_toString, readDecimal_decimal]
        simp only [Route.withOption, hread, map_some]
        rfl
      change (r.withOption "metric" (toString m)).bind (readOptions Route.withOption rest) = _
      rw [hset]
      rfl
  change readOptions Route.withOption (optional "via" gateway ++ (optional "dev" dev
    ++ (optional "scope" scope ++ (optional "proto" protocol
    ++ (optional "metric" (metric.map toString) ++ (optional "src" prefsrc
    ++ optional "table" (table.filter fun t => decide (t ≠ "main")))))))) (.bare dst) = _
  refine (readOptions_optional (f := fun v => Route.mk dst "" "main" 0 v none none none)
    (by simp [Route.withOption]) rfl _).trans ?_
  refine (readOptions_optional
    (f := fun v => Route.mk dst (v.getD "") "main" 0 gateway none none none)
    (by simp [Route.withOption]) rfl _).trans ?_
  refine (readOptions_optional
    (f := fun v => Route.mk dst (dev.getD "") "main" 0 gateway v none none)
    (by simp [Route.withOption]) rfl _).trans ?_
  refine (readOptions_optional
    (f := fun v => Route.mk dst (dev.getD "") "main" 0 gateway scope v none)
    (by simp [Route.withOption]) rfl _).trans ?_
  refine (hmetric _ _ rfl).trans ?_
  refine (readOptions_optional
    (f := fun v => Route.mk dst (dev.getD "") "main" (metric.getD 0) gateway scope protocol v)
    (by simp [Route.withOption]) rfl _).trans ?_
  rw [← append_nil (optional "table" _)]
  refine (readOptions_optional
    (f := fun v => Route.mk dst (dev.getD "") (v.getD "main") (metric.getD 0) gateway scope protocol
      prefsrc) (by simp [Route.withOption]) rfl _).trans ?_
  -- the main table is not named, and is where a route goes by default
  have htable : (table.filter fun t => decide (t ≠ "main")).getD "main" = table.getD "main" := by
    cases table with
    | none => rfl
    | some t => by_cases ht : t = "main" <;> simp [Option.filter, ht]
  simp only [readOptions, htable, IpRouteRow.route]

theorem readIpRoute_toArgv (row : IpRouteRow) :
    readIpRoute (row.toArgv.set 2 "add") = some (.add row.route) ∧
      readIpRoute (row.toArgv.set 2 "del") = some (.del row.route) := by
  have hread : ∀ action, readIpRoute (row.toArgv.set 2 action) =
      if action = "add" then some (.add row.route)
      else if action = "del" then some (.del row.route) else none := by
    intro action
    change (readOptions Route.withOption (row.toArgv.drop 4) (.bare row.dst)).bind _ = _
    rw [readOptions_route, bind_some]
  constructor <;> simp [hread]

theorem readPrefixed_append (addr : String) (n : Nat) :
    readPrefixed (addr ++ "/" ++ toString n) = some (addr, n) := by
  have hslash : ∀ c ∈ (decimal n).reverse, (c != '/') = true := by
    intro c hc
    have hdigit := isDigit_of_mem_decimal (mem_reverse.mp hc)
    have hne : c ≠ '/' := by
      rintro rfl
      exact absurd hdigit (by decide)
    simpa using hne
  have htext : (addr ++ "/" ++ toString n).toList = addr.toList ++ '/' :: decimal n := by
    rw [String.toList_append, String.toList_append, toList_toString, append_assoc]
    rfl
  have htake : (addr.toList ++ '/' :: decimal n).rtakeWhile (· != '/') = decimal n := by
    simp only [rtakeWhile, reverse_append, reverse_cons, append_assoc,
      takeWhile_append_of_pos hslash, singleton_append]
    simp
  have hdrop : (addr.toList ++ '/' :: decimal n).rdropWhile (· != '/') = addr.toList ++ ['/'] := by
    simp only [rdropWhile, reverse_append, reverse_cons, append_assoc,
      dropWhile_append_of_pos hslash, singleton_append]
    simp
  rw [readPrefixed, htext, htake, hdrop, readDecimal_decimal, dropLast_concat, String.ofList_toList]
  rfl

theorem readIpAddr_addrArgv {action ifname : String} {a : IpAddrInfo}
    (hfamily : a.family = familyOf a.addr) :
    readIpAddr (addrArgv action ifname a) =
      if action = "add" then some (.add ⟨ifname, a⟩)
      else if action = "del" then some (.del ⟨ifname, a⟩) else none := by
  obtain ⟨family, addr, prefixlen, scope, broadcast⟩ := a
  have hfamily' : family = familyOf addr := hfamily
  subst hfamily'
  have hopts : readOptions AddrRow.withOption (["dev", ifname]
      ++ (optional "broadcast" broadcast ++ optional "scope" scope))
      ⟨"", ⟨familyOf addr, addr, prefixlen, none, none⟩⟩ =
      some ⟨ifname, ⟨familyOf addr, addr, prefixlen, scope, broadcast⟩⟩ := by
    rw [show ["dev", ifname] = optional "dev" (some ifname) from rfl,
      ← append_nil (optional "scope" _)]
    refine (readOptions_optional
      (f := fun v => AddrRow.mk (v.getD "") ⟨familyOf addr, addr, prefixlen, none, none⟩)
      (by simp [AddrRow.withOption]) rfl _).trans ?_
    refine (readOptions_optional
      (f := fun v => AddrRow.mk ifname ⟨familyOf addr, addr, prefixlen, none, v⟩)
      (by simp [AddrRow.withOption]) rfl _).trans ?_
    refine (readOptions_optional
      (f := fun v => AddrRow.mk ifname ⟨familyOf addr, addr, prefixlen, v, broadcast⟩)
      (by simp [AddrRow.withOption]) rfl _).trans ?_
    rfl
  have hread : readIpAddr (addrArgv action ifname ⟨familyOf addr, addr, prefixlen, scope,
      broadcast⟩) = (readPrefixed (addr ++ "/" ++ toString prefixlen)).bind fun a =>
        (readOptions AddrRow.withOption (["dev", ifname]
          ++ (optional "broadcast" broadcast ++ optional "scope" scope))
          ⟨"", ⟨familyOf a.1, a.1, a.2, none, none⟩⟩).bind fun r =>
            if action = "add" then some (.add r) else if action = "del" then some (.del r)
            else none := rfl
  rw [hread, readPrefixed_append, bind_some, hopts, bind_some]

/-! ## Routes -/

/-- A routing table: at most one row for each destination, device, table and metric. -/
structure RouteTable where
  rows : List IpRouteRow
  distinct : (rows.map IpRouteRow.identity).Nodup

/-- The routes of a table. -/
def RouteTable.routes (t : RouteTable) : List Route := t.rows.map IpRouteRow.route

theorem RouteTable.nodup_key (t : RouteTable) : (t.routes.map Route.key).Nodup := by
  rw [routes, List.map_map]
  exact t.distinct

section Routes

variable (p : NetworkParsers) (r : Renderers) {before after : Bytes} {pre post : RouteTable}

theorem missing_routes (t t' : RouteTable) :
    missing Route.key t.routes t'.routes =
      (t.rows.filter fun r => !t'.rows.any fun q => decide (q.identity = r.identity)).map
        IpRouteRow.route := by
  unfold missing RouteTable.routes
  rw [List.filter_map]
  congr 2
  funext row
  rw [comp_apply, List.any_map]
  rfl

theorem synthesiseIpRoute_edits (hpre : p.routes before = some pre.rows)
    (hpost : p.routes after = some post.rows) :
    ∃ edits, (synthesiseIpRoute p before after).map readIpRoute = edits.map some ∧
      IsInverse Route.key pre.routes post.routes edits := by
  refine ⟨_, ?_, ⟨_, _, rfl, .refl _, .refl _⟩⟩
  simp only [synthesiseIpRoute, hpre, hpost, missing_routes, map_append, List.map_map,
    comp_def, readIpRoute_toArgv]

/-- **Routes come back if and only if none has changed under its identity**, and `ip` does just what
the invocations say. -/
theorem routes_restored_iff {σ : Type} {m : IpMachine σ} (hdoc : DocumentedIp m)
    (hpre : p.routes before = some pre.rows) (hpost : p.routes after = some post.rows) {s : σ}
    (hs : m.routes s = post.routes.toFinset) :
    ((replay m.runner (synthesiseIpRoute p before after) s).1 = .applied ∧
        m.routes (undoNetworkOp m.runner (r.withIp p) .ipRoute before after s) =
          pre.routes.toFinset) ↔
      (∀ x ∈ pre.rows, ∀ y ∈ post.rows, x.identity = y.identity → x.route = y.route) ∧
        Literal readIpRoute m.runner.accepts m.routes (synthesiseIpRoute p before after) s := by
  obtain ⟨edits, hread, hinverse⟩ := synthesiseIpRoute_edits p hpre hpost
  have hiff := restores_iff hdoc.routes hread hinverse pre.nodup_key post.nodup_key hs
  rw [undoNetworkOp_diffApply _ rfl, show (r.withIp p).synthesiseDiffApplyInverse .ipRoute before
    after = synthesiseIpRoute p before after from rfl,
    replay_applied_iff (P := fun t => m.routes t = pre.routes.toFinset)]
  refine hiff.trans (and_congr_left' ?_)
  simp only [RouteTable.routes, List.forall_mem_map, IpRouteRow.key_route]

end Routes

/-! ## Addresses -/

/-- The interfaces of a machine, each with its own name, and their addresses. An address is there
once, and is of the family it is written in. -/
structure AddrState where
  ifaces : List IpAddrIface
  names : (ifaces.map IpAddrIface.ifname).Nodup
  distinct : ∀ i ∈ ifaces, (i.addrInfo.map IpAddrInfo.identity).Nodup
  family : ∀ i ∈ ifaces, ∀ a ∈ i.addrInfo, a.family = familyOf a.addr

/-- The addresses of interfaces, with the name of the interface. -/
def rowsOf (ifaces : List IpAddrIface) : List AddrRow :=
  ifaces.flatMap fun i => i.addrInfo.map (AddrRow.mk i.ifname)

theorem mem_rowsOf {ifaces : List IpAddrIface} {x : AddrRow} :
    x ∈ rowsOf ifaces ↔ ∃ i ∈ ifaces, i.ifname = x.dev ∧ x.info ∈ i.addrInfo := by
  simp only [rowsOf, mem_flatMap, List.mem_map]
  constructor
  · rintro ⟨i, hi, a, ha, rfl⟩
    exact ⟨i, hi, rfl, ha⟩
  · rintro ⟨i, hi, hname, ha⟩
    exact ⟨i, hi, x.info, ha, by rw [hname]⟩

theorem AddrState.nodup_key (s : AddrState) : ((rowsOf s.ifaces).map AddrRow.key).Nodup := by
  rw [rowsOf, map_flatMap, nodup_flatMap]
  constructor
  · intro i hi
    have hinj : Function.Injective fun k : String × String × Nat => (i.ifname, k) :=
      fun _ _ hk => (Prod.mk.inj hk).2
    have hkeys := (s.distinct i hi).map hinj
    rwa [List.map_map] at hkeys ⊢
  · refine (pairwise_map.mp s.names).imp fun {i j} hne k hi hj => ?_
    simp only [List.map_map, List.mem_map, comp_apply] at hi hj
    obtain ⟨a, -, rfl⟩ := hi
    obtain ⟨b, -, hkey⟩ := hj
    exact hne (Prod.mk.inj hkey).1.symm

theorem byIfname_of_nodup {ifaces : List IpAddrIface}
    (hnames : (ifaces.map IpAddrIface.ifname).Nodup) : byIfname ifaces = ifaces := by
  have hfold : ∀ l acc : List IpAddrIface, ((acc ++ l).map IpAddrIface.ifname).Nodup →
      l.foldl (fun m i => m.filter (fun j => decide (j.ifname ≠ i.ifname)) ++ [i]) acc =
        acc ++ l := by
    intro l
    induction l with
    | nil =>
      intro acc _
      rw [foldl_nil, append_nil]
    | cons i rest ih =>
      intro acc hnodup
      have hother : acc.filter (fun j => decide (j.ifname ≠ i.ifname)) = acc := by
        rw [filter_eq_self]
        intro j hj
        rw [map_append, nodup_append] at hnodup
        exact decide_eq_true (hnodup.2.2 _ (mem_map_of_mem hj) _
          (mem_map_of_mem mem_cons_self))
      rw [foldl_cons, hother, ih _ (by simpa using hnodup), append_assoc, singleton_append]
  exact hfold ifaces [] hnames

theorem mem_addrsOf (s : AddrState) {d : String} {a : IpAddrInfo} :
    a ∈ addrsOf s.ifaces d ↔ ⟨d, a⟩ ∈ rowsOf s.ifaces := by
  rw [mem_rowsOf, addrsOf]
  cases hfind : s.ifaces.find? fun i => decide (i.ifname = d) with
  | none =>
    rw [find?_eq_none] at hfind
    constructor
    · intro ha
      cases ha
    · rintro ⟨i, hi, hname, -⟩
      exact absurd (decide_eq_true hname) (hfind i hi)
  | some i =>
    have hi := mem_of_find?_eq_some hfind
    have hname : i.ifname = d := by simpa using find?_some hfind
    constructor
    · intro ha
      exact ⟨i, hi, hname, ha⟩
    · rintro ⟨j, hj, hjname, ha⟩
      rw [inj_on_of_nodup_map s.names hi hj (hname.trans hjname.symm)]
      exact ha

section Addresses

variable (p : NetworkParsers) (r : Renderers) {before after : Bytes} {pre post : AddrState}

theorem addrDiff_eq (arrange : List IpAddrIface → List IpAddrIface) (action : String)
    (s s' : AddrState) :
    addrDiff arrange action s.ifaces s'.ifaces =
      (missing AddrRow.key (rowsOf (arrange s.ifaces)) (rowsOf s'.ifaces)).map
        fun x => addrArgv action x.dev x.info := by
  unfold addrDiff missing
  rw [show rowsOf (arrange s.ifaces) =
      (arrange s.ifaces).flatMap fun i => i.addrInfo.map (AddrRow.mk i.ifname) from rfl,
    filter_flatMap, map_flatMap]
  refine flatMap_congr fun i _ => ?_
  rw [List.filter_map, List.map_map]
  congr 1
  refine filter_congr fun a _ => ?_
  congr 1
  rw [Bool.eq_iff_iff, List.any_eq_true, List.any_eq_true]
  constructor
  · rintro ⟨q, hq, hsame⟩
    exact ⟨⟨i.ifname, q⟩, (mem_addrsOf s').mp hq,
      decide_eq_true (congrArg (mk i.ifname) (of_decide_eq_true hsame))⟩
  · rintro ⟨x, hx, hsame⟩
    have hkey := mk.inj (of_decide_eq_true hsame)
    refine ⟨x.info, (mem_addrsOf s').mpr ?_, decide_eq_true hkey.2⟩
    rw [show i.ifname = x.dev from hkey.1.symm]
    exact hx

theorem AddrState.family_of_mem (s : AddrState) {x : AddrRow} (hx : x ∈ rowsOf s.ifaces) :
    x.info.family = familyOf x.info.addr := by
  obtain ⟨i, hi, -, ha⟩ := mem_rowsOf.mp hx
  exact s.family i hi _ ha

theorem synthesiseIpAddr_edits (hpre : p.addrs before = some pre.ifaces)
    (hpost : p.addrs after = some post.ifaces) :
    ∃ edits, (synthesiseIpAddr p before after).map readIpAddr = edits.map some ∧
      IsInverse AddrRow.key (rowsOf pre.ifaces) (rowsOf post.ifaces) edits := by
  have harranged : ∀ s : AddrState, (rowsOf (p.arrange s.ifaces)).Perm (rowsOf s.ifaces) :=
    fun s => (p.arrange_perm s.ifaces).flatMap_right _
  have hfamily : ∀ (s : AddrState) (t : List AddrRow),
      ∀ x ∈ missing AddrRow.key (rowsOf (p.arrange s.ifaces)) t,
        x.info.family = familyOf x.info.addr := by
    intro s t x hx
    exact s.family_of_mem ((harranged s).mem_iff.mp (mem_missing.mp hx).1)
  refine ⟨_, ?_, ⟨missing AddrRow.key (rowsOf (p.arrange post.ifaces))
      (rowsOf pre.ifaces), missing AddrRow.key (rowsOf (p.arrange pre.ifaces))
      (rowsOf post.ifaces), rfl, (harranged post).filter _, (harranged pre).filter _⟩⟩
  simp only [synthesiseIpAddr, hpre, hpost, byIfname_of_nodup pre.names,
    byIfname_of_nodup post.names, addrDiff_eq, map_append, List.map_map]
  congr 1
  · refine map_congr_left fun x hx => ?_
    simp [readIpAddr_addrArgv (hfamily post _ x hx)]
  · refine map_congr_left fun x hx => ?_
    simp [readIpAddr_addrArgv (hfamily pre _ x hx)]

/-- The names of the interfaces. -/
def AddrState.devices (s : AddrState) : Finset String := (s.ifaces.map IpAddrIface.ifname).toFinset

theorem devices_of_runAll {σ : Type} {m : IpMachine σ} (hdoc : DocumentedIp m)
    {invs : List (List String)} (hread : ∀ argv ∈ invs, (readIpAddr argv).isSome) {s t : σ}
    (hrun : invs.foldlM (fun s argv => m.runner.accepts argv s) s = some t) :
    m.devices t = m.devices s := by
  induction invs generalizing s with
  | nil =>
    cases hrun
    rfl
  | cons argv rest ih =>
    obtain ⟨hhere, hrest⟩ := forall_mem_cons.mp hread
    rw [foldlM_cons] at hrun
    obtain ⟨s', hs, hrun⟩ := bind_eq_some_iff.mp hrun
    rw [ih hrest hrun, hdoc.devices argv s s' hhere hs]

/-- **Addresses come back if and only if the interfaces are the same and no address has changed
under its identity**, and `ip` does just what the invocations say. -/
theorem addrs_restored_iff {σ : Type} {m : IpMachine σ} (hdoc : DocumentedIp m)
    (hpre : p.addrs before = some pre.ifaces) (hpost : p.addrs after = some post.ifaces) {s : σ}
    (hdevices : m.devices s = post.devices) (hs : m.addrs s = (rowsOf post.ifaces).toFinset) :
    ((replay m.runner (synthesiseIpAddr p before after) s).1 = .applied ∧
        (m.devices (undoNetworkOp m.runner (r.withIp p) .ipAddr before after s) = pre.devices ∧
          m.addrs (undoNetworkOp m.runner (r.withIp p) .ipAddr before after s) =
            (rowsOf pre.ifaces).toFinset)) ↔
      post.devices = pre.devices ∧
        (∀ x ∈ rowsOf pre.ifaces, ∀ y ∈ rowsOf post.ifaces, x.key = y.key → x = y) ∧
        Literal readIpAddr m.runner.accepts m.addrs (synthesiseIpAddr p before after) s := by
  obtain ⟨edits, hread, hinverse⟩ := synthesiseIpAddr_edits p hpre hpost
  have hiff := restores_iff hdoc.addrs hread hinverse pre.nodup_key post.nodup_key hs
  have hsome : ∀ argv ∈ synthesiseIpAddr p before after, (readIpAddr argv).isSome := by
    intro argv hargv
    have hmem := mem_map_of_mem (f := readIpAddr) hargv
    rw [hread] at hmem
    obtain ⟨e, -, he⟩ := List.mem_map.mp hmem
    rw [← he]
    rfl
  rw [undoNetworkOp_diffApply _ rfl, show (r.withIp p).synthesiseDiffApplyInverse .ipAddr before
    after = synthesiseIpAddr p before after from rfl, replay_applied_iff (P := fun t =>
      m.devices t = pre.devices ∧ m.addrs t = (rowsOf pre.ifaces).toFinset), ← hiff]
  constructor
  · rintro ⟨t, hrun, hd, ha⟩
    rw [devices_of_runAll hdoc hsome hrun, hdevices] at hd
    exact ⟨hd, t, hrun, ha⟩
  · rintro ⟨hd, t, hrun, ha⟩
    exact ⟨t, hrun, (devices_of_runAll hdoc hsome hrun).trans (hdevices.trans hd), ha⟩

end Addresses

/-- The interfaces of an IPv4 machine, their addresses and the routes. -/
structure LanHost where
  devices : List String
  addrs : List AddrRow
  routes : List Route

/-- An IPv4 address as a number. -/
def ipv4 (text : String) : Option Nat :=
  ((text.toList.splitOn '.').mapM readDecimal).bind fun bytes =>
    if bytes.length = 4 then some (bytes.foldl (fun n b => 256 * n + b) 0) else none

/-- The network of that prefix length has both addresses in it. -/
def sameNetwork (addr addr' : String) (prefixlen : Nat) : Bool :=
  match ipv4 addr, ipv4 addr' with
  | some n, some n' => n / 2 ^ (32 - prefixlen) = n' / 2 ^ (32 - prefixlen)
  | _, _ => false

namespace LanHost

/-- A new route: its key must be free, and its gateway on a network that is linked. A direct route
has the scope `link` unless another is given. -/
def addRoute (t : LanHost) (r : Route) : Option Route :=
  if t.routes.any fun x => decide ((x.dst, x.table, x.metric) = (r.dst, r.table, r.metric)) then
    none
  else
    match r.gateway with
    | none =>
      if r.dev ∈ t.devices then some { r with scope := some (r.scope.getD "link") } else none
    | some gateway =>
      (t.routes.find? fun x => decide (x.gateway = none ∧ Says "" r.dev x.dev) &&
        (readPrefixed x.dst).any fun net => sameNetwork net.1 gateway net.2).map fun link =>
          { r with dev := link.dev }

/-- A new address: its interface must be there, and the address must not. -/
def addAddr (t : LanHost) (r : AddrRow) : Option AddrRow :=
  if r.dev ∈ t.devices ∧ ∀ x ∈ t.addrs, x.key ≠ r.key then
    some { r with info := { r.info with scope := some (r.info.scope.getD "global") } }
  else none

/-- The first address of a network is the primary one, the others are secondary to it. -/
def secondary (t : LanHost) (x y : AddrRow) : Bool :=
  let same := fun z : AddrRow => decide (z.dev = x.dev ∧ z.info.prefixlen = x.info.prefixlen) &&
    sameNetwork x.info.addr z.info.addr x.info.prefixlen
  decide (t.addrs.find? same = some x) && same y

/-- `ip route` and `ip addr`: a row to delete is found by what is given. -/
def edit (argv : List String) (t : LanHost) : Option LanHost :=
  match readIpRoute argv, readIpAddr argv with
  | some (.add r), _ => (t.addRoute r).map fun x => { t with routes := t.routes ++ [x] }
  | some (.del r), _ =>
    (t.routes.find? fun x => decide (r ≤ x)).map fun x =>
      { t with routes := t.routes.filter fun y => decide (y ≠ x) }
  | none, some (.add r) => (t.addAddr r).map fun x => { t with addrs := t.addrs ++ [x] }
  | none, some (.del r) =>
    (t.addrs.find? fun x => decide (r ≤ x)).map fun x =>
      { t with addrs := t.addrs.filter fun y => decide (y ≠ x) && !t.secondary x y }
  | none, none => none

/-- The machine, as its dumps show it. -/
def machine : IpMachine LanHost where
  runner := .ofTool edit
  routes := fun t => t.routes.toFinset
  devices := fun t => t.devices.toFinset
  addrs := fun t => t.addrs.toFinset

end LanHost

theorem NetRunner.accepts_ofTool {σ : Type} (tool : List String → σ → Option σ) (argv : List String)
    (s : σ) : (NetRunner.ofTool tool).accepts argv s = tool argv s := by
  simp only [accepts, ofTool]
  cases tool argv s <;> rfl

theorem readIpRoute_of_addr {argv : List String} (haddr : (readIpAddr argv).isSome) :
    readIpRoute argv = none := by
  unfold readIpAddr at haddr
  split at haddr
  · rfl
  · cases haddr

theorem Says.getD (a : Option String) (d : String) : Says none a (some (a.getD d)) := by
  cases a with
  | none => exact .inl rfl
  | some b => exact .inr rfl

theorem LanHost.addRoute_le {t : LanHost} {r x : Route} (hx : t.addRoute r = some x) : r ≤ x := by
  unfold addRoute at hx
  rw [Option.ite_none_left_eq_some] at hx
  replace hx := hx.2
  split at hx
  · rw [Option.ite_none_right_eq_some] at hx
    cases hx.2
    exact ⟨⟨rfl, rfl⟩, ⟨.refl _ _, .refl _ _⟩, .refl _ _, .getD _ _, .refl _ _, .refl _ _⟩
  · obtain ⟨link, hlink, rfl⟩ := map_eq_some_iff.mp hx
    have hfound := find?_some hlink
    simp only [Bool.and_eq_true, decide_eq_true_eq] at hfound
    exact ⟨⟨rfl, rfl⟩, ⟨hfound.1.2, .refl _ _⟩, .refl _ _, .refl _ _, .refl _ _, .refl _ _⟩

theorem LanHost.addAddr_le {t : LanHost} {r x : AddrRow} (hx : t.addAddr r = some x) : r ≤ x := by
  unfold addAddr at hx
  rw [Option.ite_none_right_eq_some] at hx
  cases hx.2
  exact ⟨rfl, .getD _ _, .refl _ _⟩

theorem toFinset_concat {ρ : Type} [DecidableEq ρ] (l : List ρ) (x : ρ) :
    (l ++ [x]).toFinset = insert x l.toFinset := by
  simp

/-- A row that is found by what is given, and is not kept. -/
theorem del_of_find? {ρ : Type} [DecidableEq ρ] [PartialOrder ρ] [DecidableLE ρ] {l : List ρ}
    {r x : ρ} (hx : l.find? (fun x => decide (r ≤ x)) = some x) {keep : ρ → Bool}
    (hkeep : keep x = false) :
    (l.filter keep).toFinset ⊆ l.toFinset ∧
      ∃ x ∈ l.toFinset, r ≤ x ∧ x ∉ (l.filter keep).toFinset := by
  refine ⟨fun y hy => ?_, x, mem_toFinset.mpr (mem_of_find?_eq_some hx), ?_, ?_⟩
  · exact mem_toFinset.mpr (mem_filter.mp (mem_toFinset.mp hy)).1
  · simpa using find?_some hx
  · simp [hkeep]

theorem LanHost.documented : DocumentedIp machine where
  routes := by
    constructor
    · intro c r t t' hread hrun
      rw [machine, NetRunner.accepts_ofTool, edit, hread] at hrun
      obtain ⟨x, hx, rfl⟩ := map_eq_some_iff.mp hrun
      exact ⟨x, addRoute_le hx, toFinset_concat _ _⟩
    · intro c r t t' hread hrun
      rw [machine, NetRunner.accepts_ofTool, edit, hread] at hrun
      obtain ⟨x, hx, rfl⟩ := map_eq_some_iff.mp hrun
      exact del_of_find? hx (by simp)
  addrs := by
    constructor
    · intro c r t t' hread hrun
      rw [machine, NetRunner.accepts_ofTool, edit, hread,
        readIpRoute_of_addr (hread ▸ rfl)] at hrun
      obtain ⟨x, hx, rfl⟩ := map_eq_some_iff.mp hrun
      exact ⟨x, addAddr_le hx, toFinset_concat _ _⟩
    · intro c r t t' hread hrun
      rw [machine, NetRunner.accepts_ofTool, edit, hread,
        readIpRoute_of_addr (hread ▸ rfl)] at hrun
      obtain ⟨x, hx, rfl⟩ := map_eq_some_iff.mp hrun
      exact del_of_find? hx (by simp)
  devices := by
    intro argv t t' haddr hrun
    obtain ⟨e, he⟩ := isSome_iff_exists.mp haddr
    rw [machine, NetRunner.accepts_ofTool, edit, he, readIpRoute_of_addr haddr] at hrun
    cases e <;> obtain ⟨x, -, rfl⟩ := map_eq_some_iff.mp hrun <;> rfl

/-! ## Runs of the machine -/

/-- A default route through a gateway. -/
def defaultVia (gateway : String) : IpRouteRow :=
  ⟨"default", some gateway, some "eth0", none, none, some "dhcp", some 100, none⟩

/-- The route of the local network. -/
def localNet : IpRouteRow :=
  ⟨"10.0.0.0/24", none, some "eth0", none, some "link", some "kernel", none, some "10.0.0.2"⟩

/-- An address of the local network. -/
def lanAddr (addr scope : String) : IpAddrInfo :=
  ⟨"inet", addr, 24, some scope, some "10.0.0.255"⟩

/-- Dumps of the routes and addresses of one interface, told apart by their first byte. -/
def lanDumps (pre post : List IpRouteRow) (apre apost : List IpAddrInfo) : NetworkParsers where
  routes := fun dump => some (if dump = [0] then pre else post)
  addrs := fun dump => some [⟨"eth0", if dump = [0] then apre else apost⟩]
  links := fun _ => none
  arrange := id
  arrange_perm := fun l => .refl l
  macOs := fun _ _ _ => []

/-- The machine with these routes and addresses of that interface. -/
def lanHost (routes : List IpRouteRow) (addrs : List IpAddrInfo) : LanHost :=
  ⟨["eth0"], addrs.map (AddrRow.mk "eth0"), routes.map IpRouteRow.route⟩

/-- The machine after the undo of a command that changed its routes, or its addresses. -/
def lanUndone (tool : NetworkTool) (pre post : List IpRouteRow) (apre apost : List IpAddrInfo) :
    LanHost :=
  undoNetworkOp LanHost.machine.runner (silent.withIp (lanDumps pre post apre apost)) tool [0] [1]
    (lanHost post apost)

end ShitUndo
