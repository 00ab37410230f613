import Alertmanager.ConfigFaults
import Alertmanager.GroupFlush
import Alertmanager.NotificationLog

/-!
# References of an accepted configuration

The names that are looked up at run time, and where the maps come from that they are
looked up in: `reload` of `app/reloader.go` builds the pipelines of the receivers that
the routing tree uses (`PipelineBuilder.New` of `notify/notify.go`) and the map of the
time intervals that an `Intervener` reads (`timeinterval/timeinterval.go`).

The validation checks the configured tree before options are inherited. Node by node,
what it has checked is carried over to the tree that `newRoute` builds, so that no
lookup fails.
-/
namespace Alertmanager

/-! ### Nodes of the tree -/

namespace Route
variable [Regexp]

mutual

/-- The nodes in the order in which `Route.Walk` visits them. -/
def walk : Route → List Route
  | node opts ms c routes i => node opts ms c routes i :: walkAll routes

def walkAll : List Route → List Route
  | [] => []
  | r :: rs => r.walk ++ walkAll rs

end

mutual

/-- An alert is only ever sent to nodes of the tree. -/
theorem mem_walk_of_matchNodes {lset : LabelSet} {x : Route} :
    ∀ {r : Route}, x ∈ r.matchNodes lset → x ∈ r.walk
  | node opts ms c routes i, h => by
    rw [matchNodes] at h
    rw [walk]
    split_ifs at h
    · cases hall : matchChildren lset routes with
      | nil =>
        rw [hall, List.mem_singleton] at h
        exact h ▸ List.mem_cons_self
      | cons y ys =>
        rw [hall] at h
        have hx : x ∈ matchChildren lset routes := by rwa [hall]
        exact List.mem_cons_of_mem _ (mem_walkAll_of_matchChildren hx)
    · cases h

theorem mem_walkAll_of_matchChildren {lset : LabelSet} {x : Route} :
    ∀ {rs : List Route}, x ∈ matchChildren lset rs → x ∈ walkAll rs
  | [], h => by cases h
  | cr :: crs, h => by
    rw [matchChildren] at h
    rw [walkAll, List.mem_append]
    split_ifs at h
    · exact Or.inl (mem_walk_of_matchNodes h)
    · obtain h | h := List.mem_append.mp h
      · exact Or.inl (mem_walk_of_matchNodes h)
      · exact Or.inr (mem_walkAll_of_matchChildren h)

end

theorem matchNodes_ne_nil {r : Route} (h : r.matchers = []) (lset : LabelSet) :
    r.matchNodes lset ≠ [] := by
  cases r with
  | node opts ms c routes i =>
    obtain rfl : ms = [] := h
    rw [matchNodes, if_pos (by rfl)]
    cases matchChildren lset routes <;> simp

end Route

/-! ### Reloading -/

section
variable {ι ε τ : Type}

/-- An integration as the pipeline sees it, and the stages that it is put together
from. -/
structure Pipelines (ι ε : Type) where
  name : ι → GoString
  index : ι → ℕ
  gossipSettle : Stage ε
  inhibitor : Stage ε
  timeActive : Stage ε
  timeMute : Stage ε
  silencer : Stage ε
  wait : Stage ε
  dedup : ι → Nflog.Receiver → Stage ε
  retry : ι → GoString → Stage ε
  setNotifies : Nflog.Receiver → Stage ε

namespace Pipelines

def recv (pb : Pipelines ι ε) (name : GoString) (i : ι) : Nflog.Receiver :=
  ⟨name, pb.name i, UInt32.ofNat (pb.index i)⟩

def createReceiverStage (pb : Pipelines ι ε) (name : GoString) (integrations : List ι) :
    Stage ε :=
  .fanout (integrations.map fun i =>
    .multi [pb.wait, pb.dedup i (pb.recv name i), pb.retry i name,
      pb.setNotifies (pb.recv name i)])

def stage (pb : Pipelines ι ε) (name : GoString) (integrations : List ι) : Stage ε :=
  .multi [pb.gossipSettle, pb.inhibitor, pb.timeActive, pb.timeMute, pb.silencer,
    pb.createReceiverStage name integrations]

/-- `PipelineBuilder.New`, for an order of the receivers. -/
def new (pb : Pipelines ι ε) (receivers : GoMap GoString (List ι)) (order : List GoString) :
    GoMap GoString (Stage ε) :=
  order.foldl
    (fun rs name => rs.insert name (pb.stage name ((receivers.lookup name).getD []))) ∅

end Pipelines

/-- `RoutingStage.Exec` for the receiver of the context: the stage that it executes, or
its error. -/
def routingStageExec (rs : GoMap GoString (Stage ε)) (receiver : Option GoString) :
    Except GoString (Stage ε) :=
  match receiver with
  | none => .error (str "receiver missing")
  | some receiver =>
    match rs.lookup receiver with
    | none => .error (str "stage for receiver missing")
    | some s => .ok s

/-- The map from names to intervals, filled from both lists. -/
def intervalsOf (l : List (NamedIntervals τ)) (m : GoMap GoString (List τ)) :
    GoMap GoString (List τ) :=
  l.foldl (fun m ti => m.insert ti.name ti.timeIntervals) m

/-- `Intervener.Mutes`: the loop over the names, with those found so far. -/
def intervenerMutes (containsTime : τ → ℤ → Bool) (intervals : GoMap GoString (List τ)) (now : ℤ)
    (found : List GoString) : List GoString → Except GoString (Bool × List GoString)
  | [] => .ok (decide (found ≠ []), found)
  | name :: names =>
    match intervals.lookup name with
    | none => .error (str "time interval " ++ name ++ str " doesn't exist in config")
    | some interval =>
      intervenerMutes containsTime intervals now
        (found ++ (interval.filter (containsTime · now)).map fun _ => name) names

/-- The loop over the receivers: those that no route uses are skipped, and the
integrations of the others are built, which may fail. -/
def buildReceivers (build : ReceiverConfig → Except GoString (List ι)) (active : List GoString)
    (receivers : GoMap GoString (List ι)) :
    List ReceiverConfig → Except GoString (GoMap GoString (List ι))
  | [] => .ok receivers
  | rcv :: rcvs =>
    if rcv.name ∈ active then do
      let integrations ← build rcv
      buildReceivers build active (receivers.insert rcv.name integrations) rcvs
    else buildReceivers build active receivers rcvs

/-- The pipelines that `reload` may build for a routing tree. -/
def BuildsPipelines [Regexp] (build : ReceiverConfig → Except GoString (List ι))
    (pb : Pipelines ι ε) (conf : Config τ) (routes : Route) (rs : GoMap GoString (Stage ε)) :
    Prop :=
  ∃ receivers order,
    buildReceivers build (routes.walk.map (·.routeOpts.receiver)) ∅ conf.receivers =
      .ok receivers ∧
    GoMap.Ranges receivers order ∧ rs = pb.new receivers order

/-- The time intervals that `reload` gives to the `Intervener`. -/
def Config.intervals [Regexp] (conf : Config τ) : GoMap GoString (List τ) :=
  intervalsOf conf.timeIntervals (intervalsOf conf.muteTimeIntervals ∅)

/-! ### What the maps contain -/

theorem Config.mem_intervals [Regexp] {conf : Config τ} {name : GoString} :
    name ∈ conf.intervals ↔ name ∈ conf.timeIntervalNames := by
  rw [Config.intervals, intervalsOf, GoMap.mem_foldl_insert, intervalsOf,
    GoMap.mem_foldl_insert, timeIntervalNames, List.mem_append]
  simp only [Finmap.notMem_empty, or_false]
  exact or_comm

/-- The loop finds every name that is in the map. -/
theorem intervenerMutes_ok {containsTime : τ → ℤ → Bool} {intervals : GoMap GoString (List τ)}
    {now : ℤ} {names : List GoString} (h : ∀ name ∈ names, name ∈ intervals)
    (found : List GoString) :
    ∃ result, intervenerMutes containsTime intervals now found names = .ok result := by
  induction names generalizing found with
  | nil => exact ⟨_, rfl⟩
  | cons name names ih =>
    obtain ⟨interval, hinterval⟩ := Finmap.mem_iff.mp (h name List.mem_cons_self)
    rw [intervenerMutes, hinterval]
    exact ih (fun name hname => h name (List.mem_cons_of_mem _ hname)) _

theorem buildReceivers_mem {build : ReceiverConfig → Except GoString (List ι)}
    {active : List GoString} {rcvs : List ReceiverConfig}
    {m receivers : GoMap GoString (List ι)}
    (h : buildReceivers build active m rcvs = .ok receivers) {name : GoString}
    (hactive : name ∈ active) (hname : name ∈ rcvs.map (·.name) ∨ name ∈ m) :
    name ∈ receivers := by
  induction rcvs generalizing m with
  | nil =>
    obtain rfl := Except.ok.inj h
    simpa using hname
  | cons rcv rcvs ih =>
    rw [List.map_cons, List.mem_cons] at hname
    rw [buildReceivers] at h
    split_ifs at h with hused
    · obtain ⟨integrations, -, h⟩ := bind_eq_ok.mp h
      refine ih h ?_
      rw [Finmap.mem_insert]
      tauto
    · refine ih h ?_
      obtain (rfl | hname) | hname := hname
      · exact absurd hactive hused
      · exact Or.inl hname
      · exact Or.inr hname

theorem Pipelines.mem_new (pb : Pipelines ι ε) (receivers : GoMap GoString (List ι))
    {order : List GoString} {name : GoString} (h : name ∈ order) :
    name ∈ pb.new receivers order :=
  (GoMap.mem_foldl_insert id _).mpr (Or.inl (by simpa using h))

/-- The routing stage has a stage for every receiver that a route uses and that is
configured. -/
theorem BuildsPipelines.exec_ok [Regexp] {build : ReceiverConfig → Except GoString (List ι)}
    {pb : Pipelines ι ε} {conf : Config τ} {routes : Route} {rs : GoMap GoString (Stage ε)}
    (h : BuildsPipelines build pb conf routes rs) {node : Route} (hnode : node ∈ routes.walk)
    (hname : node.routeOpts.receiver ∈ conf.receivers.map (·.name)) :
    ∃ s, routingStageExec rs (some node.routeOpts.receiver) = .ok s := by
  obtain ⟨receivers, order, hbuilt, horder, rfl⟩ := h
  have hused : node.routeOpts.receiver ∈ routes.walk.map (·.routeOpts.receiver) :=
    List.mem_map.mpr ⟨node, hnode, rfl⟩
  have hmem := buildReceivers_mem hbuilt hused (Or.inl hname)
  obtain ⟨s, hs⟩ := Finmap.mem_iff.mp (pb.mem_new receivers ((horder.mem _).mpr hmem))
  exact ⟨s, by rw [routingStageExec, hs]⟩

/-! ### From the configured tree to the built one -/

section
variable [Regexp] [Unicode]

/-- The names that a node refers to are among these. -/
structure RouteOpts.Resolved (receivers timeIntervals : List GoString) (opts : RouteOpts) :
    Prop where
  receiver : opts.receiver ∈ receivers
  mute : ∀ ti ∈ opts.muteTimeIntervals, ti ∈ timeIntervals
  active : ∀ ti ∈ opts.activeTimeIntervals, ti ∈ timeIntervals

omit [Regexp] [Unicode] in
theorem reject_eq_ok {bad : Prop} [Decidable bad] {text : GoString} {u : Unit}
    (h : reject bad text = .ok u) : ¬ bad := by
  intro hbad
  rw [reject, if_pos hbad] at h
  cases h

omit [Regexp] in
theorem checkDefined_eq_ok {timeIntervals names : List GoString} {u : Unit}
    (h : checkDefined timeIntervals names = .ok u) : ∀ ti ∈ names, ti ∈ timeIntervals := by
  induction names with
  | nil => simp
  | cons ti names ih =>
    obtain ⟨_, hti, h⟩ := bind_eq_ok.mp h
    exact List.forall_mem_cons.mpr ⟨not_not.mp (reject_eq_ok hti), ih h⟩

/-- The options of a checked node, given a receiver to inherit if it has none. -/
theorem options_resolved {receivers timeIntervals : List GoString} {cr : RouteFields}
    {routes : List RouteConfig} {opts : RouteOpts}
    (hreceiver : checkReceiver receivers (.node cr routes) = .ok ())
    (hinterval : checkTimeInterval timeIntervals (.node cr routes) = .ok ())
    (h : cr.receiver ≠ [] ∨ opts.receiver ∈ receivers) :
    (cr.options opts).Resolved receivers timeIntervals ∧
      checkReceiverAll receivers routes = .ok () ∧
      checkTimeIntervalAll timeIntervals routes = .ok () := by
  simp only [checkReceiver, checkTimeInterval, bind_eq_ok] at hreceiver hinterval
  obtain ⟨_, hroutes, hown⟩ := hreceiver
  obtain ⟨_, hroutes', _, hactive, hmute⟩ := hinterval
  refine ⟨⟨?_, checkDefined_eq_ok hmute, checkDefined_eq_ok hactive⟩, hroutes, hroutes'⟩
  have hdefined := reject_eq_ok hown
  by_cases hempty : cr.receiver = []
  · simpa [RouteFields.options, hempty] using h
  · simpa [RouteFields.options, hempty] using hdefined

mutual

/-- The induction over the tree: a node passes a defined receiver on to its children. -/
theorem newRoute_resolved {ways : List ℕ → Way} {receivers timeIntervals : List GoString} :
    ∀ {cr : RouteConfig} {path : List ℕ} {opts : RouteOpts} {counter c : ℕ} {r : Route},
      opts.receiver ∈ receivers → checkReceiver receivers cr = .ok () →
      checkTimeInterval timeIntervals cr = .ok () →
      newRoute ways path (some opts) counter cr = some (r, c) →
      ∀ node ∈ r.walk, node.routeOpts.Resolved receivers timeIntervals
  | .nil, _, _, _, _, _, _, _, _, h => by simp [newRoute] at h
  | .node cr routes, path, opts, counter, c, r, hopts, hreceiver, hinterval, h => by
    obtain ⟨hown, hroutes, hroutes'⟩ := options_resolved hreceiver hinterval (Or.inr hopts)
    simp only [newRoute, Option.bind_eq_some_iff, Option.map_eq_some_iff, Prod.mk.injEq] at h
    obtain ⟨ms, -, ⟨children, c'⟩, hchildren, rfl, rfl⟩ := h
    rw [Route.walk, List.forall_mem_cons]
    exact ⟨hown, newRoutes_resolved hown.receiver hroutes hroutes' hchildren⟩

theorem newRoutes_resolved {ways : List ℕ → Way} {receivers timeIntervals : List GoString} :
    ∀ {crs : List RouteConfig} {path : List ℕ} {i : ℕ} {opts : RouteOpts} {counter c : ℕ}
      {rs : List Route},
      opts.receiver ∈ receivers → checkReceiverAll receivers crs = .ok () →
      checkTimeIntervalAll timeIntervals crs = .ok () →
      newRoutes ways path i opts counter crs = some (rs, c) →
      ∀ node ∈ Route.walkAll rs, node.routeOpts.Resolved receivers timeIntervals
  | [], _, _, _, _, _, _, _, _, _, h => by
    simp only [newRoutes, Option.some.injEq, Prod.mk.injEq] at h
    obtain ⟨rfl, rfl⟩ := h
    simp [Route.walkAll]
  | cr :: crs, path, i, opts, counter, c, rs, hopts, hreceiver, hinterval, h => by
    obtain ⟨_, hcr, hcrs⟩ := bind_eq_ok.mp hreceiver
    obtain ⟨_, hcr', hcrs'⟩ := bind_eq_ok.mp hinterval
    simp only [newRoutes, Option.bind_eq_some_iff, Option.map_eq_some_iff, Prod.mk.injEq] at h
    obtain ⟨⟨r, c₁⟩, hr, ⟨rs', c₂⟩, hrs, rfl, rfl⟩ := h
    rw [Route.walkAll, List.forall_mem_append]
    exact ⟨newRoute_resolved hopts hcr hcr' hr, newRoutes_resolved hopts hcrs hcrs' hrs⟩

end

omit [Unicode] in
theorem checkRoot_eq_ok {cr : RouteConfig} (h : checkRoot cr = .ok ()) :
    ∃ fields routes, cr = .node fields routes ∧ fields.receiver ≠ [] ∧
      GoMap.len fields.matchEq = 0 ∧ GoMap.len fields.matchRE = 0 ∧ fields.matchers = [] := by
  cases cr with
  | nil => cases h
  | node fields routes =>
    simp only [checkRoot, bind_eq_ok] at h
    obtain ⟨_, hreceiver, _, hmatchers, -⟩ := h
    have := reject_eq_ok hmatchers
    exact ⟨fields, routes, rfl, reject_eq_ok hreceiver, by omega, by omega, by tauto⟩

omit [Unicode] in
/-- A node without configured matchers has none. -/
theorem collect_eq_nil {w : Way} {cr : RouteFields} (hw : w.Valid cr)
    (hmatch : GoMap.len cr.matchEq = 0) (hmatchRE : GoMap.len cr.matchRE = 0)
    (hmatchers : cr.matchers = []) : cr.collect w = some [] := by
  rw [RouteFields.collect, hw.matchOrder.eq_nil hmatch, hw.matchREOrder.eq_nil hmatchRE, hmatchers]
  rfl

/-- The tree that is built from an accepted configuration: all nodes refer to defined
names, and the root has no matchers. -/
theorem Config.tree_resolved {cfg loaded : Config τ} (hcfg : cfg.unmarshalYAML = .ok loaded)
    {ways : List ℕ → Way} (hways : ValidWays ways [] loaded.route) {root : Route} {c : ℕ}
    (hroot : newRoute ways [] none 0 loaded.route = some (root, c)) :
    (∀ node ∈ root.walk, node.routeOpts.Resolved (loaded.receivers.map (·.name))
      loaded.timeIntervalNames) ∧ root.matchers = [] := by
  have haccepted := accepted_of_unmarshalYAML hcfg
  obtain ⟨g, hreceivers⟩ := haccepted.receivers
  have hnames := (checkReceivers_eq_ok hreceivers).1
  have hintervals : loaded.timeIntervalNames = cfg.timeIntervalNames := by
    rw [timeIntervalNames, haccepted.muteTimeIntervals, haccepted.timeIntervals, timeIntervalNames]
  obtain ⟨fields, routes, hroute, hreceiver, hmatch, hmatchRE, hmatchers⟩ :=
    checkRoot_eq_ok haccepted.root
  have htree := haccepted.tree
  have hinterval := haccepted.intervals
  rw [haccepted.route, hroute] at hroot hways
  rw [hroute] at htree hinterval
  rw [hnames, hintervals]
  obtain ⟨hown, hroutes, hroutes'⟩ := options_resolved htree hinterval (Or.inl hreceiver)
  simp only [newRoute, collect_eq_nil hways.1 hmatch hmatchRE hmatchers, Option.bind_some,
    Option.map_eq_some_iff, Prod.mk.injEq] at hroot
  obtain ⟨⟨children, c'⟩, hchildren, rfl, rfl⟩ := hroot
  constructor
  · rw [Route.walk, List.forall_mem_cons]
    exact ⟨hown, newRoutes_resolved hown.receiver hroutes hroutes' hchildren⟩
  · exact (hways.1.sort []).perm.eq_nil

/-- In an accepted configuration nothing that is looked up at run time is missing: every
node of the tree has a configured receiver, for which the pipelines that `reload` builds
have a stage; all its time intervals are defined, so that the `Intervener` reports no
error; and every label set is sent to at least one node. -/
theorem no_dangling_references {cfg loaded : Config τ} (hcfg : cfg.unmarshalYAML = .ok loaded)
    {ways : List ℕ → Way} (hways : ValidWays ways [] loaded.route) {root : Route} {c : ℕ}
    (hroot : newRoute ways [] none 0 loaded.route = some (root, c)) :
    (∀ node ∈ root.walk,
      (∃ rcv ∈ loaded.receivers, rcv.name = node.routeOpts.receiver) ∧
      (∀ (ι ε : Type) (build : ReceiverConfig → Except GoString (List ι)) (pb : Pipelines ι ε) rs,
        BuildsPipelines build pb loaded root rs →
        ∃ s, routingStageExec rs (some node.routeOpts.receiver) = .ok s) ∧
      ∀ (containsTime : τ → ℤ → Bool) (now : ℤ),
        (∃ muted, intervenerMutes containsTime loaded.intervals now []
          node.routeOpts.muteTimeIntervals = .ok muted) ∧
        ∃ active, intervenerMutes containsTime loaded.intervals now []
          node.routeOpts.activeTimeIntervals = .ok active) ∧
    ∀ lset, root.matchNodes lset ≠ [] ∧ ∀ node ∈ root.matchNodes lset, node ∈ root.walk := by
  obtain ⟨hresolved, hmatchers⟩ := Config.tree_resolved hcfg hways hroot
  refine ⟨fun node hnode => ?_, fun lset => ?_⟩
  · have hnames := hresolved node hnode
    refine ⟨List.mem_map.mp hnames.receiver, fun ι ε build pb rs hrs => ?_,
      fun containsTime now => ⟨?_, ?_⟩⟩
    · exact hrs.exec_ok hnode hnames.receiver
    · exact intervenerMutes_ok (fun ti hti => Config.mem_intervals.mpr (hnames.mute ti hti)) []
    · exact intervenerMutes_ok (fun ti hti => Config.mem_intervals.mpr (hnames.active ti hti)) []
  · exact ⟨Route.matchNodes_ne_nil hmatchers lset, fun node => Route.mem_walk_of_matchNodes⟩

end

end

section
attribute [local instance] noRegexp asciiUnicode

/-- A root with a child that inherits its receiver and is muted at night. -/
def nightConfiguration : Config Unit where
  global := none
  route := .node (.to (str "team"))
    [.node { RouteFields.to [] with muteTimeIntervals := [str "night"] } []]
  receivers := [.named (str "team"), .named (str "unused")]
  muteTimeIntervals := []
  timeIntervals := [⟨str "night", [()]⟩]

def nightTree : Route :=
  let opts := { defaultRouteOpts with receiver := str "team" }
  .node opts [] false
    [.node { opts with muteTimeIntervals := [str "night"] } [] false [] 0] 1

theorem no_dangling_references_night :
    ∃ loaded, nightConfiguration.unmarshalYAML = .ok loaded ∧
      (∀ node ∈ nightTree.walk, (∃ rcv ∈ loaded.receivers, rcv.name = node.routeOpts.receiver) ∧
        ∃ muted, intervenerMutes (fun _ _ => true) loaded.intervals 0 []
          node.routeOpts.muteTimeIntervals = .ok muted) ∧
      nightTree.matchNodes ∅ ≠ [] := by
  have hloaded : nightConfiguration.unmarshalYAML =
      .ok { nightConfiguration with global := some defaultGlobalConfig } := rfl
  have hempty : GoMap.Ranges (∅ : GoMap GoString GoString) [] := by decide
  have hvalid (receiver : GoString) (names : List GoString) :
      Way.Valid ⟨[], [], Matchers.sort⟩
        { RouteFields.to receiver with muteTimeIntervals := names } :=
    ⟨hempty, hempty, Matchers.isSort_sort⟩
  have hways : ValidWays (fun _ => ⟨[], [], Matchers.sort⟩) [] nightConfiguration.route :=
    ⟨hvalid _ _, ⟨hvalid _ _, trivial⟩, trivial⟩
  have hroot : newRoute (fun _ => ⟨[], [], Matchers.sort⟩) [] none 0 nightConfiguration.route =
      some (nightTree, 2) := rfl
  obtain ⟨hnodes, hmatch⟩ := no_dangling_references hloaded hways hroot
  refine ⟨_, hloaded, fun node hnode => ?_, (hmatch ∅).1⟩
  obtain ⟨hreceiver, -, hmutes⟩ := hnodes node hnode
  exact ⟨hreceiver, (hmutes _ 0).1⟩

end

end Alertmanager
