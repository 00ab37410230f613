import Alertmanager.MatcherText
import Alertmanager.Route

/-!
# The configured routing tree

`config.Route` and its translation to the tree of the dispatcher, `newRoute` of
`dispatch/route.go`. A pointer to a configured route may be nil. A node inherits the
options of its parent and collects its matchers from two maps and a list before it
sorts them. The orders in which the maps are ranged over, and the order that an
unstable sort gives, are left open: they are an argument of the translation.
-/
namespace Alertmanager

/-- What a `config.Route` says about its node. `Match` and `MatchRE` are the deprecated
maps; of a regular expression, its original text. -/
structure RouteFields [Regexp] where
  receiver : GoString
  groupBy : Option (List LabelName)
  groupByAll : Bool
  matchEq : GoMap GoString GoString
  matchRE : GoMap GoString GoString
  matchers : Matchers
  muteTimeIntervals : List GoString
  activeTimeIntervals : List GoString
  continues : Bool
  groupWait : Option ℤ
  groupInterval : Option ℤ
  repeatInterval : Option ℤ
  labels : LabelSet

/-- A pointer to a `config.Route`. -/
inductive RouteConfig [Regexp]
  | nil
  | node (fields : RouteFields) (routes : List RouteConfig)

/-- The choices that the translation of one node leaves open. -/
structure Way [Regexp] where
  matchOrder : List GoString
  matchREOrder : List GoString
  sort : Matchers → Matchers

section
variable [Regexp]

/-- The options of a node, from those it inherits. -/
def RouteFields.options (cr : RouteFields) (opts : RouteOpts) : RouteOpts where
  receiver := if cr.receiver ≠ [] then cr.receiver else opts.receiver
  groupBy := cr.groupBy.getD opts.groupBy
  groupByAll :=
    if cr.groupBy.isSome then false else if cr.groupByAll then true else opts.groupByAll
  groupWait := cr.groupWait.getD opts.groupWait
  groupInterval := cr.groupInterval.getD opts.groupInterval
  repeatInterval := cr.repeatInterval.getD opts.repeatInterval
  muteTimeIntervals := cr.muteTimeIntervals
  activeTimeIntervals := cr.activeTimeIntervals
  labels := if GoMap.len cr.labels ≠ 0 then cr.labels ∪ opts.labels else opts.labels

/-- The matchers that the loop over one of the maps appends. `NewMatcher` may fail,
which is a panic. -/
def matchersOf (t : MatchType) (value : GoString → GoString) (m : GoMap GoString GoString)
    (order : List GoString) : Option Matchers :=
  order.mapM fun ln => newMatcher t ln (value ((m.lookup ln).getD []))

/-- The matchers of a node before they are sorted. The text of a regular expression
that was read from the configuration is anchored already. -/
def RouteFields.collect (cr : RouteFields) (w : Way) : Option Matchers :=
  (matchersOf .equal id cr.matchEq w.matchOrder).bind fun ms =>
    (matchersOf .regexp anchored cr.matchRE w.matchREOrder).map fun res =>
      ms ++ res ++ cr.matchers

mutual

/-- `newRoute`: nothing if it panics, else the node and the counter after it. The node
is known by the indexes that lead to it. -/
def newRoute (ways : List ℕ → Way) (path : List ℕ) (parent : Option RouteOpts) (counter : ℕ) :
    RouteConfig → Option (Route × ℕ)
  | .nil => none
  | .node cr routes =>
    let opts := cr.options (parent.getD defaultRouteOpts)
    (cr.collect (ways path)).bind fun ms =>
      (newRoutes ways path 0 opts counter routes).map fun children =>
        (.node opts ((ways path).sort ms) cr.continues children.1 children.2, children.2 + 1)

/-- `newRoutes`. -/
def newRoutes (ways : List ℕ → Way) (path : List ℕ) (i : ℕ) (opts : RouteOpts) (counter : ℕ) :
    List RouteConfig → Option (List Route × ℕ)
  | [] => some ([], counter)
  | cr :: crs =>
    (newRoute ways (path ++ [i]) (some opts) counter cr).bind fun r =>
      (newRoutes ways path (i + 1) opts r.2 crs).map fun rs => (r.1 :: rs.1, rs.2)

end

mutual

/-- A node comes after its children, so its index is the largest in its tree. -/
theorem newRoute_within {ways : List ℕ → Way} :
    ∀ {cr : RouteConfig} {path : List ℕ} {parent : Option RouteOpts} {counter c : ℕ} {r : Route},
      newRoute ways path parent counter cr = some (r, c) →
      counter ≤ r.idx ∧ c = r.idx + 1 ∧ r.Within r.idx
  | .nil, _, _, _, _, _, h => by simp [newRoute] at h
  | .node cr routes, path, parent, counter, c, r, h => by
    simp only [newRoute, Option.bind_eq_some_iff, Option.map_eq_some_iff, Prod.mk.injEq] at h
    obtain ⟨ms, -, ⟨children, c'⟩, hchildren, rfl, rfl⟩ := h
    obtain ⟨hle, hall⟩ := newRoutes_within hchildren
    exact ⟨hle, rfl, le_rfl, hall⟩

theorem newRoutes_within {ways : List ℕ → Way} :
    ∀ {crs : List RouteConfig} {path : List ℕ} {i : ℕ} {opts : RouteOpts} {counter c : ℕ}
      {rs : List Route},
      newRoutes ways path i opts counter crs = some (rs, c) → counter ≤ c ∧ Route.AllWithin c rs
  | [], _, _, _, _, _, _, h => by
    simp only [newRoutes, Option.some.injEq, Prod.mk.injEq] at h
    obtain ⟨rfl, rfl⟩ := h
    exact ⟨le_rfl, trivial⟩
  | cr :: crs, path, i, opts, counter, c, rs, h => by
    simp only [newRoutes, Option.bind_eq_some_iff, Option.map_eq_some_iff, Prod.mk.injEq] at h
    obtain ⟨⟨r, c₁⟩, hr, ⟨rs', c₂⟩, hrs, rfl, rfl⟩ := h
    obtain ⟨hle, rfl, hwithin⟩ := newRoute_within hr
    obtain ⟨hle', hall⟩ := newRoutes_within hrs
    simp only at hle'
    exact ⟨by omega, hwithin.mono (by omega), hall⟩

end

/-- The choices are possible for the node. -/
structure Way.Valid (w : Way) (cr : RouteFields) : Prop where
  matchOrder : GoMap.Ranges cr.matchEq w.matchOrder
  matchREOrder : GoMap.Ranges cr.matchRE w.matchREOrder
  sort : ∀ ms, Matchers.IsSort ms (w.sort ms)

mutual

/-- The choices are possible for all nodes. -/
def ValidWays (ways : List ℕ → Way) (path : List ℕ) : RouteConfig → Prop
  | .nil => True
  | .node cr routes => (ways path).Valid cr ∧ ValidWaysFrom ways path 0 routes

def ValidWaysFrom (ways : List ℕ → Way) (path : List ℕ) (i : ℕ) : List RouteConfig → Prop
  | [] => True
  | cr :: crs => ValidWays ways (path ++ [i]) cr ∧ ValidWaysFrom ways path (i + 1) crs

end

end

end Alertmanager
