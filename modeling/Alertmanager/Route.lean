import Alertmanager.Alert

/-!
# The routing tree

`dispatch/route.go`: the nodes of the tree and the depth-first search for the
nodes an alert is sent to, and `getGroupLabels` of `dispatch/dispatch.go`, the
labels by which a node groups its alerts.
-/
namespace Alertmanager

structure RouteOpts where
  receiver : GoString
  groupBy : List LabelName
  groupByAll : Bool
  groupWait : ℤ
  groupInterval : ℤ
  repeatInterval : ℤ
  muteTimeIntervals : List GoString
  activeTimeIntervals : List GoString
  labels : LabelSet
  deriving DecidableEq

/-- `DefaultRouteOpts`. -/
def defaultRouteOpts : RouteOpts where
  receiver := []
  groupBy := []
  groupByAll := false
  groupWait := 30 * 1000000000
  groupInterval := 5 * 60 * 1000000000
  repeatInterval := 4 * 3600 * 1000000000
  muteTimeIntervals := []
  activeTimeIntervals := []
  labels := ∅

/-- A node of the tree: its options, its matchers, `Continue`, its children, and
its index in the configuration. -/
inductive Route [Regexp]
  | node (routeOpts : RouteOpts) (matchers : Matchers) (continues : Bool)
      (routes : List Route) (idx : ℕ)

namespace Route
variable [Regexp]

def routeOpts : Route → RouteOpts
  | node opts _ _ _ _ => opts

def matchers : Route → Matchers
  | node _ ms _ _ _ => ms

def continues : Route → Bool
  | node _ _ c _ _ => c

def routes : Route → List Route
  | node _ _ _ rs _ => rs

def idx : Route → ℕ
  | node _ _ _ _ i => i

mutual

/-- `Route.Match`: the matching nodes below, or the node itself when there are none. -/
def matchNodes (lset : LabelSet) : Route → List Route
  | node opts ms c routes i =>
    if Matchers.matches ms lset then
      match matchChildren lset routes with
      | [] => [node opts ms c routes i]
      | r :: rs => r :: rs
    else []

/-- The loop over the children: it stops after the first child that matches and
does not continue. -/
def matchChildren (lset : LabelSet) : List Route → List Route
  | [] => []
  | cr :: crs =>
    let nodes := matchNodes lset cr
    if nodes ≠ [] ∧ cr.continues = false then nodes
    else nodes ++ matchChildren lset crs

end

mutual

/-- No index in the tree is above the bound. -/
def Within (bound : ℕ) : Route → Prop
  | node _ _ _ routes i => i ≤ bound ∧ AllWithin bound routes

def AllWithin (bound : ℕ) : List Route → Prop
  | [] => True
  | r :: rs => r.Within bound ∧ AllWithin bound rs

end

mutual

theorem Within.mono {b b' : ℕ} (hb : b ≤ b') : ∀ {r : Route}, r.Within b → r.Within b'
  | node _ _ _ _ _, h => ⟨h.1.trans hb, AllWithin.mono hb h.2⟩

theorem AllWithin.mono {b b' : ℕ} (hb : b ≤ b') :
    ∀ {rs : List Route}, AllWithin b rs → AllWithin b' rs
  | [], _ => trivial
  | _ :: _, h => ⟨h.1.mono hb, AllWithin.mono hb h.2⟩

end

mutual

theorem Within.matchNodes {b : ℕ} (lset : LabelSet) :
    ∀ {r : Route}, r.Within b → ∀ x ∈ r.matchNodes lset, x.idx ≤ b
  | node opts ms c routes i, h, x, hx => by
    have hchildren := AllWithin.matchChildren lset h.2
    rw [Route.matchNodes] at hx
    split_ifs at hx
    · cases hall : Route.matchChildren lset routes with
      | nil =>
        rw [hall, List.mem_singleton] at hx
        rw [hx]
        exact h.1
      | cons y ys =>
        rw [hall] at hx
        exact hchildren x (hall ▸ hx)
    · cases hx

theorem AllWithin.matchChildren {b : ℕ} (lset : LabelSet) :
    ∀ {rs : List Route}, AllWithin b rs → ∀ x ∈ matchChildren lset rs, x.idx ≤ b
  | [], _, x, hx => by cases hx
  | cr :: crs, h, x, hx => by
    have hfirst := Within.matchNodes lset h.1
    rw [Route.matchChildren] at hx
    split_ifs at hx
    · exact hfirst x hx
    · obtain hx | hx := List.mem_append.mp hx
      · exact hfirst x hx
      · exact AllWithin.matchChildren lset h.2 x hx

end

end Route

/-- `getGroupLabels`. -/
def getGroupLabels [Regexp] (a : Alert) (route : Route) : LabelSet :=
  (GoMap.sortedKeys a.labels).foldl
    (fun groupLabels ln =>
      if ln ∈ route.routeOpts.groupBy ∨ route.routeOpts.groupByAll then
        groupLabels.insert ln (LabelSet.get a.labels ln)
      else groupLabels) ∅

/-- The key of the alert's group in the map of the route. -/
def groupKey [Regexp] [LabelHash] (a : Alert) (route : Route) : Fingerprint :=
  fingerprint (getGroupLabels a route)

end Alertmanager
