import Alertmanager.RouteConfig

/-!
# Keys of routes and of aggregation groups

`Route.Key`, `Route.ID` and `aggrGroup.GroupKey`. A node knows its parent, so a node is
given here with the way to it from the root. Peers that load equivalent configurations
build the same tree, whatever the order in which they range over the maps and whatever
their sort does with ties, and so they use the same keys.
-/
namespace Alertmanager

section
variable [Regexp]

/-- A node with its parents, and its index among the children of its parent. -/
inductive Located
  | root (r : Route)
  | child (parent : Located) (i : ℕ) (r : Route)

namespace Located

def route : Located → Route
  | root r => r
  | child _ _ r => r

/-- `Route.Key`. -/
def key [Unicode] : Located → GoString
  | root r => Matchers.string r.matchers
  | child parent _ r => parent.key ++ (str "/" ++ Matchers.string r.matchers)

/-- `Route.ID`. -/
def id [Unicode] : Located → GoString
  | root r => Matchers.string r.matchers
  | child parent i r =>
    parent.id ++ (str "/" ++ Matchers.string r.matchers) ++ (str "/" ++ str (toString i))

/-- The sorted matchers of the nodes from the root to this one. -/
def matchersFromRoot : Located → List Matchers
  | root r => [r.matchers]
  | child parent _ r => parent.matchersFromRoot ++ [r.matchers]

def step (l : Located) (i : ℕ) : Option Located := l.route.routes[i]?.map (child l i)

end Located

/-- The node to which the indexes lead. -/
def Route.locate (root : Route) (path : List ℕ) : Option Located :=
  path.foldl (fun l i => l.bind fun l => l.step i) (some (.root root))

end

/-- A pair as `model.LabelSet.String` prints it: the name bare, the value quoted. -/
def LabelSet.pairString [Unicode] (ls : LabelSet) (ln : LabelName) : GoString :=
  ln ++ (str "=" ++ Strconv.quote (LabelSet.get ls ln))

/-- `model.LabelSet.String`. -/
def LabelSet.string [Unicode] (ls : LabelSet) : GoString :=
  123 :: ((str ", ").intercalate ((GoMap.sortedKeys ls).map (LabelSet.pairString ls)) ++ [125])

/-- `aggrGroup.GroupKey`. -/
def groupKeyString [Unicode] (routeKey : GoString) (labels : LabelSet) : GoString :=
  routeKey ++ (str ":" ++ LabelSet.string labels)

/-! ### Equivalent configurations -/

theorem perm_of_ranges {K V : Type*} [DecidableEq K] {m : GoMap K V} {order order' : List K}
    (h : GoMap.Ranges m order) (h' : GoMap.Ranges m order') : order.Perm order' := by
  rw [List.perm_ext_iff_of_nodup h.nodup h'.nodup]
  intro k
  rw [h.mem, h'.mem]

theorem mapM_eq_ite {α β : Type*} (f : α → Option β) (l : List α) :
    l.mapM f = if ∀ a ∈ l, (f a).isSome = true then some (l.filterMap f) else none := by
  induction l with
  | nil => simp
  | cons a l ih =>
    cases ha : f a with
    | none => simp [ha]
    | some b =>
      simp only [List.mapM_cons, ha, ih, List.filterMap_cons, List.forall_mem_cons,
        Option.isSome_some, true_and]
      split_ifs <;> simp

section
variable [Regexp]

mutual

/-- The same configured tree but for the order of the matchers of each node. -/
def Reordered : RouteConfig → RouteConfig → Prop
  | .nil, .nil => True
  | .node cr crs, .node cr' crs' =>
    (∃ ms, cr.matchers.Perm ms ∧ cr' = { cr with matchers := ms }) ∧ ReorderedAll crs crs'
  | _, _ => False

def ReorderedAll : List RouteConfig → List RouteConfig → Prop
  | [], [] => True
  | cr :: crs, cr' :: crs' => Reordered cr cr' ∧ ReorderedAll crs crs'
  | _, _ => False

end

/-- Loops over one map in different orders fail together, or append the same matchers. -/
theorem matchersOf_perm (t : MatchType) (value : GoString → GoString)
    {m : GoMap GoString GoString} {order order' : List GoString} (h : GoMap.Ranges m order)
    (h' : GoMap.Ranges m order') :
    (matchersOf t value m order = none ∧ matchersOf t value m order' = none) ∨
      ∃ ms ms', matchersOf t value m order = some ms ∧ matchersOf t value m order' = some ms' ∧
        ms.Perm ms' := by
  have hperm := perm_of_ranges h h'
  simp only [matchersOf, mapM_eq_ite]
  by_cases hall : ∀ ln ∈ order, (newMatcher t ln (value ((m.lookup ln).getD []))).isSome = true
  · have hall' : ∀ ln ∈ order',
        (newMatcher t ln (value ((m.lookup ln).getD []))).isSome = true :=
      fun ln hln => hall ln (hperm.mem_iff.mpr hln)
    rw [if_pos hall, if_pos hall']
    exact Or.inr ⟨_, _, rfl, rfl, hperm.filterMap _⟩
  · have hall' : ¬ ∀ ln ∈ order',
        (newMatcher t ln (value ((m.lookup ln).getD []))).isSome = true :=
      fun h => hall fun ln hln => h ln (hperm.mem_iff.mp hln)
    rw [if_neg hall, if_neg hall']
    exact Or.inl ⟨rfl, rfl⟩

/-- Equivalent nodes collect the same matchers in some order. -/
theorem collect_perm {cr : RouteFields} {ms : Matchers} (hperm : cr.matchers.Perm ms)
    {w w' : Way} (hw : w.Valid cr) (hw' : w'.Valid { cr with matchers := ms }) :
    (cr.collect w = none ∧ { cr with matchers := ms }.collect w' = none) ∨
      ∃ l l', cr.collect w = some l ∧ { cr with matchers := ms }.collect w' = some l' ∧
        l.Perm l' := by
  simp only [RouteFields.collect]
  obtain ⟨h, h'⟩ | ⟨eqs, eqs', h, h', heqs⟩ :=
    matchersOf_perm .equal id hw.matchOrder hw'.matchOrder
  · rw [h, h']
    exact Or.inl ⟨rfl, rfl⟩
  · rw [h, h']
    obtain ⟨hr, hr'⟩ | ⟨res, res', hr, hr', hres⟩ :=
      matchersOf_perm .regexp anchored hw.matchREOrder hw'.matchREOrder
    · rw [hr, hr']
      exact Or.inl ⟨rfl, rfl⟩
    · rw [hr, hr']
      exact Or.inr ⟨_, _, rfl, rfl, (heqs.append hres).append hperm⟩

mutual

/-- Equivalent configurations give the same tree. -/
theorem newRoute_eq {ways ways' : List ℕ → Way} {path : List ℕ} (parent : Option RouteOpts)
    (counter : ℕ) : (cr cr' : RouteConfig) → Reordered cr cr' → ValidWays ways path cr →
    ValidWays ways' path cr' →
    newRoute ways path parent counter cr = newRoute ways' path parent counter cr'
  | .nil, .nil, _, _, _ => rfl
  | .node cr crs, .node _ crs', ⟨⟨ms, hperm, rfl⟩, hall⟩, ⟨hw, hws⟩, ⟨hw', hws'⟩ => by
    simp only [newRoute, newRoutes_eq 0 _ counter crs crs' hall hws hws']
    obtain ⟨h, h'⟩ | ⟨l, l', h, h', hl⟩ := collect_perm hperm hw hw'
    · rw [h, h']
      rfl
    · rw [h, h']
      simp only [Option.bind_some, (hw.sort l).eq (hw'.sort l') hl]
      rfl
  | .nil, .node _ _, h, _, _ => h.elim
  | .node _ _, .nil, h, _, _ => h.elim

theorem newRoutes_eq {ways ways' : List ℕ → Way} {path : List ℕ} (i : ℕ) (opts : RouteOpts)
    (counter : ℕ) : (crs crs' : List RouteConfig) → ReorderedAll crs crs' →
    ValidWaysFrom ways path i crs → ValidWaysFrom ways' path i crs' →
    newRoutes ways path i opts counter crs = newRoutes ways' path i opts counter crs'
  | [], [], _, _, _ => rfl
  | cr :: crs, cr' :: crs', ⟨hcr, hall⟩, ⟨hw, hws⟩, ⟨hw', hws'⟩ => by
    simp only [newRoutes, newRoute_eq (some opts) counter cr cr' hcr hw hw']
    cases newRoute ways' (path ++ [i]) (some opts) counter cr' with
    | none => rfl
    | some r =>
      simp only [Option.bind_some, newRoutes_eq (i + 1) opts r.2 crs crs' hall hws hws']
  | [], _ :: _, h, _, _ => h.elim
  | _ :: _, [], h, _, _ => h.elim

end

/-- Peers with equivalent configurations agree on the keys: two ways of building a
configured tree, with any order of the maps and any permutation of the matchers of each
node, give corresponding nodes the same sorted matchers, the same key and ID, the same
matching label sets and the same group keys. -/
theorem peers_agree_on_keys [Unicode] {ways ways' : List ℕ → Way} {cr cr' : RouteConfig}
    (hcr : Reordered cr cr') (hways : ValidWays ways [] cr) (hways' : ValidWays ways' [] cr')
    {root : Route} {n : ℕ} (hroot : newRoute ways [] none 0 cr = some (root, n)) :
    ∃ root', newRoute ways' [] none 0 cr' = some (root', n) ∧ ∀ path l,
      root.locate path = some l → ∃ l', root'.locate path = some l' ∧
        l.route.matchers = l'.route.matchers ∧ l.key = l'.key ∧ l.id = l'.id ∧
        (∀ lset, Matchers.matches l.route.matchers lset =
          Matchers.matches l'.route.matchers lset) ∧
        ∀ labels, groupKeyString l.key labels = groupKeyString l'.key labels := by
  rw [newRoute_eq none 0 cr cr' hcr hways hways'] at hroot
  exact ⟨root, hroot, fun path l hl => ⟨l, hl, rfl, rfl, rfl, fun _ => rfl, fun _ => rfl⟩⟩

end

section
attribute [local instance] anyRegexp asciiUnicode

def plainFields : RouteFields where
  receiver := []
  groupBy := none
  groupByAll := false
  matchEq := ∅
  matchRE := ∅
  matchers := []
  muteTimeIntervals := []
  activeTimeIntervals := []
  continues := false
  groupWait := none
  groupInterval := none
  repeatInterval := none
  labels := ∅

def equals (name value : String) : Matcher :=
  ⟨.equal, str name, str value, by simp [MatchType.isRegexp]⟩

/-- A route below the root, with two matchers in a map and two in a list. -/
def teamRoute (ms : Matchers) : RouteConfig :=
  .node { plainFields with receiver := str "default" }
    [.node { plainFields with
      matchEq := List.toFinmap [⟨str "team", str "db"⟩, ⟨str "env", str "prod"⟩]
      matchers := ms } []]

/-- The maps of the child are ranged over in the given order. -/
def childWay (order : List GoString) (path : List ℕ) : Way :=
  ⟨if path = [0] then order else [], [], Matchers.sort⟩

theorem validWays_childWay {ms : Matchers} {order : List GoString}
    (h : GoMap.Ranges (List.toFinmap [⟨str "team", str "db"⟩, ⟨str "env", str "prod"⟩] :
      GoMap GoString GoString) order) :
    ValidWays (childWay order) [] (teamRoute ms) := by
  have hempty : GoMap.Ranges (∅ : GoMap GoString GoString) [] := by decide
  exact ⟨⟨hempty, hempty, Matchers.isSort_sort⟩, ⟨⟨h, hempty, Matchers.isSort_sort⟩, trivial⟩,
    trivial⟩

theorem peers_agree_on_keys_team :
    let ms := [equals "zone" "a", equals "alertname" "Down"]
    ∃ root root' n, newRoute (childWay [str "team", str "env"]) [] none 0 (teamRoute ms) =
        some (root, n) ∧
      newRoute (childWay [str "env", str "team"]) [] none 0 (teamRoute ms.reverse) =
        some (root', n) ∧
      ∀ l, root.locate [0] = some l → ∃ l', root'.locate [0] = some l' ∧ l.key = l'.key := by
  intro ms
  obtain ⟨⟨root, n⟩, hroot⟩ : ∃ r, newRoute (childWay [str "team", str "env"]) [] none 0
      (teamRoute ms) = some r := Option.isSome_iff_exists.mp (by decide +kernel)
  have hreordered : Reordered (teamRoute ms) (teamRoute ms.reverse) :=
    ⟨⟨[], List.Perm.refl _, rfl⟩,
      ⟨⟨ms.reverse, (List.reverse_perm ms).symm, rfl⟩, trivial⟩, trivial⟩
  have hways' : ValidWays (childWay [str "env", str "team"]) [] (teamRoute ms.reverse) :=
    validWays_childWay (by decide)
  obtain ⟨root', hroot', hagree⟩ := peers_agree_on_keys hreordered
    (validWays_childWay (by decide)) hways' hroot
  refine ⟨root, root', n, hroot, hroot', fun l hl => ?_⟩
  obtain ⟨l', hl', -, hkey, -⟩ := hagree [0] l hl
  exact ⟨l', hl', hkey⟩

end

end Alertmanager
