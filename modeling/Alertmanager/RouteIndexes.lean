import Alertmanager.ConfigReferences
import Alertmanager.RouteKeys
import Alertmanager.RouteMatch

/-!
# Indexes of routes

`newRoute` numbers the nodes of a tree by a counter that it passes through the children
before it takes the number of the node itself. The numbers of a tree with `n` nodes are
therefore those below `n`, and the dispatcher can keep the groups of its routes in a slice
with one slot for each of them.
-/
namespace Alertmanager

section
variable [Regexp]

mutual

/-- The number of nodes of a configured tree. -/
def RouteConfig.size : RouteConfig → ℕ
  | .nil => 0
  | .node _ routes => RouteConfig.sizeAll routes + 1

def RouteConfig.sizeAll : List RouteConfig → ℕ
  | [] => 0
  | cr :: crs => cr.size + RouteConfig.sizeAll crs

end

namespace Route

theorem walk_eq (r : Route) : r.walk = r :: walkAll r.routes := by
  cases r
  rfl

theorem walkAll_eq_flatMap (rs : List Route) : walkAll rs = rs.flatMap walk := by
  induction rs with
  | nil => rfl
  | cons r rs ih => rw [walkAll, ih, List.flatMap_cons]

/-- Every descendant has a smaller index than the node. -/
def Descending (r : Route) : Prop := ∀ x ∈ r.walk, ∀ y ∈ walkAll x.routes, y.idx < x.idx

mutual

/-- The indexes below a node are the values that the counter takes. -/
theorem perm_newRoute {ways : List ℕ → Way} :
    ∀ {cr : RouteConfig} {path : List ℕ} {parent : Option RouteOpts} {counter c : ℕ} {r : Route},
      newRoute ways path parent counter cr = some (r, c) →
      c = counter + cr.size ∧ (r.walk.map idx).Perm (List.range' counter cr.size) ∧ r.Descending
  | .nil, _, _, _, _, _, h => by simp [newRoute] at h
  | .node cr routes, path, parent, counter, c, r, h => by
    simp only [newRoute, Option.bind_eq_some_iff, Option.map_eq_some_iff, Prod.mk.injEq] at h
    obtain ⟨ms, -, ⟨children, c'⟩, hchildren, rfl, rfl⟩ := h
    obtain ⟨rfl, hperm, hdesc⟩ := perm_newRoutes hchildren
    refine ⟨by rw [RouteConfig.size, Nat.add_assoc], ?_, ?_⟩
    · rw [walk, List.map_cons, RouteConfig.size, List.range'_concat, Nat.one_mul]
      exact (hperm.cons _).trans (List.perm_append_singleton _ _).symm
    · intro x hx y hy
      rw [walk_eq, List.mem_cons] at hx
      rcases hx with rfl | hx
      · have hrange := hperm.mem_iff.mp (List.mem_map_of_mem hy)
        rw [List.mem_range'_1] at hrange
        exact hrange.2
      · exact hdesc x hx y hy

theorem perm_newRoutes {ways : List ℕ → Way} :
    ∀ {crs : List RouteConfig} {path : List ℕ} {i : ℕ} {opts : RouteOpts} {counter c : ℕ}
      {rs : List Route}, newRoutes ways path i opts counter crs = some (rs, c) →
      c = counter + RouteConfig.sizeAll crs ∧
        ((walkAll rs).map idx).Perm (List.range' counter (RouteConfig.sizeAll crs)) ∧
        ∀ x ∈ walkAll rs, ∀ y ∈ walkAll x.routes, y.idx < x.idx
  | [], _, _, _, _, _, _, h => by
    simp only [newRoutes, Option.some.injEq, Prod.mk.injEq] at h
    obtain ⟨rfl, rfl⟩ := h
    exact ⟨rfl, List.Perm.refl _, fun x hx => by cases hx⟩
  | cr :: crs, path, i, opts, counter, c, rs, h => by
    simp only [newRoutes, Option.bind_eq_some_iff, Option.map_eq_some_iff, Prod.mk.injEq] at h
    obtain ⟨⟨r, c₁⟩, hr, ⟨rs', c₂⟩, hrs, rfl, rfl⟩ := h
    obtain ⟨rfl, hperm, hdesc⟩ := perm_newRoute hr
    obtain ⟨rfl, hperm', hdesc'⟩ := perm_newRoutes hrs
    refine ⟨by simp only [RouteConfig.sizeAll, Nat.add_assoc], ?_, fun x hx => ?_⟩
    · rw [walkAll, List.map_append, RouteConfig.sizeAll, ← List.range'_append_1]
      exact hperm.append hperm'
    · rw [walkAll, List.mem_append] at hx
      rcases hx with hx | hx
      · exact hdesc x hx
      · exact hdesc' x hx

end

theorem mem_walkAll {rs : List Route} {x : Route} :
    x ∈ walkAll rs ↔ ∃ (i : ℕ) (c : Route), rs[i]? = some c ∧ x ∈ c.walk := by
  rw [walkAll_eq_flatMap, List.mem_flatMap]
  constructor
  · rintro ⟨c, hc, hx⟩
    obtain ⟨i, hi⟩ := List.getElem?_of_mem hc
    exact ⟨i, c, hi, hx⟩
  · rintro ⟨i, c, hi, hx⟩
    exact ⟨c, List.mem_of_getElem? hi, hx⟩

theorem nodeAt_cons_eq_some {r x : Route} {i : ℕ} {p : List ℕ}
    (h : r.nodeAt (i :: p) = some x) : ∃ c, r.routes[i]? = some c ∧ c.nodeAt p = some x := by
  rw [nodeAt] at h
  cases hc : r.routes[i]? with
  | none => simp [hc] at h
  | some c => exact ⟨c, rfl, by simpa [hc] using h⟩

theorem mem_walk_of_nodeAt {p : List ℕ} {r x : Route} (h : r.nodeAt p = some x) :
    x ∈ r.walk := by
  induction p generalizing r with
  | nil =>
    obtain rfl := Option.some.inj h
    rw [walk_eq]
    exact List.mem_cons_self
  | cons i p ih =>
    obtain ⟨c, hc, hx⟩ := nodeAt_cons_eq_some h
    rw [walk_eq]
    exact List.mem_cons_of_mem r (mem_walkAll.mpr ⟨i, c, hc, ih hx⟩)

mutual

theorem exists_nodeAt {x : Route} : ∀ {r : Route}, x ∈ r.walk → ∃ p, r.nodeAt p = some x
  | node opts ms c routes i, h => by
    rw [walk, List.mem_cons] at h
    rcases h with rfl | h
    · exact ⟨[], rfl⟩
    · obtain ⟨j, d, hd, p, hp⟩ := exists_nodeAt_child h
      exact ⟨j :: p, (nodeAt_cons hd p).trans hp⟩

theorem exists_nodeAt_child {x : Route} : ∀ {rs : List Route}, x ∈ walkAll rs →
    ∃ (j : ℕ) (d : Route), rs[j]? = some d ∧ ∃ p, d.nodeAt p = some x
  | [], h => by cases h
  | r :: rs, h => by
    rw [walkAll, List.mem_append] at h
    rcases h with h | h
    · exact ⟨0, r, rfl, exists_nodeAt h⟩
    · obtain ⟨j, d, hd, hp⟩ := exists_nodeAt_child h
      exact ⟨j + 1, d, hd, hp⟩

end

/-- If the indexes differ, a node is not below itself. -/
theorem nodeAt_cons_ne_self {r : Route} (hnodup : (r.walk.map idx).Nodup) (i : ℕ)
    (p : List ℕ) : r.nodeAt (i :: p) ≠ some r := by
  intro h
  obtain ⟨c, hc, hx⟩ := nodeAt_cons_eq_some h
  rw [walk_eq, List.map_cons, List.nodup_cons] at hnodup
  exact hnodup.1 (List.mem_map_of_mem (mem_walkAll.mpr ⟨i, c, hc, mem_walk_of_nodeAt hx⟩))

/-- If the indexes differ, a node is below one child only. -/
theorem child_unique {rs : List Route} (hnodup : ((walkAll rs).map idx).Nodup) {i j : ℕ}
    {c d x : Route} (hc : rs[i]? = some c) (hd : rs[j]? = some d) (hxc : x ∈ c.walk)
    (hxd : x ∈ d.walk) : i = j := by
  rw [walkAll_eq_flatMap, List.map_flatMap, List.nodup_flatMap] at hnodup
  obtain ⟨hi, rfl⟩ := List.getElem?_eq_some_iff.mp hc
  obtain ⟨hj, rfl⟩ := List.getElem?_eq_some_iff.mp hd
  have hpair := List.pairwise_iff_getElem.mp hnodup.2
  rcases Nat.lt_trichotomy i j with hlt | heq | hgt
  · exact absurd (List.mem_map_of_mem hxd) (hpair i j hi hj hlt (List.mem_map_of_mem hxc))
  · exact heq
  · exact absurd (List.mem_map_of_mem hxc) (hpair j i hj hi hgt (List.mem_map_of_mem hxd))

/-- If the indexes differ, a node is at one position only. -/
theorem eq_of_nodeAt {p q : List ℕ} {r x : Route} (hnodup : (r.walk.map idx).Nodup)
    (hp : r.nodeAt p = some x) (hq : r.nodeAt q = some x) : p = q := by
  induction p generalizing r q with
  | nil =>
    obtain rfl := Option.some.inj hp
    cases q with
    | nil => rfl
    | cons j q => exact absurd hq (nodeAt_cons_ne_self hnodup j q)
  | cons i p ih =>
    cases q with
    | nil =>
      obtain rfl := Option.some.inj hq
      exact absurd hp (nodeAt_cons_ne_self hnodup i p)
    | cons j q =>
      obtain ⟨c, hc, hxc⟩ := nodeAt_cons_eq_some hp
      obtain ⟨d, hd, hxd⟩ := nodeAt_cons_eq_some hq
      rw [walk_eq, List.map_cons, List.nodup_cons] at hnodup
      obtain rfl := child_unique hnodup.2 hc hd (mem_walk_of_nodeAt hxc)
        (mem_walk_of_nodeAt hxd)
      obtain rfl := Option.some.inj (hc.symm.trans hd)
      have hbelow : (c.walk.map idx).Nodup := by
        have hall := hnodup.2
        rw [walkAll_eq_flatMap, List.map_flatMap, List.nodup_flatMap] at hall
        exact hall.1 c (List.mem_of_getElem? hc)
      rw [ih hbelow hxc hxd]

end Route

/-- One visit of `Dispatcher.Run`'s `Walk`. An index out of range panics. -/
def fillSlot (slots : List (Option Route)) (r : Route) : Option (List (Option Route)) :=
  if r.idx < slots.length then some (slots.set r.idx (some r)) else none

/-- The slice of the route groups as `Dispatcher.Run` allocates and fills it, with the
route of each slot. -/
def routeGroupsSlice (root : Route) : Option (List (Option Route)) :=
  root.walk.foldlM fillSlot (List.replicate (root.idx + 1) none)

/-- Routes with different indexes in range fill different slots. -/
theorem foldlM_fillSlot {rs : List Route} {slots : List (Option Route)}
    (hnodup : (rs.map Route.idx).Nodup) (hrange : ∀ r ∈ rs, r.idx < slots.length) :
    ∃ filled, rs.foldlM fillSlot slots = some filled ∧ filled.length = slots.length ∧
      (∀ r ∈ rs, filled[r.idx]? = some (some r)) ∧
      ∀ i, i ∉ rs.map Route.idx → filled[i]? = slots[i]? := by
  induction rs generalizing slots with
  | nil => exact ⟨slots, rfl, rfl, by simp, fun i _ => rfl⟩
  | cons r rs ih =>
    rw [List.map_cons, List.nodup_cons] at hnodup
    have hr : r.idx < slots.length := hrange r List.mem_cons_self
    have hfill : fillSlot slots r = some (slots.set r.idx (some r)) := if_pos hr
    have hrange' : ∀ x ∈ rs, x.idx < (slots.set r.idx (some r)).length := by
      intro x hx
      rw [List.length_set]
      exact hrange x (List.mem_cons_of_mem r hx)
    obtain ⟨filled, hfold, hlength, hslots, hrest⟩ := ih hnodup.2 hrange'
    refine ⟨filled, ?_, hlength.trans List.length_set, fun x hx => ?_, fun i hi => ?_⟩
    · rw [List.foldlM_cons, hfill]
      exact hfold
    · rcases List.mem_cons.mp hx with rfl | hx
      · rw [hrest _ hnodup.1, List.getElem?_set_self hr]
      · exact hslots x hx
    · rw [List.map_cons, List.mem_cons, not_or] at hi
      rw [hrest i hi.2, List.getElem?_set_ne (Ne.symm hi.1)]

/-- The nodes of a tree are numbered densely, each after its descendants. The slice of
the dispatcher therefore has a slot for every node and the slot of a matched route is its
own. -/
theorem route_indexes_dense {ways : List ℕ → Way} {cr : RouteConfig} {root : Route} {n : ℕ}
    (hroot : newRoute ways [] none 0 cr = some (root, n)) :
    n = cr.size ∧ (root.walk.map Route.idx).Nodup ∧
      (∀ i, i ∈ root.walk.map Route.idx ↔ i < n) ∧ root.Descending ∧ root.idx + 1 = n ∧
      (root.walk.Nodup ∧ root.walk.length = n ∧
        ∀ x, x ∈ root.walk ↔ ∃! p, root.nodeAt p = some x) ∧
      ∃ slots, routeGroupsSlice root = some slots ∧ slots.length = n ∧
        (∀ i < n, ∃ x ∈ root.walk, x.idx = i ∧ slots[i]? = some (some x)) ∧
        ∀ lset, ∀ r ∈ root.matchNodes lset, slots[r.idx]? = some (some r) ∧
          ∀ x ∈ root.walk, x.idx = r.idx → x = r := by
  obtain ⟨hsize, hperm, hdesc⟩ := Route.perm_newRoute hroot
  obtain ⟨-, hn, -⟩ := newRoute_within hroot
  rw [Nat.zero_add] at hsize
  subst hsize
  have hnodup : (root.walk.map Route.idx).Nodup := hperm.nodup_iff.mpr List.nodup_range'
  have hmem : ∀ i, i ∈ root.walk.map Route.idx ↔ i < cr.size := by
    intro i
    rw [hperm.mem_iff, List.mem_range'_1]
    omega
  have hlength : root.walk.length = cr.size := by
    rw [← List.length_map Route.idx, hperm.length_eq, List.length_range']
  have hnode : ∀ x, x ∈ root.walk ↔ ∃! p, root.nodeAt p = some x := by
    intro x
    constructor
    · intro hx
      obtain ⟨p, hp⟩ := Route.exists_nodeAt hx
      exact ⟨p, hp, fun q hq => Route.eq_of_nodeAt hnodup hq hp⟩
    · rintro ⟨p, hp, -⟩
      exact Route.mem_walk_of_nodeAt hp
  have hrange : ∀ x ∈ root.walk,
      x.idx < (List.replicate (root.idx + 1) (none : Option Route)).length := by
    intro x hx
    rw [List.length_replicate, ← hn]
    exact (hmem _).mp (List.mem_map_of_mem hx)
  obtain ⟨slots, hslots, hslotsLength, hfilled, -⟩ := foldlM_fillSlot hnodup hrange
  rw [List.length_replicate, ← hn] at hslotsLength
  refine ⟨rfl, hnodup, hmem, hdesc, hn.symm, ⟨hnodup.of_map _, hlength, hnode⟩, slots, hslots,
    hslotsLength, fun i hi => ?_, fun lset r hr => ?_⟩
  · obtain ⟨x, hx, rfl⟩ := List.mem_map.mp ((hmem i).mpr hi)
    exact ⟨x, hx, rfl, hfilled x hx⟩
  · have hrmem := Route.mem_walk_of_matchNodes hr
    exact ⟨hfilled r hrmem, fun x hx hidx => List.inj_on_of_nodup_map hnodup hx hrmem hidx⟩

end

section
attribute [local instance] anyRegexp

theorem route_indexes_dense_team :
    ∃ root, newRoute (childWay [str "team", str "env"]) [] none 0
        (teamRoute [equals "zone" "a"]) = some (root, 2) ∧ root.idx = 1 ∧
      ∃ slots, routeGroupsSlice root = some slots ∧ slots.length = 2 := by
  obtain ⟨⟨root, n⟩, hroot⟩ : ∃ r, newRoute (childWay [str "team", str "env"]) [] none 0
      (teamRoute [equals "zone" "a"]) = some r := Option.isSome_iff_exists.mp (by decide +kernel)
  obtain ⟨rfl, -, -, -, hidx, -, slots, hslots, hlength, -⟩ := route_indexes_dense hroot
  exact ⟨root, hroot, Nat.succ.inj hidx, slots, hslots, hlength⟩

end

end Alertmanager
