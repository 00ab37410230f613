import Alertmanager.Route

/-!
# What the search of the routing tree returns

A node of a tree is its position: the child indices on the way down from the
root. Positions compare lexicographically, a node before what is below it, which
is the order of a depth-first left-to-right walk. `Selected` says which positions
`Route.Match` returns without mentioning the search.
-/
namespace Alertmanager.Route
variable [Regexp]

/-- The node at a position below the given node. -/
def nodeAt : Route → List ℕ → Option Route
  | r, [] => some r
  | r, i :: p =>
    match r.routes[i]? with
    | none => none
    | some c => c.nodeAt p

/-- The matchers of the node hold of the label set. -/
def Applies (lset : LabelSet) (r : Route) : Prop := Matchers.matches r.matchers lset = true

/-- A child of a node before the given index has taken the alert and keeps it. -/
def Taken (lset : LabelSet) (siblings : List Route) (i : ℕ) : Prop :=
  ∃ j < i, ∃ s, siblings[j]? = some s ∧ Applies lset s ∧ s.continues = false

/-- The nodes an alert is routed to: the node and its ancestors apply, none of its
children does, and neither the node nor an ancestor other than the root has an
earlier sibling that applies without `Continue`. -/
structure Selected (lset : LabelSet) (root : Route) (p : List ℕ) : Prop where
  applies : ∀ q, q <+: p → ∃ n, root.nodeAt q = some n ∧ Applies lset n
  childless : ∀ n, root.nodeAt p = some n → ∀ c ∈ n.routes, ¬ Applies lset c
  reached : ∀ q i, q ++ [i] <+: p → ∀ n, root.nodeAt q = some n → ¬ Taken lset n.routes i

variable {lset : LabelSet} {r : Route} {p : List ℕ} {i : ℕ}

theorem selected_nil : Selected lset r [] ↔
    Applies lset r ∧ ∀ c ∈ r.routes, ¬ Applies lset c := by
  constructor
  · intro h
    obtain ⟨n, hn, happ⟩ := h.applies [] List.prefix_rfl
    obtain rfl := Option.some.inj hn
    exact ⟨happ, h.childless _ rfl⟩
  · rintro ⟨happ, hchild⟩
    refine ⟨fun q hq => ?_, fun n hn => ?_, fun q i hq => ?_⟩
    · obtain rfl := List.prefix_nil.mp hq
      exact ⟨r, rfl, happ⟩
    · obtain rfl := Option.some.inj hn
      exact hchild
    · simp at hq

theorem nodeAt_cons {c : Route} (hc : r.routes[i]? = some c) (p : List ℕ) :
    r.nodeAt (i :: p) = c.nodeAt p := by
  rw [nodeAt, hc]

/-- Selection goes down one level: the node applies, the child is not cut off by an
earlier one, and the position is selected below the child. -/
theorem selected_cons : Selected lset r (i :: p) ↔
    Applies lset r ∧ ¬ Taken lset r.routes i ∧
      ∃ c, r.routes[i]? = some c ∧ Selected lset c p := by
  constructor
  · intro h
    obtain ⟨root, hroot, happ⟩ := h.applies [] List.nil_prefix
    obtain rfl := Option.some.inj hroot
    have htaken := h.reached [] i (by simp) _ rfl
    obtain ⟨n, hn, -⟩ := h.applies [i] (by simp)
    cases hc : r.routes[i]? with
    | none => simp [nodeAt, hc] at hn
    | some c =>
      have hdown : ∀ q, r.nodeAt (i :: q) = c.nodeAt q := nodeAt_cons hc
      refine ⟨happ, htaken, c, rfl, fun q hq => ?_, fun n hn => ?_, fun q j hq n hn => ?_⟩
      · rw [← hdown]
        exact h.applies (i :: q) (by simpa using hq)
      · exact h.childless n (by rwa [hdown])
      · exact h.reached (i :: q) j (by simpa using hq) n (by rwa [hdown])
  · rintro ⟨happ, htaken, c, hc, hsel⟩
    have hdown : ∀ q, r.nodeAt (i :: q) = c.nodeAt q := nodeAt_cons hc
    refine ⟨fun q hq => ?_, fun n hn => ?_, fun q j hq n hn => ?_⟩
    · cases q with
      | nil => exact ⟨r, rfl, happ⟩
      | cons k q =>
        obtain ⟨rfl, hbelow⟩ := List.cons_prefix_cons.mp hq
        rw [hdown]
        exact hsel.applies q hbelow
    · rw [hdown] at hn
      exact hsel.childless n hn
    · cases q with
      | nil =>
        obtain ⟨rfl, -⟩ := List.cons_prefix_cons.mp hq
        obtain rfl := Option.some.inj hn
        exact htaken
      | cons k q =>
        obtain ⟨rfl, hbelow⟩ := List.cons_prefix_cons.mp hq
        rw [hdown] at hn
        exact hsel.reached q j hbelow n hn

/-! ### The positions behind the result -/

mutual

/-- The positions of the nodes that `matchNodes` returns. -/
def positions (lset : LabelSet) : Route → List (List ℕ)
  | node _ ms _ routes _ =>
    if Matchers.matches ms lset then
      match positionsFrom lset 0 routes with
      | [] => [[]]
      | q :: qs => q :: qs
    else []

/-- The positions of the nodes that `matchChildren` returns for the children from
the given index on. -/
def positionsFrom (lset : LabelSet) : ℕ → List Route → List (List ℕ)
  | _, [] => []
  | i, cr :: crs =>
    let below := (positions lset cr).map (i :: ·)
    if below ≠ [] ∧ cr.continues = false then below
    else below ++ positionsFrom lset (i + 1) crs

end

theorem positions_eq_nil : positions lset r = [] ↔ ¬ Applies lset r := by
  cases r with
  | node opts ms c routes i =>
    rw [positions, Applies, matchers]
    split_ifs with h
    · cases positionsFrom lset 0 routes <;> simp [h]
    · simp [h]

theorem matchNodes_eq_nil : r.matchNodes lset = [] ↔ ¬ Applies lset r := by
  cases r with
  | node opts ms c routes i =>
    rw [matchNodes, Applies, matchers]
    split_ifs with h
    · cases matchChildren lset routes <;> simp [h]
    · simp [h]

theorem positionsFrom_eq_nil {rs : List Route} :
    positionsFrom lset i rs = [] ↔ ∀ c ∈ rs, ¬ Applies lset c := by
  induction rs generalizing i with
  | nil => simp [positionsFrom]
  | cons cr crs ih =>
    have hfirst : (positions lset cr).map (i :: ·) = [] ↔ ¬ Applies lset cr := by
      rw [List.map_eq_nil_iff, positions_eq_nil]
    rw [positionsFrom, List.forall_mem_cons]
    split_ifs with h
    · rw [← hfirst]
      simp [h.1]
    · rw [List.append_eq_nil_iff, hfirst, ih]

theorem not_taken_zero {rs : List Route} : ¬ Taken lset rs 0 := by
  rintro ⟨j, hj, -⟩
  omega

theorem taken_cons {cr : Route} {crs : List Route} {k : ℕ} :
    Taken lset (cr :: crs) (k + 1) ↔
      (Applies lset cr ∧ cr.continues = false) ∨ Taken lset crs k := by
  constructor
  · rintro ⟨j, hj, s, hs, hkeeps⟩
    cases j with
    | zero =>
      obtain rfl := Option.some.inj hs
      exact Or.inl hkeeps
    | succ j => exact Or.inr ⟨j, by omega, s, hs, hkeeps⟩
  · rintro (hkeeps | ⟨j, hj, s, hs, hkeeps⟩)
    · exact ⟨0, by omega, cr, rfl, hkeeps⟩
    · exact ⟨j + 1, by omega, s, hs, hkeeps⟩

/-- The search goes on behind a child unless that child keeps the alert. -/
theorem mem_positionsFrom_cons {cr : Route} {crs : List Route} :
    p ∈ positionsFrom lset i (cr :: crs) ↔ (∃ q ∈ positions lset cr, i :: q = p) ∨
      ¬ (Applies lset cr ∧ cr.continues = false) ∧ p ∈ positionsFrom lset (i + 1) crs := by
  have hkeeps : ((positions lset cr).map (i :: ·) ≠ [] ∧ cr.continues = false) ↔
      Applies lset cr ∧ cr.continues = false := by
    rw [Ne, List.map_eq_nil_iff, positions_eq_nil, not_not]
  rw [positionsFrom, ← List.mem_map]
  split_ifs with hcut
  · rw [hkeeps] at hcut
    simp [hcut]
  · rw [hkeeps] at hcut
    simp [hcut]

/-- The search of the children goes to those that no earlier one cuts off. -/
theorem mem_positionsFrom {rs : List Route} :
    p ∈ positionsFrom lset i rs ↔
      ∃ k q c, p = (i + k) :: q ∧ rs[k]? = some c ∧ q ∈ positions lset c ∧
        ¬ Taken lset rs k := by
  induction rs generalizing i with
  | nil => simp [positionsFrom]
  | cons cr crs ih =>
    rw [mem_positionsFrom_cons, ih]
    constructor
    · rintro (⟨q, hq, rfl⟩ | ⟨hcut, k, q, c, rfl, hc, hq, htaken⟩)
      · exact ⟨0, q, cr, rfl, rfl, hq, not_taken_zero⟩
      · refine ⟨k + 1, q, c, by rw [Nat.add_assoc, Nat.add_comm 1 k], hc, hq, ?_⟩
        rw [taken_cons, not_or]
        exact ⟨hcut, htaken⟩
    · rintro ⟨k, q, c, rfl, hc, hq, htaken⟩
      cases k with
      | zero =>
        obtain rfl := Option.some.inj hc
        exact Or.inl ⟨q, hq, rfl⟩
      | succ k =>
        rw [taken_cons, not_or] at htaken
        refine Or.inr ⟨htaken.1, k, q, c, ?_, hc, hq, htaken.2⟩
        rw [Nat.add_assoc, Nat.add_comm 1 k]

/-- The search finds exactly the selected positions. -/
theorem mem_positions : ∀ {p : List ℕ} {r : Route}, p ∈ positions lset r ↔ Selected lset r p
  | [], node opts ms c routes i => by
    rw [selected_nil, Applies, positions, matchers, Route.routes]
    split_ifs with h
    · cases hpos : positionsFrom lset 0 routes with
      | nil => simpa [h] using positionsFrom_eq_nil.mp hpos
      | cons q qs =>
        have hsome : ¬ ∀ c ∈ routes, ¬ Applies lset c := by
          rw [← positionsFrom_eq_nil (i := 0), hpos]
          simp
        have hnil : [] ∉ positionsFrom lset 0 routes := by
          rw [mem_positionsFrom]
          rintro ⟨k, q, c, h, -⟩
          cases h
        rw [hpos] at hnil
        exact iff_of_false hnil (fun hall => hsome hall.2)
    · simp [h]
  | j :: q, node opts ms c routes i => by
    rw [selected_cons, Applies, positions, matchers, Route.routes]
    split_ifs with h
    · have hmem : j :: q ∈ positionsFrom lset 0 routes ↔
          ¬ Taken lset routes j ∧ ∃ c, routes[j]? = some c ∧ Selected lset c q := by
        rw [mem_positionsFrom]
        constructor
        · rintro ⟨k, q, c, hp, hc, hq, htaken⟩
          rw [Nat.zero_add] at hp
          obtain ⟨rfl, rfl⟩ := List.cons.inj hp
          exact ⟨htaken, c, hc, mem_positions.mp hq⟩
        · rintro ⟨htaken, c, hc, hsel⟩
          exact ⟨j, q, c, by rw [Nat.zero_add], hc, mem_positions.mpr hsel, htaken⟩
      rw [← hmem]
      cases hpos : positionsFrom lset 0 routes with
      | nil => simp [h]
      | cons q qs => simp [h]
    · simp [h]

mutual

/-- The positions come in the order of a depth-first left-to-right walk. -/
theorem pairwise_positions : ∀ r : Route, (positions lset r).Pairwise (· < ·)
  | node opts ms c routes i => by
    have hbelow := pairwise_positionsFrom 0 routes
    rw [positions]
    split_ifs
    · cases hpos : positionsFrom lset 0 routes with
      | nil => exact List.pairwise_singleton _ _
      | cons q qs => rwa [hpos] at hbelow
    · exact List.Pairwise.nil

theorem pairwise_positionsFrom :
    ∀ (i : ℕ) (rs : List Route), (positionsFrom lset i rs).Pairwise (· < ·)
  | _, [] => by
    rw [positionsFrom]
    exact List.Pairwise.nil
  | i, cr :: crs => by
    have hfirst : ((positions lset cr).map (i :: ·)).Pairwise (· < ·) := by
      rw [List.pairwise_map]
      exact (pairwise_positions cr).imp fun h => List.cons_lt_cons_iff.mpr (Or.inr ⟨rfl, h⟩)
    rw [positionsFrom]
    split_ifs
    · exact hfirst
    · refine List.pairwise_append.mpr ⟨hfirst, pairwise_positionsFrom (i + 1) crs, ?_⟩
      intro a ha b hb
      obtain ⟨q, -, rfl⟩ := List.mem_map.mp ha
      obtain ⟨k, q', c, rfl, -⟩ := mem_positionsFrom.mp hb
      exact List.cons_lt_cons_iff.mpr (Or.inl (by omega))

end

mutual

theorem matchNodes_eq_positions :
    ∀ r : Route, (r.matchNodes lset).map some = (positions lset r).map r.nodeAt
  | node opts ms c routes i => by
    have hchildren := matchChildren_eq_positions (node opts ms c routes i) 0 routes rfl
    rw [matchNodes, positions]
    split_ifs
    · cases hmatch : matchChildren lset routes with
      | nil =>
        rw [hmatch, List.map_nil, eq_comm, List.map_eq_nil_iff] at hchildren
        rw [hchildren]
        rfl
      | cons x xs =>
        cases hpos : positionsFrom lset 0 routes with
        | nil =>
          rw [hmatch, hpos] at hchildren
          cases hchildren
        | cons q qs =>
          rw [hmatch, hpos] at hchildren
          exact hchildren
    · rfl

theorem matchChildren_eq_positions (r : Route) :
    ∀ (i : ℕ) (rs : List Route), r.routes.drop i = rs →
      (matchChildren lset rs).map some = (positionsFrom lset i rs).map r.nodeAt
  | _, [], _ => by
    rw [matchChildren, positionsFrom]
    rfl
  | i, cr :: crs, hdrop => by
    have hcr : r.routes[i]? = some cr := by
      rw [← List.head?_drop, hdrop]
      rfl
    have hcrs : r.routes.drop (i + 1) = crs := by
      rw [← List.drop_drop, hdrop]
      rfl
    have hfirst : (cr.matchNodes lset).map some =
        ((positions lset cr).map (i :: ·)).map r.nodeAt := by
      rw [matchNodes_eq_positions cr, List.map_map]
      exact List.map_congr_left fun q _ => (nodeAt_cons hcr q).symm
    have hempty : (cr.matchNodes lset ≠ []) ↔ (positions lset cr).map (i :: ·) ≠ [] := by
      rw [Ne, Ne, matchNodes_eq_nil, List.map_eq_nil_iff, positions_eq_nil]
    rw [matchChildren, positionsFrom]
    simp only [← hempty]
    split_ifs
    · exact hfirst
    · rw [List.map_append, List.map_append, hfirst, matchChildren_eq_positions r (i + 1) crs hcrs]

end

/-- `Route.Match` computes the declared routing: its result lists the nodes at the
selected positions, in depth-first left-to-right order and each once, and it is
empty exactly when the root does not apply. -/
theorem match_selects (root : Route) (lset : LabelSet) :
    (∃ ps : List (List ℕ),
      (root.matchNodes lset).map some = ps.map root.nodeAt ∧ ps.Pairwise (· < ·) ∧
        ∀ p, p ∈ ps ↔ Selected lset root p) ∧
      (root.matchNodes lset ≠ [] ↔ Applies lset root) := by
  refine ⟨⟨positions lset root, matchNodes_eq_positions root, pairwise_positions root,
    fun p => mem_positions⟩, ?_⟩
  rw [Ne, matchNodes_eq_nil, not_not]

end Alertmanager.Route
