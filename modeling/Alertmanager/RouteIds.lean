import Alertmanager.LogKeys

/-!
# IDs of routes

`Route.ID` prints the matchers of the nodes from the root down, each below the root
followed by its index among its siblings. The printed matchers are delimited by
themselves whatever the names and values are, and an index ends at the next slash, so the
ID can be read back from the front, one level of the tree after the other.
-/
namespace Alertmanager

/-- A decimal number ends at a slash or at the end of the text. -/
theorem str_toString_append_inj {i j : ℕ} {s t : GoString}
    (hs : s = [] ∨ ∃ rest, s = 47 :: rest) (ht : t = [] ∨ ∃ rest, t = 47 :: rest)
    (h : str (toString i) ++ s = str (toString j) ++ t) : i = j ∧ s = t := by
  -- a slash at the end makes the two cases one
  have hmark : ∀ {s : GoString}, (s = [] ∨ ∃ rest, s = 47 :: rest) →
      ∃ rest, s ++ [47] = 47 :: rest := by
    rintro s (rfl | ⟨rest, rfl⟩)
    · exact ⟨[], rfl⟩
    · exact ⟨rest ++ [47], rfl⟩
  obtain ⟨s', hs'⟩ := hmark hs
  obtain ⟨t', ht'⟩ := hmark ht
  have hlong : str (toString i) ++ 47 :: s' = str (toString j) ++ 47 :: t' := by
    rw [← hs', ← ht', ← List.append_assoc, h, List.append_assoc]
  obtain ⟨hdigits, -, hrest⟩ := eq_of_span (P := (· = 47))
    (fun b hb => ne_of_mem_of_not_mem hb (not_mem_str_toString (Or.inl rfl)))
    (fun b hb => ne_of_mem_of_not_mem hb (not_mem_str_toString (Or.inl rfl))) rfl rfl hlong
  rw [hdigits] at h
  exact ⟨str_toString_inj hdigits, List.append_cancel_left h⟩

section
variable [Regexp]

namespace Located

/-- The node to which the indexes lead from this one. -/
def descend (l : Located) (path : List ℕ) : Option Located :=
  path.foldl (fun l i => l.bind fun l => l.step i) (some l)

variable {l m : Located} {i : ℕ} {path : List ℕ}

theorem descend_cons (h : l.descend (i :: path) = some m) :
    ∃ c, l.route.routes[i]? = some c ∧ (child l i c).descend path = some m := by
  rw [descend, List.foldl_cons, Option.bind_some, step] at h
  cases hc : l.route.routes[i]? with
  | none =>
    have hstuck : ∀ path : List ℕ,
        path.foldl (fun (l : Option Located) i => l.bind fun l => l.step i) none = none := by
      intro path
      induction path with
      | nil => rfl
      | cons j path ih => exact ih
    rw [hc, Option.map_none, hstuck] at h
    cases h
  | some c =>
    rw [hc, Option.map_some] at h
    exact ⟨c, rfl, h⟩

variable [Unicode]

theorem id_child (l : Located) (i : ℕ) (c : Route) : (child l i c).id =
    l.id ++ 47 :: (Matchers.string c.matchers ++ 47 :: str (toString i)) := by
  have hslash : str "/" = [47] := rfl
  simp [id, hslash]

/-- A descendant adds whole steps to the ID, each of which begins with a slash. -/
theorem id_descend (h : l.descend path = some m) :
    ∃ below, m.id = l.id ++ below ∧ (below = [] ∨ ∃ rest, below = 47 :: rest) := by
  induction path generalizing l with
  | nil =>
    obtain rfl := Option.some.inj h
    exact ⟨[], by simp, Or.inl rfl⟩
  | cons i path ih =>
    obtain ⟨c, -, hrest⟩ := descend_cons h
    obtain ⟨below, hid, -⟩ := ih hrest
    refine ⟨47 :: (Matchers.string c.matchers ++ 47 :: (str (toString i) ++ below)), ?_,
      Or.inr ⟨_, rfl⟩⟩
    rw [hid, id_child]
    simp

end Located

variable [Unicode]

/-- Different ways down from a node give different IDs. -/
theorem Located.eq_of_id_descend {p q : List ℕ} {l m m' : Located} (hm : l.descend p = some m)
    (hm' : l.descend q = some m') (hid : m.id = m'.id) : p = q := by
  induction p generalizing l q with
  | nil =>
    obtain rfl := Option.some.inj hm
    cases q with
    | nil => rfl
    | cons j q =>
      obtain ⟨d, -, hd⟩ := descend_cons hm'
      obtain ⟨below, hbelow, -⟩ := id_descend hd
      rw [hbelow, id_child] at hid
      simp at hid
  | cons i p ih =>
    obtain ⟨c, hc, hp⟩ := descend_cons hm
    obtain ⟨below, hbelow, hstart⟩ := id_descend hp
    cases q with
    | nil =>
      obtain rfl := Option.some.inj hm'
      rw [hbelow, id_child] at hid
      simp at hid
    | cons j q =>
      obtain ⟨d, hd, hq⟩ := descend_cons hm'
      obtain ⟨below', hbelow', hstart'⟩ := id_descend hq
      have hsteps := hid
      rw [hbelow, hbelow', id_child, id_child] at hsteps
      simp only [List.append_assoc, List.append_cancel_left_eq, List.cons_append,
        List.cons.injEq, true_and] at hsteps
      obtain ⟨-, hindex⟩ := matchers_string_selfDelimiting _ _ trivial trivial _ _ hsteps
      obtain ⟨rfl, -⟩ := str_toString_append_inj hstart hstart' (List.cons.inj hindex).2
      obtain rfl := Option.some.inj (hc.symm.trans hd)
      rw [ih hp hq]

/-- The nodes of a tree have different IDs, whatever their matchers are and however the
tree was built. -/
theorem route_ids_unique (root : Route) {p q : List ℕ} {l m : Located}
    (hl : root.locate p = some l) (hm : root.locate q = some m) (hne : p ≠ q) :
    l.id ≠ m.id :=
  fun hid => hne (Located.eq_of_id_descend hl hm hid)

end

section
attribute [local instance] anyRegexp asciiUnicode

/-- Two children with the same matcher, whose value looks like the rest of an ID. -/
def twinRoutes : RouteConfig :=
  .node plainFields [.node { plainFields with matchers := [equals "a" "\"\x7d/0"] } [],
    .node { plainFields with matchers := [equals "a" "\"\x7d/0"] } []]

theorem route_ids_unique_twins :
    ∃ root n l m, newRoute (fun _ => ⟨[], [], Matchers.sort⟩) [] none 0 twinRoutes =
        some (root, n) ∧
      root.locate [0] = some l ∧ root.locate [1] = some m ∧ l.id ≠ m.id := by
  obtain ⟨⟨root, n⟩, hroot⟩ : ∃ r, newRoute (fun _ => ⟨[], [], Matchers.sort⟩) [] none 0
      twinRoutes = some r := Option.isSome_iff_exists.mp (by decide +kernel)
  have hlocated : ∀ path ∈ [[0], [1]], ((newRoute (fun _ => ⟨[], [], Matchers.sort⟩) [] none 0
      twinRoutes).bind fun r => r.1.locate path).isSome = true := by
    decide +kernel
  simp only [hroot, Option.bind_some] at hlocated
  obtain ⟨l, hl⟩ := Option.isSome_iff_exists.mp (hlocated [0] (by decide))
  obtain ⟨m, hm⟩ := Option.isSome_iff_exists.mp (hlocated [1] (by decide))
  exact ⟨root, n, l, m, hroot, hl, hm, route_ids_unique root hl hm (by decide)⟩

end

end Alertmanager
