import Mathlib.Data.Finmap
import Mathlib.Tactic

/-!
# Finite maps and the orders in which they are ranged over

A Go map is a finite map without an order. A `range` loop visits every key once,
in an order the language leaves open, so a loop is modelled by a function of the
visited key list and every result holds for all lists that enumerate the keys.
Equality is extensional: two maps with the same lookups are equal.
-/
namespace Alertmanager

abbrev GoMap (K V : Type*) := Finmap (fun _ : K => V)

namespace GoMap
variable {K V : Type*} [DecidableEq K]

theorem lookup_insert_eq (m : GoMap K V) (k k' : K) (v : V) :
    (m.insert k v).lookup k' = if k' = k then some v else m.lookup k' := by
  split_ifs with h
  · subst h
    exact Finmap.lookup_insert m
  · exact Finmap.lookup_insert_of_ne m h

theorem lookup_erase_eq (m : GoMap K V) (k k' : K) :
    (m.erase k).lookup k' = if k' = k then none else m.lookup k' := by
  split_ifs with h
  · subst h
    exact Finmap.lookup_erase k' m
  · exact Finmap.lookup_erase_ne h

/-- Deleting the keys of the elements of a list, one after the other. -/
theorem lookup_foldl_erase {α : Type*} (key : α → K) (l : List α) (m : GoMap K V) (k : K) :
    (l.foldl (fun m a => m.erase (key a)) m).lookup k =
      if k ∈ l.map key then none else m.lookup k := by
  induction l generalizing m with
  | nil => simp
  | cons a l ih =>
    rw [List.foldl_cons, ih, lookup_erase_eq]
    by_cases hk : k = key a
    · simp [hk]
    · simp [hk]

/-- Storing the elements of a list, one after the other. -/
theorem mem_foldl_insert {α : Type*} (key : α → K) (value : α → V) {l : List α} {m : GoMap K V}
    {k : K} :
    k ∈ l.foldl (fun m a => m.insert (key a) (value a)) m ↔ k ∈ l.map key ∨ k ∈ m := by
  induction l generalizing m with
  | nil => simp
  | cons a l ih =>
    rw [List.foldl_cons, ih, Finmap.mem_insert, List.map_cons, List.mem_cons]
    tauto

theorem mem_of_lookup {m : GoMap K V} {k : K} {v : V} (h : m.lookup k = some v) : k ∈ m :=
  Finmap.mem_iff.mpr ⟨v, h⟩

/-- A list is a possible visiting order of a `range` loop over the map. -/
structure Ranges (m : GoMap K V) (order : List K) : Prop where
  nodup : order.Nodup
  mem : ∀ k, k ∈ order ↔ k ∈ m

theorem ranges_iff {m : GoMap K V} {order : List K} :
    Ranges m order ↔ order.Nodup ∧ order.toFinset = m.keys := by
  constructor
  · intro h
    refine ⟨h.nodup, ?_⟩
    ext k
    rw [List.mem_toFinset, h.mem k, Finmap.mem_keys]
  · rintro ⟨hnodup, hkeys⟩
    refine ⟨hnodup, fun k => ?_⟩
    rw [← List.mem_toFinset, hkeys, Finmap.mem_keys]

instance (m : GoMap K V) (order : List K) : Decidable (Ranges m order) :=
  decidable_of_iff _ ranges_iff.symm

/-- A condition on the value of a key is decided at that value, also where the
type of the values is finite and could be enumerated. -/
instance (priority := 2000) decidableForallLookup (m : GoMap K V) (k : K) (p : V → Prop)
    [DecidablePred p] : Decidable (∀ v ∈ m.lookup k, p v) :=
  Option.decidableForallMem (m.lookup k)

/-- A condition on all keys is decided at the keys of the map. -/
instance (priority := 2000) decidableForallKeys (m : GoMap K V) (p : K → Prop)
    [DecidablePred p] : Decidable (∀ k ∈ m.keys, p k) :=
  Finset.decidableDforallFinset

/-- `len(m)`. -/
def len (m : GoMap K V) : ℕ := m.keys.card

theorem len_eq_zero {m : GoMap K V} : len m = 0 ↔ ∀ k, m.lookup k = none := by
  rw [len, Finset.card_eq_zero, Finset.eq_empty_iff_forall_notMem]
  simp only [Finmap.mem_keys, Finmap.lookup_eq_none]

/-- A loop over an empty map visits no key. -/
theorem Ranges.eq_nil {m : GoMap K V} {order : List K} (ho : Ranges m order) (h : len m = 0) :
    order = [] := by
  rw [List.eq_nil_iff_forall_not_mem]
  intro k hk
  obtain ⟨v, hv⟩ := Finmap.mem_iff.mp ((ho.mem k).mp hk)
  rw [len_eq_zero.mp h k] at hv
  cases hv

/-- The keys collected by a `range` loop and then sorted: the visiting order does
not matter. -/
def sortedKeys {K V : Type*} [LinearOrder K] (m : GoMap K V) : List K :=
  Quotient.liftOn m.keys.val (List.insertionSort (· ≤ ·)) fun l₁ l₂ h => by
    have hperm : (l₁.insertionSort (· ≤ ·)).Perm (l₂.insertionSort (· ≤ ·)) :=
      (List.perm_insertionSort _ l₁).trans
        ((show l₁.Perm l₂ from h).trans (List.perm_insertionSort _ l₂).symm)
    exact hperm.eq_of_pairwise' (List.pairwise_insertionSort _ l₁)
      (List.pairwise_insertionSort _ l₂)

theorem exists_sortedKeys_eq {K V : Type*} [LinearOrder K] (m : GoMap K V) :
    ∃ l, Ranges m l ∧ sortedKeys m = l.insertionSort (· ≤ ·) := by
  obtain ⟨l, hl⟩ := Quotient.exists_rep m.keys.val
  have hnodup : Multiset.Nodup (Quotient.mk _ l) := by
    rw [hl]
    exact m.keys.nodup
  refine ⟨l, ⟨hnodup, fun k => ?_⟩, ?_⟩
  · rw [← Finmap.mem_keys, ← Finset.mem_val, ← hl]
    rfl
  · unfold sortedKeys
    rw [← hl]
    rfl

theorem mem_sortedKeys {K V : Type*} [LinearOrder K] {m : GoMap K V} {k : K} :
    k ∈ sortedKeys m ↔ k ∈ m := by
  obtain ⟨l, hl, hkeys⟩ := exists_sortedKeys_eq m
  rw [hkeys, List.mem_insertionSort, hl.mem k]

theorem ranges_sortedKeys {K V : Type*} [LinearOrder K] (m : GoMap K V) :
    Ranges m (sortedKeys m) := by
  obtain ⟨l, hl, hkeys⟩ := exists_sortedKeys_eq m
  refine ⟨?_, fun k => mem_sortedKeys⟩
  rw [hkeys]
  exact (List.perm_insertionSort _ l).nodup_iff.mpr hl.nodup

/-- Sorting the keys of one `range` loop gives the same list as any other. -/
theorem Ranges.insertionSort_eq {K V : Type*} [LinearOrder K] {m : GoMap K V} {order : List K}
    (ho : Ranges m order) : order.insertionSort (· ≤ ·) = sortedKeys m := by
  have hperm : (order.insertionSort (· ≤ ·)).Perm (sortedKeys m) :=
    (List.perm_insertionSort _ order).trans ((List.perm_ext_iff_of_nodup ho.nodup
      (ranges_sortedKeys m).nodup).mpr fun k => by rw [ho.mem k, mem_sortedKeys])
  obtain ⟨l, -, hkeys⟩ := exists_sortedKeys_eq m
  rw [hkeys] at hperm ⊢
  exact hperm.eq_of_pairwise' (List.pairwise_insertionSort _ order)
    (List.pairwise_insertionSort _ l)

/-- The loop that deletes the visited entries satisfying a test, as deletion
during a `range` is allowed to do. -/
def deleteWhere (p : K → V → Bool) : List K → GoMap K V → GoMap K V
  | [], m => m
  | k :: order, m =>
    match m.lookup k with
    | none => deleteWhere p order m
    | some v => deleteWhere p order (if p k v then m.erase k else m)

/-- The values the same loop appends to its result, in visiting order. -/
def deletedWhere (p : K → V → Bool) (order : List K) (m : GoMap K V) : List V :=
  order.filterMap fun k => (m.lookup k).filter (p k)

theorem lookup_deleteWhere (p : K → V → Bool) (order : List K) (m : GoMap K V) (k : K) :
    (deleteWhere p order m).lookup k =
      (m.lookup k).filter (fun v => !(decide (k ∈ order) && p k v)) := by
  induction order generalizing m with
  | nil => cases hk : m.lookup k <;> simp [deleteWhere, hk, Option.filter]
  | cons k₀ order ih =>
    cases hk₀ : m.lookup k₀ with
    | none =>
      simp only [deleteWhere, hk₀, ih]
      by_cases hk : k = k₀
      · subst hk
        simp [hk₀]
      · simp [hk]
    | some v =>
      simp only [deleteWhere, hk₀, ih]
      by_cases hk : k = k₀
      · subst hk
        by_cases hp : p k v = true
        · simp [hp, hk₀, Option.filter]
        · simp [hp, hk₀, Option.filter]
      · by_cases hp : p k₀ v = true
        · simp [hp, hk, Finmap.lookup_erase_ne hk]
        · simp [hp, hk]

theorem lookup_deleteWhere_of_ranges (p : K → V → Bool) {order : List K} {m : GoMap K V}
    (ho : Ranges m order) (k : K) :
    (deleteWhere p order m).lookup k = (m.lookup k).filter (fun v => !p k v) := by
  rw [lookup_deleteWhere]
  cases hk : m.lookup k with
  | none => rfl
  | some v =>
    have hmem : k ∈ order := (ho.mem k).mpr (mem_of_lookup hk)
    simp [hmem]

theorem mem_deletedWhere (p : K → V → Bool) {order : List K} {m : GoMap K V}
    (ho : Ranges m order) (v : V) :
    v ∈ deletedWhere p order m ↔ ∃ k, m.lookup k = some v ∧ p k v = true := by
  simp only [deletedWhere, List.mem_filterMap, Option.filter_eq_some_iff]
  constructor
  · rintro ⟨k, -, hk, hp⟩
    exact ⟨k, hk, hp⟩
  · rintro ⟨k, hk, hp⟩
    exact ⟨k, (ho.mem k).mpr (mem_of_lookup hk), hk, hp⟩

end GoMap

end Alertmanager
