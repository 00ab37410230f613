import Mathlib.Tactic

/-!
# Binary search for the first index satisfying a predicate

The loop of `sort.Search`. The number of rounds is bounded by the width of the
interval, which is passed as the fuel. If the predicate, once true, stays true,
the result separates the indices where it fails from those where it holds.
-/
namespace Alertmanager.BinarySearch

/-- The loop between the bounds `i` and `j`. -/
def searchLoop (f : ℕ → Bool) : ℕ → ℕ → ℕ → ℕ
  | 0, i, _ => i
  | fuel + 1, i, j =>
    if i < j then
      let h := (i + j) / 2
      if f h then searchLoop f fuel i h else searchLoop f fuel (h + 1) j
    else i

/-- `sort.Search`. -/
def search (n : ℕ) (f : ℕ → Bool) : ℕ := searchLoop f n 0 n

theorem searchLoop_spec {n : ℕ} {f : ℕ → Bool}
    (hmono : ∀ i j, i ≤ j → j < n → f i = true → f j = true)
    (fuel i j : ℕ) (hij : i ≤ j) (hjn : j ≤ n) (hfuel : j - i ≤ fuel)
    (hlow : ∀ k, k < i → f k = false) :
    searchLoop f fuel i j ≤ j ∧ (∀ k, k < searchLoop f fuel i j → f k = false) ∧
      (searchLoop f fuel i j < j → f (searchLoop f fuel i j) = true) := by
  induction fuel generalizing i j with
  | zero =>
    have he : i = j := by omega
    subst he
    exact ⟨le_rfl, hlow, fun h => absurd h (lt_irrefl _)⟩
  | succ fuel ih =>
    simp only [searchLoop]
    split_ifs with hlt hmid
    · obtain ⟨hle, hbelow, hat⟩ := ih i ((i + j) / 2) (by omega) (by omega) (by omega) hlow
      refine ⟨by omega, hbelow, fun _ => ?_⟩
      rcases Nat.lt_or_ge (searchLoop f fuel i ((i + j) / 2)) ((i + j) / 2) with h | h
      · exact hat h
      · rw [Nat.le_antisymm hle h]
        exact hmid
    · have hlow' : ∀ k, k < (i + j) / 2 + 1 → f k = false := by
        intro k hk
        cases hf : f k with
        | false => rfl
        | true => exact absurd (hmono k ((i + j) / 2) (by omega) (by omega) hf) hmid
      exact ih ((i + j) / 2 + 1) j (by omega) hjn (by omega) hlow'
    · exact ⟨hij, hlow, fun h => absurd h hlt⟩

/-- Below the result the predicate fails, from the result on it holds. -/
theorem search_spec {n : ℕ} {f : ℕ → Bool}
    (hmono : ∀ i j, i ≤ j → j < n → f i = true → f j = true) {k : ℕ} (hk : k < n) :
    f k = true ↔ search n f ≤ k := by
  obtain ⟨hle, hbelow, hat⟩ := searchLoop_spec hmono n 0 n (Nat.zero_le n) le_rfl (by omega)
    (fun k hk => absurd hk (Nat.not_lt_zero k))
  constructor
  · intro hf
    by_contra hlt
    have hfalse := hbelow k (Nat.lt_of_not_le hlt)
    simp [hf] at hfalse
  · intro hge
    exact hmono _ _ hge hk (hat (lt_of_le_of_lt hge hk))

/-- Dropping the elements before the first one that satisfies a test leaves the
elements that satisfy it, if the test, once true, stays true along the list. -/
theorem drop_search_eq_filter {α : Type*} (p : α → Bool) (l : List α)
    (hmono : l.Pairwise fun a b => p a = true → p b = true) :
    l.drop (search l.length fun i => (l[i]?).any p) = l.filter p := by
  have hspec : ∀ k (hk : k < l.length),
      p l[k] = true ↔ search l.length (fun i => (l[i]?).any p) ≤ k := by
    intro k hk
    have h := search_spec (n := l.length) (f := fun i => (l[i]?).any p) ?_ hk
    · simpa [hk] using h
    · intro i j hij hj hi
      rcases Nat.lt_or_eq_of_le hij with hlt | rfl
      · have hi' : i < l.length := by omega
        simp only [List.getElem?_eq_getElem hi', List.getElem?_eq_getElem hj, Option.any_some]
          at hi ⊢
        exact List.pairwise_iff_getElem.mp hmono i j hi' hj hlt hi
      · exact hi
  generalize search l.length (fun i => (l[i]?).any p) = r at hspec
  conv_rhs => rw [← List.take_append_drop r l, List.filter_append]
  have hnone : (l.take r).filter p = [] := by
    rw [List.filter_eq_nil_iff]
    intro a ha
    obtain ⟨k, hk, rfl⟩ := List.getElem_of_mem ha
    rw [List.length_take] at hk
    rw [List.getElem_take, hspec k (by omega)]
    omega
  have hall : (l.drop r).filter p = l.drop r := by
    rw [List.filter_eq_self]
    intro a ha
    obtain ⟨k, hk, rfl⟩ := List.getElem_of_mem ha
    rw [List.length_drop] at hk
    rw [List.getElem_drop, hspec (r + k) (by omega)]
    omega
  rw [hnone, hall, List.nil_append]

end Alertmanager.BinarySearch
