import Alertmanager.SliceHeap

/-!
# The order of a binary heap

The keys of the first `n` positions of a slice are in heap order if no key is below the
key of its parent. `up` repairs the order when one position may be too small for its
parent, `down` when one may be too large for its children, and `Fix` in either case. What
is asked of the slice is that `less` compares keys and that `swap` exchanges them.
-/
namespace Alertmanager.HeapInterface

variable {H α : Type*} [LinearOrder α] {n : ℕ}

/-- The parent of a position. -/
def parent (i : ℕ) : ℕ := (i - 1) / 2

theorem parent_lt {i : ℕ} (hi : 0 < i) : parent i < i := by
  unfold parent
  omega

/-- The keys of the first `n` positions are in heap order. -/
def Ordered (n : ℕ) (f : ℕ → α) : Prop := ∀ c, 0 < c → c < n → f (parent c) ≤ f c

instance (n : ℕ) (f : ℕ → α) : Decidable (Ordered n f) :=
  decidable_of_iff (∀ c < n, 0 < c → f (parent c) ≤ f c)
    ⟨fun h c hpos hc => h c hc hpos, fun h c hc hpos => h c hpos hc⟩

theorem Ordered.congr {f g : ℕ → α} (h : Ordered n f) (heq : ∀ k < n, g k = f k) :
    Ordered n g := by
  intro c hpos hc
  rw [heq c hc, heq (parent c) ((parent_lt hpos).trans hc)]
  exact h c hpos hc

theorem Ordered.root_le {f : ℕ → α} (h : Ordered n f) {i : ℕ} (hi : i < n) : f 0 ≤ f i := by
  induction i using Nat.strong_induction_on with
  | _ i ih =>
    rcases Nat.eq_zero_or_pos i with rfl | hpos
    · exact le_rfl
    · have hlt := parent_lt hpos
      exact (ih (parent i) hlt (hlt.trans hi)).trans (h i hpos hi)

/-- The order holds but between `j` and its parent. -/
structure UpOrder (n : ℕ) (f : ℕ → α) (j : ℕ) : Prop where
  other : ∀ c, 0 < c → c < n → c ≠ j → f (parent c) ≤ f c
  below : 0 < j → ∀ c, 0 < c → c < n → parent c = j → f (parent j) ≤ f c

/-- The order holds but between `i` and its children. -/
structure DownOrder (n : ℕ) (f : ℕ → α) (i : ℕ) : Prop where
  other : ∀ c, 0 < c → c < n → parent c ≠ i → f (parent c) ≤ f c
  below : 0 < i → ∀ c, 0 < c → c < n → parent c = i → f (parent i) ≤ f c

/-- The order holds but at `i`, in both directions. -/
structure FixOrder (n : ℕ) (f : ℕ → α) (i : ℕ) : Prop where
  other : ∀ c, 0 < c → c < n → c ≠ i → parent c ≠ i → f (parent c) ≤ f c
  below : 0 < i → ∀ c, 0 < c → c < n → parent c = i → f (parent i) ≤ f c

theorem UpOrder.ordered {f : ℕ → α} {j : ℕ} (h : UpOrder n f j)
    (hj : 0 < j → f (parent j) ≤ f j) : Ordered n f := by
  intro c hpos hc
  by_cases hcj : c = j
  · subst hcj
    exact hj hpos
  · exact h.other c hpos hc hcj

theorem DownOrder.ordered {f : ℕ → α} {i : ℕ} (h : DownOrder n f i)
    (hi : ∀ c, 0 < c → c < n → parent c = i → f i ≤ f c) : Ordered n f := by
  intro c hpos hc
  by_cases hci : parent c = i
  · rw [hci]
    exact hi c hpos hc hci
  · exact h.other c hpos hc hci

/-- A key that is too small goes to its parent. -/
theorem UpOrder.swap {f : ℕ → α} {j : ℕ} (h : UpOrder n f j) (hj : 0 < j)
    (hless : f j < f (parent j)) : UpOrder n (f ∘ Equiv.swap (parent j) j) (parent j) := by
  have hlt := parent_lt hj
  have hmoved : ∀ k, k ≠ parent j → k ≠ j → (f ∘ Equiv.swap (parent j) j) k = f k := by
    intro k hp hk
    simp [Equiv.swap_apply_of_ne_of_ne hp hk]
  have hatJ : (f ∘ Equiv.swap (parent j) j) j = f (parent j) := by simp
  have hatP : (f ∘ Equiv.swap (parent j) j) (parent j) = f j := by simp
  -- the keys below the old parent are not below its key
  have hsibling : ∀ c, 0 < c → c < n → parent c = parent j →
      f (parent j) ≤ (f ∘ Equiv.swap (parent j) j) c := by
    intro c hpos hc hcp
    by_cases hcj : c = j
    · rw [hcj, hatJ]
    · have hcp' : c ≠ parent j := by
        have := parent_lt hpos
        omega
      rw [hmoved c hcp' hcj, ← hcp]
      exact h.other c hpos hc hcj
  refine ⟨fun c hpos hc hcp => ?_, fun hp c hpos hc hcp => ?_⟩
  · by_cases hpar : parent c = parent j
    · rw [hpar, hatP]
      exact hless.le.trans (hsibling c hpos hc hpar)
    · have hcj : c ≠ j := fun hcj => hpar (by rw [hcj])
      rw [hmoved c hcp hcj]
      by_cases hdown : parent c = j
      · rw [hdown, hatJ]
        exact h.below hj c hpos hc hdown
      · rw [hmoved _ hpar hdown]
        exact h.other c hpos hc hcj
  · have hgrand := parent_lt hp
    rw [hmoved _ hgrand.ne (hgrand.trans hlt).ne]
    by_cases hpn : parent j < n
    · exact (h.other (parent j) hp hpn hlt.ne).trans (hsibling c hpos hc hcp)
    · have := parent_lt hpos
      omega

/-- A key that is too large changes places with the smaller child. -/
theorem DownOrder.swap {f : ℕ → α} {i j : ℕ} (h : DownOrder n f i) (hj : 0 < j) (hjn : j < n)
    (hji : parent j = i) (hleast : ∀ c, 0 < c → c < n → parent c = i → f j ≤ f c)
    (hless : f j < f i) : DownOrder n (f ∘ Equiv.swap i j) j := by
  have hlt : i < j := hji ▸ parent_lt hj
  have hmoved : ∀ k, k ≠ i → k ≠ j → (f ∘ Equiv.swap i j) k = f k := by
    intro k hi hk
    simp [Equiv.swap_apply_of_ne_of_ne hi hk]
  have hatI : (f ∘ Equiv.swap i j) i = f j := by simp
  have hatJ : (f ∘ Equiv.swap i j) j = f i := by simp
  refine ⟨fun c hpos hc hcj => ?_, fun _ c hpos hc hcj => ?_⟩
  · by_cases hci : parent c = i
    · rw [hci, hatI]
      by_cases heq : c = j
      · rw [heq, hatJ]
        exact hless.le
      · have hne : c ≠ i := by
          have := parent_lt hpos
          omega
        rw [hmoved c hne heq]
        exact hleast c hpos hc hci
    · rw [hmoved _ hci hcj]
      have heq : c ≠ j := fun heq => hci (by rw [heq, hji])
      by_cases hc' : c = i
      · rw [hc', hatI]
        exact h.below (hc' ▸ hpos) j hj hjn hji
      · rw [hmoved c hc' heq]
        exact h.other c hpos hc hci
  · have hcgt := parent_lt hpos
    rw [hji, hatI, hmoved c (by omega) (by omega), ← hcj]
    exact h.other c hpos hc (by omega)

/-! ### The loops -/

/-- `less` compares the keys of the slice and `swap` exchanges them, on slices that
satisfy an invariant. -/
structure Keyed (I : HeapInterface H) (n : ℕ) (P : H → Prop) (key : H → ℕ → α) : Prop where
  keeps : I.SwapInvariant n P
  less_iff : ∀ h, P h → ∀ i j, i < n → j < n → (I.less h i j = true ↔ key h i < key h j)
  key_swap : ∀ h, P h → ∀ i j, i < n → j < n → key (I.swap h i j) = key h ∘ Equiv.swap i j

theorem le_downLoop (I : HeapInterface H) (fuel : ℕ) (h : H) (i n : ℕ) :
    i ≤ (I.downLoop fuel h i n).2 := by
  induction fuel generalizing h i with
  | zero => exact le_rfl
  | succ fuel ih =>
    simp only [downLoop]
    split_ifs
    · exact le_rfl
    · exact le_rfl
    · have hchild : i ≤ I.child h i n := by
        simp only [child]
        split_ifs <;> omega
      exact hchild.trans (ih _ _)

namespace Keyed

variable {I : HeapInterface H} {P : H → Prop} {key : H → ℕ → α} {h : H}

theorem mono {m : ℕ} (hk : I.Keyed n P key) (hm : m ≤ n) : I.Keyed m P key where
  keeps h i j hi hj := hk.keeps h i j (hi.trans_le hm) (hj.trans_le hm)
  less_iff h hh i j hi hj := hk.less_iff h hh i j (hi.trans_le hm) (hj.trans_le hm)
  key_swap h hh i j hi hj := hk.key_swap h hh i j (hi.trans_le hm) (hj.trans_le hm)

theorem upLoop (hk : I.Keyed n P key) {fuel j : ℕ} (hfuel : j ≤ fuel) (hj : j < n) (hh : P h)
    (ho : UpOrder n (key h) j) : Ordered n (key (I.upLoop fuel h j)) := by
  induction fuel generalizing h j with
  | zero => exact ho.ordered fun hpos => absurd hfuel (by omega)
  | succ fuel ih =>
    rw [HeapInterface.upLoop]
    change Ordered n (key (if parent j = j || !I.less h j (parent j) then h
      else I.upLoop fuel (I.swap h (parent j) j) (parent j)))
    rcases Nat.eq_zero_or_pos j with rfl | hpos
    · exact ho.ordered fun hpos => absurd hpos (lt_irrefl 0)
    · have hlt := parent_lt hpos
      have hp : parent j < n := hlt.trans hj
      have hless := hk.less_iff h hh j (parent j) hj hp
      split_ifs with hstop
      · refine ho.ordered fun _ => not_lt.mp fun hbelow => ?_
        simp [hlt.ne, hless.mpr hbelow] at hstop
      · have hbelow : key h j < key h (parent j) := by
          rw [← hless]
          by_contra hnot
          simp [hnot] at hstop
        refine ih (by omega) hp (hk.keeps h _ j hp hj hh) ?_
        rw [hk.key_swap h hh _ j hp hj]
        exact ho.swap hpos hbelow

theorem up (hk : I.Keyed n P key) {j : ℕ} (hj : j < n) (hh : P h) (ho : UpOrder n (key h) j) :
    Ordered n (key (I.up h j)) :=
  hk.upLoop le_rfl hj hh ho

/-- The child that `down` compares with has the least key of the children. -/
theorem child_spec (hk : I.Keyed n P key) (hh : P h) {i : ℕ} (hi : 2 * i + 1 < n) :
    0 < I.child h i n ∧ I.child h i n < n ∧ parent (I.child h i n) = i ∧
      ∀ c, 0 < c → c < n → parent c = i → key h (I.child h i n) ≤ key h c := by
  have hchildren : ∀ c, 0 < c → parent c = i → c = 2 * i + 1 ∨ c = 2 * i + 2 := by
    intro c hpos hc
    unfold parent at hc
    omega
  refine ⟨?_, child_lt I h hi, ?_, fun c hpos hc hci => ?_⟩
  · simp only [child]
    split_ifs <;> omega
  · simp only [child, parent]
    split_ifs <;> omega
  · simp only [child]
    by_cases hright : 2 * i + 2 < n
    · have hless := hk.less_iff h hh (2 * i + 2) (2 * i + 1) hright hi
      by_cases hsmaller : key h (2 * i + 2) < key h (2 * i + 1)
      · rw [if_pos (by simp [hright, hless.mpr hsmaller])]
        rcases hchildren c hpos hci with rfl | rfl
        · exact hsmaller.le
        · exact le_rfl
      · rw [if_neg (by simp [hless, hsmaller])]
        rcases hchildren c hpos hci with rfl | rfl
        · exact le_rfl
        · exact not_lt.mp hsmaller
    · rw [if_neg (by simp [hright])]
      rcases hchildren c hpos hci with rfl | rfl
      · exact le_rfl
      · exact absurd hc hright

theorem downLoop (hk : I.Keyed n P key) {fuel i : ℕ} (hfuel : n ≤ fuel + i) (hi : i < n)
    (hh : P h) (ho : DownOrder n (key h) i) : Ordered n (key (I.downLoop fuel h i n).1) := by
  induction fuel generalizing h i with
  | zero => omega
  | succ fuel ih =>
    simp only [HeapInterface.downLoop]
    split_ifs with hleaf hstop
    · refine ho.ordered fun c hpos hc hci => ?_
      unfold parent at hci
      omega
    · obtain ⟨-, hjn, -, hleast⟩ := hk.child_spec hh (not_le.mp hleaf)
      refine ho.ordered fun c hpos hc hci => le_trans (not_lt.mp fun hbelow => ?_)
        (hleast c hpos hc hci)
      simp [(hk.less_iff h hh _ i hjn hi).mpr hbelow] at hstop
    · obtain ⟨hpos, hjn, hji, hleast⟩ := hk.child_spec hh (not_le.mp hleaf)
      have hbelow : key h (I.child h i n) < key h i := by
        rw [← hk.less_iff h hh _ i hjn hi]
        simpa using hstop
      have hlt := parent_lt hpos
      refine ih (by omega) hjn (hk.keeps h i _ hi hjn hh) ?_
      rw [hk.key_swap h hh i _ hi hjn]
      exact ho.swap hpos hjn hji hleast hbelow

theorem down (hk : I.Keyed n P key) {i : ℕ} (hi : i < n) (hh : P h)
    (ho : DownOrder n (key h) i) : Ordered n (key (I.down h i n).1) :=
  hk.downLoop (by omega) hi hh ho

/-- `Fix` restores the order after the key of one position has changed. If `down` moves
the key it was too large, so that it is not too small for the parent. -/
theorem fix (hk : I.Keyed n P key) (hlen : I.len h = n) {i : ℕ} (hi : i < n) (hh : P h)
    (ho : FixOrder n (key h) i) : Ordered n (key (I.fix h i)) := by
  obtain ⟨m, rfl⟩ : ∃ m, n = m + 1 := ⟨n - 1, by omega⟩
  have hup : (∀ c, 0 < c → c < m + 1 → parent c = i → key h i ≤ key h c) →
      Ordered (m + 1) (key (I.up h i)) := by
    refine fun hchildren => hk.up hi hh ⟨fun c hpos hc hci => ?_, ho.below⟩
    by_cases hpc : parent c = i
    · rw [hpc]
      exact hchildren c hpos hc hpc
    · exact ho.other c hpos hc hci hpc
  simp only [HeapInterface.fix, HeapInterface.down, hlen]
  by_cases hmoves : 2 * i + 1 < m + 1 ∧ I.less h (I.child h i (m + 1)) i = true
  · obtain ⟨hpos, hjn, hji, hleast⟩ := hk.child_spec hh hmoves.1
    have hbelow := (hk.less_iff h hh _ i hjn hi).mp hmoves.2
    have hdown : DownOrder (m + 1) (key h) i := by
      refine ⟨fun c hc0 hc hpc => ?_, ho.below⟩
      by_cases hci : c = i
      · subst hci
        exact (ho.below hc0 _ hpos hjn hji).trans hbelow.le
      · exact ho.other c hc0 hc hci hpc
    have hflag : i < (I.downLoop (m + 1) h i (m + 1)).2 := by
      simp only [HeapInterface.downLoop, if_neg (not_le.mpr hmoves.1), hmoves.2]
      have hlt := parent_lt hpos
      rw [hji] at hlt
      exact hlt.trans_le (le_downLoop I m _ _ _)
    rw [if_pos (decide_eq_true hflag)]
    exact hk.downLoop (by omega) hi hh hdown
  · have hstays : I.downLoop (m + 1) h i (m + 1) = (h, i) := by
      simp only [HeapInterface.downLoop]
      split_ifs with hleaf hstop
      · rfl
      · rfl
      · exact absurd ⟨not_le.mp hleaf, by simpa using hstop⟩ hmoves
    rw [hstays, if_neg (by simp)]
    refine hup fun c hpos hc hci => ?_
    have hleaf : 2 * i + 1 < m + 1 := by
      unfold parent at hci
      omega
    obtain ⟨-, hjn, -, hleast⟩ := hk.child_spec hh hleaf
    refine le_trans (not_lt.mp fun hbelow => hmoves ⟨hleaf, ?_⟩) (hleast c hpos hc hci)
    exact (hk.less_iff h hh _ i hjn hi).mpr hbelow

end Keyed

end Alertmanager.HeapInterface
