import Mathlib.Tactic

/-!
# The heap algorithms over an abstract slice

The loops of `container/heap`, written over the three methods of
`heap.Interface` that they call. A loop changes the slice by `swap` alone, which
gives the rule behind every fact about contents: a predicate that `swap` keeps at
positions inside the slice is kept by each loop.
-/
namespace Alertmanager

/-- `heap.Interface` without the two methods that change the length. -/
structure HeapInterface (H : Type*) where
  len : H → ℕ
  less : H → ℕ → ℕ → Bool
  swap : H → ℕ → ℕ → H

namespace HeapInterface
variable {H : Type*} (I : HeapInterface H)

/-- The loop of `up`. Every round ends at a smaller position, so the first
position bounds the number of rounds. -/
def upLoop : ℕ → H → ℕ → H
  | 0, h, _ => h
  | fuel + 1, h, j =>
    let i := (j - 1) / 2
    if i = j || !I.less h j i then h else upLoop fuel (I.swap h i j) i

def up (h : H) (j : ℕ) : H := I.upLoop j h j

/-- The child of `i` that `down` compares with: the smaller of the two in range. -/
def child (h : H) (i n : ℕ) : ℕ :=
  let j₁ := 2 * i + 1
  let j₂ := j₁ + 1
  if decide (j₂ < n) && I.less h j₂ j₁ then j₂ else j₁

/-- The loop of `down`, returning the slice and the last position of the element. -/
def downLoop : ℕ → H → ℕ → ℕ → H × ℕ
  | 0, h, i, _ => (h, i)
  | fuel + 1, h, i, n =>
    if n ≤ 2 * i + 1 then (h, i)
    else
      let j := I.child h i n
      if !I.less h j i then (h, i) else downLoop fuel (I.swap h i j) j n

/-- `down`: the flag tells whether the element moved. -/
def down (h : H) (i₀ n : ℕ) : H × Bool :=
  let r := I.downLoop n h i₀ n
  (r.1, decide (i₀ < r.2))

/-- `heap.Fix`. -/
def fix (h : H) (i : ℕ) : H :=
  let r := I.down h i (I.len h)
  if r.2 then r.1 else I.up r.1 i

/-- What every `swap` inside the first `n` positions keeps. -/
def SwapInvariant (n : ℕ) (P : H → Prop) : Prop :=
  ∀ h i j, i < n → j < n → P h → P (I.swap h i j)

variable {I} {n : ℕ} {P : H → Prop}

theorem SwapInvariant.upLoop (hP : I.SwapInvariant n P) (fuel : ℕ) {h : H} {j : ℕ}
    (hj : j < n) (hh : P h) : P (I.upLoop fuel h j) := by
  induction fuel generalizing h j with
  | zero => exact hh
  | succ fuel ih =>
    simp only [HeapInterface.upLoop]
    split_ifs
    · exact hh
    · have hi : (j - 1) / 2 < n := by omega
      exact ih hi (hP h _ j hi hj hh)

theorem SwapInvariant.up (hP : I.SwapInvariant n P) {h : H} {j : ℕ} (hj : j < n) (hh : P h) :
    P (I.up h j) := hP.upLoop j hj hh

theorem child_lt (I : HeapInterface H) (h : H) {i n : ℕ} (hi : 2 * i + 1 < n) :
    I.child h i n < n := by
  simp only [child]
  split_ifs with hc
  · simp only [Bool.and_eq_true, decide_eq_true_eq] at hc
    exact hc.1
  · exact hi

theorem SwapInvariant.downLoop (hP : I.SwapInvariant n P) (fuel : ℕ) {h : H} {i m : ℕ}
    (hi : i < n) (hm : m ≤ n) (hh : P h) : P (I.downLoop fuel h i m).1 := by
  induction fuel generalizing h i with
  | zero => exact hh
  | succ fuel ih =>
    simp only [HeapInterface.downLoop]
    split_ifs with hend hless
    · exact hh
    · exact hh
    · have hj : I.child h i m < n := lt_of_lt_of_le (child_lt I h (by omega)) hm
      exact ih hj (hP h i _ hi hj hh)

theorem SwapInvariant.down (hP : I.SwapInvariant n P) {h : H} {i m : ℕ} (hi : i < n)
    (hm : m ≤ n) (hh : P h) : P (I.down h i m).1 := hP.downLoop m hi hm hh

theorem SwapInvariant.fix (hP : I.SwapInvariant n P) {h : H} {i : ℕ} (hi : i < n)
    (hlen : I.len h ≤ n) (hh : P h) : P (I.fix h i) := by
  have hd := hP.down hi hlen hh
  simp only [HeapInterface.fix]
  split_ifs
  · exact hd
  · exact hP.up hi hd

end HeapInterface

end Alertmanager
