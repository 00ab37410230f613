import Alertmanager.Utf8Text

/-!
# Truncation of messages

`TruncateInRunes` and `TruncateInBytes` of `notify/util.go`. A conversion to runes returns
a slice whose capacity is up to the implementation, and slicing it panics beyond the
capacity. `TruncateInBytes` slices the runes by a number of bytes, which is harmless only
as long as that number does not exceed the capacity.
-/
namespace Alertmanager

/-- `truncationMarker`, an ellipsis. -/
def truncationMarker : GoString := [0xE2, 0x80, 0xA6]

/-- A slice of runes: its elements, and those behind them in the array. -/
structure RuneSlice where
  runes : List ℕ
  spare : List ℕ

namespace RuneSlice

/-- `[]rune(s)`. -/
def ofString (s : GoString) (spare : List ℕ) : RuneSlice := ⟨Utf8.toRunes s, spare⟩

def array (r : RuneSlice) : List ℕ := r.runes ++ r.spare

/-- `r[:k]`, which panics outside the capacity. -/
def upTo (r : RuneSlice) (k : ℤ) : Option (List ℕ) :=
  if 0 ≤ k ∧ k ≤ r.array.length then some (r.array.take k.toNat) else none

/-- The loop of `TruncateInBytes` from `r[:k]` on. -/
def shrink (r : RuneSlice) (target : ℤ) : ℕ → Option (List ℕ)
  | 0 => if target < 0 then none else r.upTo 0
  | k + 1 => (r.upTo (k + 1)).bind fun truncatedRunes =>
    if target < (Utf8.ofRunes truncatedRunes).length then shrink r target k
    else some truncatedRunes

end RuneSlice

/-- `TruncateInRunes`, with what the array of `[]rune(s)` holds behind the runes. Nothing
if it panics. -/
def truncateInRunes (spare : List ℕ) (s : GoString) (n : ℤ) : Option (GoString × Bool) :=
  let r := RuneSlice.ofString s spare
  if r.runes.length ≤ n then some (s, false)
  else if n ≤ 3 then (r.upTo n).map fun runes => (Utf8.ofRunes runes, true)
  else (r.upTo (n - 1)).map fun runes => (Utf8.ofRunes runes ++ truncationMarker, true)

/-- `strings.Repeat(".", n)`. -/
def repeatDot (n : ℤ) : Option GoString :=
  if n < 0 then none else some (List.replicate n.toNat 46)

/-- `TruncateInBytes`. -/
def truncateInBytes (spare : List ℕ) (s : GoString) (n : ℤ) : Option (GoString × Bool) :=
  if s.length ≤ n then some (s, false)
  else if n ≤ 3 then
    if n = 3 then some (truncationMarker, true) else (repeatDot n).map fun dots => (dots, true)
  else
    let r := RuneSlice.ofString s spare
    let truncationTarget := n - 3
    (r.shrink truncationTarget truncationTarget.toNat).map fun truncatedRunes =>
      (Utf8.ofRunes truncatedRunes ++ truncationMarker, true)

/-- The text of the first runes of a string. -/
def leadingRunes (k : ℕ) (s : GoString) : GoString := ((Utf8.runes s).take k).flatten

/-- What a truncation to `n` runes is for. -/
structure TruncatedInRunes (s : GoString) (n : ℕ) (out : GoString) (truncated : Bool) :
    Prop where
  fits : (Utf8.runes out).length ≤ n
  flag : truncated = true ↔ n < (Utf8.runes s).length
  whole : truncated = false → out = s
  cut : truncated = true → 3 < n → out = leadingRunes (n - 1) s ++ truncationMarker

/-- What a truncation to `n` bytes is for: as many runes as there is room for. -/
structure TruncatedInBytes (s : GoString) (n : ℕ) (out : GoString) (truncated : Bool) :
    Prop where
  fits : out.length ≤ n
  flag : truncated = true ↔ n < s.length
  whole : truncated = false → out = s
  cut : truncated = true → 3 < n → ∃ k ≤ (Utf8.runes s).length,
    out = leadingRunes k s ++ truncationMarker ∧ (leadingRunes k s).length ≤ n - 3 ∧
      ∀ j ≤ (Utf8.runes s).length, (leadingRunes j s).length ≤ n - 3 → j ≤ k

theorem RuneSlice.array_ofString (s : GoString) (spare : List ℕ) :
    (ofString s spare).array = Utf8.toRunes s ++ spare := rfl

theorem RuneSlice.length_array_ofString (s : GoString) (spare : List ℕ) :
    (ofString s spare).array.length = (Utf8.runes s).length + spare.length := by
  rw [array_ofString, List.length_append, Utf8.length_toRunes]

theorem RuneSlice.upTo_eq_some {r : RuneSlice} {k : ℕ} (h : k ≤ r.array.length) :
    r.upTo k = some (r.array.take k) := by
  rw [upTo, if_pos ⟨by omega, by exact_mod_cast h⟩, Int.toNat_natCast]

theorem RuneSlice.upTo_eq_none {r : RuneSlice} {k : ℕ} (h : r.array.length < k) :
    r.upTo k = none :=
  if_neg fun hk => by omega

/-- The loop ends with the longest sequence of leading runes that fits. -/
theorem RuneSlice.shrink_spec {r : RuneSlice} (target : ℕ) {k : ℕ} (h : k ≤ r.array.length) :
    ∃ m ≤ k, r.shrink target k = some (r.array.take m) ∧
      (Utf8.ofRunes (r.array.take m)).length ≤ target ∧
      ∀ j ≤ k, (Utf8.ofRunes (r.array.take j)).length ≤ target → j ≤ m := by
  induction k with
  | zero =>
    refine ⟨0, le_rfl, ?_, ?_, fun j hj _ => hj⟩
    · rw [shrink, if_neg (by omega)]
      exact upTo_eq_some h
    · simp [Utf8.ofRunes]
  | succ k ih =>
    rw [shrink, show ((k : ℤ) + 1) = ((k + 1 : ℕ) : ℤ) by push_cast; rfl, upTo_eq_some h,
      Option.bind_some]
    split_ifs with hover
    · obtain ⟨m, hm, hshrink, hfits, hlongest⟩ := ih (by omega)
      refine ⟨m, by omega, hshrink, hfits, fun j hj hfit => ?_⟩
      rcases Nat.lt_or_eq_of_le hj with hlt | rfl
      · exact hlongest j (by omega) hfit
      · omega
    · exact ⟨k + 1, le_rfl, rfl, by omega, fun j hj _ => hj⟩

section
variable {s : GoString} (hs : Utf8.validString s = true) (spare : List ℕ)

include hs in
theorem runes_leadingRunes (k : ℕ) : Utf8.runes (leadingRunes k s) = (Utf8.runes s).take k :=
  Utf8.runes_flatten fun c hc => Utf8.validString_iff.mp hs c (List.mem_of_mem_take hc)

include hs in
theorem all_isRune_leadingRunes (k : ℕ) :
    (Utf8.runes (leadingRunes k s)).all Utf8.isRune = true := by
  rw [runes_leadingRunes hs, List.all_eq_true]
  exact fun c hc => Utf8.validString_iff.mp hs c (List.mem_of_mem_take hc)

include hs in
/-- Slicing within the runes yields the text of the first ones. -/
theorem ofRunes_take_array {k : ℕ} (hk : k ≤ (Utf8.runes s).length) :
    Utf8.ofRunes ((RuneSlice.ofString s spare).array.take k) = leadingRunes k s := by
  rw [← Utf8.length_toRunes] at hk
  rw [RuneSlice.array_ofString, List.take_append_of_le_length hk, Utf8.ofRunes_take_toRunes hs]
  rfl

include hs in
/-- Slicing beyond the runes yields at least the whole text. -/
theorem length_le_of_runes_le {k : ℕ} (hk : (Utf8.runes s).length ≤ k) :
    s.length ≤ (Utf8.ofRunes ((RuneSlice.ofString s spare).array.take k)).length := by
  rw [← Utf8.length_toRunes] at hk
  rw [RuneSlice.array_ofString, List.take_append, List.take_of_length_le hk, Utf8.ofRunes_append,
    Utf8.ofRunes_toRunes hs, List.length_append]
  omega

include hs in
theorem le_length_leadingRunes {k : ℕ} (hk : k ≤ (Utf8.runes s).length) :
    k ≤ (leadingRunes k s).length := by
  have hle := Utf8.length_le_length_ofRunes ((Utf8.toRunes s).take k)
  rw [Utf8.ofRunes_take_toRunes hs, List.length_take, Utf8.length_toRunes] at hle
  exact (Nat.min_eq_left hk).symm.le.trans hle

include hs in
theorem truncateInRunes_spec (n : ℕ) : ∃ out truncated,
    truncateInRunes spare s n = some (out, truncated) ∧ TruncatedInRunes s n out truncated := by
  have hcapacity := RuneSlice.length_array_ofString s spare
  have hlength : (RuneSlice.ofString s spare).runes.length = (Utf8.runes s).length :=
    Utf8.length_toRunes s
  simp only [truncateInRunes, hlength]
  split_ifs with hshort hsmall
  · exact ⟨s, false, rfl, by omega, by simp; omega, fun _ => rfl, by simp⟩
  · refine ⟨leadingRunes n s, true, ?_, ?_, by simp; omega, by simp, fun _ hn => by omega⟩
    · rw [RuneSlice.upTo_eq_some (by omega), Option.map_some,
        ofRunes_take_array hs spare (by omega)]
    · rw [runes_leadingRunes hs, List.length_take]
      omega
  · refine ⟨leadingRunes (n - 1) s ++ truncationMarker, true, ?_, ?_, by simp; omega, by simp,
      fun _ _ => rfl⟩
    · rw [show (n : ℤ) - 1 = ((n - 1 : ℕ) : ℤ) by omega, RuneSlice.upTo_eq_some (by omega),
        Option.map_some, ofRunes_take_array hs spare (by omega)]
    · have hmarker : (Utf8.runes truncationMarker).length = 1 := by decide
      rw [Utf8.runes_append (all_isRune_leadingRunes hs _), runes_leadingRunes hs,
        List.length_append, List.length_take]
      omega

include hs in
/-- Within the capacity, as many runes are kept as there is room for. -/
theorem truncateInBytes_spec {n : ℕ}
    (hcapacity : n ≤ 3 ∨ s.length ≤ n ∨ n - 3 ≤ (RuneSlice.ofString s spare).array.length) :
    ∃ out truncated, truncateInBytes spare s n = some (out, truncated) ∧
      TruncatedInBytes s n out truncated := by
  simp only [truncateInBytes]
  split_ifs with hshort hsmall hthree
  · exact ⟨s, false, rfl, by omega, by simp; omega, fun _ => rfl, by simp⟩
  · refine ⟨truncationMarker, true, rfl, ?_, by simp; omega, by simp, fun _ hn => by omega⟩
    rw [truncationMarker]
    simp
    omega
  · refine ⟨List.replicate n 46, true, ?_, by simp, by simp; omega, by simp,
      fun _ hn => by omega⟩
    rw [repeatDot, if_neg (by omega), Int.toNat_natCast]
    rfl
  · rw [show (n : ℤ) - 3 = ((n - 3 : ℕ) : ℤ) by omega, Int.toNat_natCast]
    obtain ⟨k, hk, hshrink, hfits, hlongest⟩ := RuneSlice.shrink_spec (n - 3)
      (show n - 3 ≤ (RuneSlice.ofString s spare).array.length by omega)
    have hkept : k ≤ (Utf8.runes s).length := by
      by_contra hover
      have := length_le_of_runes_le hs spare (k := k) (by omega)
      omega
    rw [ofRunes_take_array hs spare hkept] at hfits
    refine ⟨leadingRunes k s ++ truncationMarker, true, ?_, ?_, by simp; omega, by simp,
      fun _ _ => ⟨k, hkept, rfl, hfits, fun j hj hfit => ?_⟩⟩
    · rw [hshrink, Option.map_some, ofRunes_take_array hs spare hkept]
    · rw [List.length_append, show truncationMarker.length = 3 from rfl]
      omega
    · have hle := le_length_leadingRunes hs hj
      refine hlongest j (by omega) ?_
      rwa [ofRunes_take_array hs spare hj]

/-- Beyond the capacity, the first slicing panics. -/
theorem truncateInBytes_eq_none {n : ℕ} (hn : 3 < n) (hlong : n < s.length)
    (hcapacity : (RuneSlice.ofString s spare).array.length < n - 3) :
    truncateInBytes spare s n = none := by
  obtain ⟨k, hk⟩ : ∃ k, n - 3 = k + 1 := ⟨n - 4, by omega⟩
  simp only [truncateInBytes]
  rw [if_neg (by omega), if_neg (by omega), show (n : ℤ) - 3 = ((k + 1 : ℕ) : ℤ) by omega,
    Int.toNat_natCast, RuneSlice.shrink, ← Nat.cast_succ, RuneSlice.upTo_eq_none (by omega)]
  rfl

include hs in
/-- Both functions keep their promises unless the limit in bytes, less the marker, exceeds
the capacity of the runes of a string that is longer. -/
theorem truncation_exact_iff (n : ℕ) :
    ((∃ out truncated, truncateInRunes spare s n = some (out, truncated) ∧
        TruncatedInRunes s n out truncated) ∧
      ∃ out truncated, truncateInBytes spare s n = some (out, truncated) ∧
        TruncatedInBytes s n out truncated) ↔
    n ≤ 3 ∨ s.length ≤ n ∨ n - 3 ≤ (Utf8.runes s).length + spare.length := by
  rw [← RuneSlice.length_array_ofString]
  constructor
  · rintro ⟨-, out, truncated, hsome, -⟩
    by_contra hnot
    rw [not_or, not_or] at hnot
    rw [truncateInBytes_eq_none spare (by omega) (by omega) (by omega)] at hsome
    cases hsome
  · exact fun h => ⟨truncateInRunes_spec hs spare n, truncateInBytes_spec hs spare h⟩

end

/-- A message of `k` four-byte runes. -/
def fires (k : ℕ) : GoString := (List.replicate k [0xF0, 0x9F, 0x94, 0xA5]).flatten

theorem truncation_exact_iff_fires :
    Utf8.validString (fires 2) = true ∧ ∃ out truncated,
      truncateInBytes [] (fires 2) 5 = some (out, truncated) ∧
        TruncatedInBytes (fires 2) 5 out truncated := by
  refine ⟨by decide, ?_⟩
  exact ((truncation_exact_iff (s := fires 2) (by decide) [] 5).mpr (by decide)).2

/-- Forty such runes in a slice with room for less than 156: cutting off the last one
panics. -/
theorem truncateInBytes_panics :
    Utf8.validString (fires 40) = true ∧
      ∀ spare : List ℕ, spare.length < 116 → truncateInBytes spare (fires 40) 159 = none := by
  have hrunes : (Utf8.runes (fires 40)).length = 40 := by decide +kernel
  refine ⟨by decide +kernel, fun spare hspare => ?_⟩
  refine truncateInBytes_eq_none (n := 159) spare (by decide) (by decide +kernel) ?_
  rw [RuneSlice.length_array_ofString, hrunes]
  omega

end Alertmanager
