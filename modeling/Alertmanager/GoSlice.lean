import Mathlib.Tactic

/-!
# Slices and the arrays behind them

A Go slice is a length and the array that it shares with others. `append` writes behind
the length as long as the array has room, and copies to a larger array otherwise. What
lies behind the length of a slice is never seen through it.
-/
namespace Alertmanager

structure Slice (α : Type*) where
  array : List α
  len : ℕ
  len_le : len ≤ array.length

namespace Slice
variable {α : Type*}

/-- The elements that the slice shows. -/
def elems (s : Slice α) : List α := s.array.take s.len

/-- `make([]T, 0, capacity)`, with the zero value of the type. -/
def make (zero : α) (capacity : ℕ) : Slice α := ⟨List.replicate capacity zero, 0, Nat.zero_le _⟩

/-- `s[:0]`. -/
def reset (s : Slice α) : Slice α := ⟨s.array, 0, Nat.zero_le _⟩

theorem length_elems (s : Slice α) : s.elems.length = s.len := by
  rw [elems, List.length_take, Nat.min_eq_left s.len_le]

/-- The array once `xs` is written behind the elements. -/
def written (s : Slice α) (xs : List α) : List α :=
  if s.len + xs.length ≤ s.array.length then s.elems ++ xs ++ s.array.drop (s.len + xs.length)
  else s.elems ++ xs

theorem written_eq (s : Slice α) (xs : List α) :
    ∃ behind, s.written xs = s.elems ++ xs ++ behind := by
  by_cases h : s.len + xs.length ≤ s.array.length
  · exact ⟨_, if_pos h⟩
  · exact ⟨[], by rw [written, if_neg h, List.append_nil]⟩

theorem le_length_written (s : Slice α) (xs : List α) :
    s.len + xs.length ≤ (s.written xs).length := by
  obtain ⟨behind, h⟩ := s.written_eq xs
  rw [h, List.length_append, List.length_append, length_elems]
  omega

/-- `append(s, xs...)`. -/
def append (s : Slice α) (xs : List α) : Slice α :=
  ⟨s.written xs, s.len + xs.length, s.le_length_written xs⟩

@[simp] theorem elems_make (zero : α) (capacity : ℕ) : (make zero capacity).elems = [] := rfl

@[simp] theorem elems_reset (s : Slice α) : s.reset.elems = [] := rfl

/-- Appending is not affected by what was behind the elements. -/
@[simp] theorem elems_append (s : Slice α) (xs : List α) :
    (s.append xs).elems = s.elems ++ xs := by
  obtain ⟨behind, h⟩ := s.written_eq xs
  have hlength : s.len + xs.length = (s.elems ++ xs).length := by
    rw [List.length_append, length_elems]
  calc (s.append xs).elems
      = (s.written xs).take (s.len + xs.length) := rfl
    _ = s.elems ++ xs := by rw [h, hlength, List.take_left]

theorem elems_foldl_append {β : Type*} {f : Slice α → β → Slice α} {text : β → List α}
    (hf : ∀ s x, (f s x).elems = s.elems ++ text x) (xs : List β) (s : Slice α) :
    (xs.foldl f s).elems = s.elems ++ xs.flatMap text := by
  induction xs generalizing s with
  | nil => simp
  | cons x xs ih => rw [List.foldl_cons, ih, hf, List.flatMap_cons, List.append_assoc]

end Slice

end Alertmanager
