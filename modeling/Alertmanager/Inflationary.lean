import Alertmanager.GoMap
import Mathlib.Order.RelClasses

/-!
# Steps that only move up

A step is inflationary for a preorder when it never moves down and there is no way
back below a state it has left. Such steps compose, and a sequence of them that ends
where it began has not moved at all: each of its steps, taken alone, would have left
the state as it was. This is used for loops over the entries of a map.
-/
namespace Alertmanager

variable {σ α : Type*} {R : σ → σ → Prop} {f g : σ → σ} {step : σ → α → σ}

/-- The step goes up in the preorder, or stays. -/
structure Inflationary (R : σ → σ → Prop) (f : σ → σ) : Prop where
  le : ∀ s, R s (f s)
  fixed : ∀ s, R (f s) s → f s = s

namespace Inflationary

theorem id [Std.Refl R] : Inflationary R (fun s => s) :=
  ⟨fun s => Std.Refl.refl s, fun _ _ => rfl⟩

/-- If the second step leads back, the first one has not moved. -/
theorem fixed_of_comp [IsTrans σ R] (hf : Inflationary R f) (hg : Inflationary R g) {s : σ}
    (h : R (g (f s)) s) : f s = s :=
  hf.fixed s (IsTrans.trans _ _ _ (hg.le (f s)) h)

theorem comp [IsTrans σ R] (hf : Inflationary R f) (hg : Inflationary R g) :
    Inflationary R (fun s => g (f s)) := by
  refine ⟨fun s => IsTrans.trans _ _ _ (hf.le s) (hg.le (f s)), fun s h => ?_⟩
  have hfs : f s = s := fixed_of_comp hf hg h
  simp only [hfs] at h ⊢
  exact hg.fixed s h

theorem foldl [Std.Refl R] [IsTrans σ R] (h : ∀ a, Inflationary R (step · a)) (l : List α) :
    Inflationary R (fun s => l.foldl step s) := by
  induction l with
  | nil => exact id
  | cons a l ih => exact comp (h a) ih

/-- A sequence of steps that ends where it began consists of steps that do nothing
there. -/
theorem foldl_eq_self_iff [Std.Refl R] [IsTrans σ R] (h : ∀ a, Inflationary R (step · a))
    (l : List α) (s : σ) : l.foldl step s = s ↔ ∀ a ∈ l, step s a = s := by
  induction l with
  | nil => simp
  | cons a l ih =>
    rw [List.forall_mem_cons, ← ih, List.foldl_cons]
    constructor
    · intro hback
      have hle : R (l.foldl step (step s a)) s := by
        rw [hback]
        exact Std.Refl.refl s
      have ha : step s a = s := fixed_of_comp (h a) (foldl h l) hle
      rw [ha] at hback
      exact ⟨ha, hback⟩
    · rintro ⟨ha, hl⟩
      rw [ha, hl]

/-! ### Loops over a map -/

section
variable {K V : Type*} [DecidableEq K] {put : σ → V → σ}

/-- Give what a map has under the keys of a list to a step, one after the other. -/
def visit (put : σ → V → σ) (m : GoMap K V) (order : List K) (s : σ) : σ :=
  order.foldl (fun s k => (m.lookup k).elim s (put s)) s

theorem visit_step [Std.Refl R] (h : ∀ v, Inflationary R (put · v)) (m : GoMap K V) (k : K) :
    Inflationary R (fun s => (m.lookup k).elim s (put s)) := by
  cases m.lookup k with
  | none => exact id
  | some v => exact h v

theorem inflationary_visit [Std.Refl R] [IsTrans σ R] (h : ∀ v, Inflationary R (put · v))
    (m : GoMap K V) (order : List K) : Inflationary R (visit put m order) :=
  foldl (visit_step h m) order

theorem visit_eq_self_iff [Std.Refl R] [IsTrans σ R] (h : ∀ v, Inflationary R (put · v))
    (m : GoMap K V) (order : List K) (s : σ) :
    visit put m order s = s ↔ ∀ k ∈ order, ∀ v, m.lookup k = some v → put s v = s := by
  rw [visit, foldl_eq_self_iff (visit_step h m)]
  refine forall₂_congr fun k _ => ?_
  cases m.lookup k <;> simp

/-- What a visit establishes, if each round establishes it or leaves it as it was. -/
theorem visit_iff {A : σ → Prop} {C : V → Prop} (h : ∀ s v, A (put s v) ↔ A s ∨ C v)
    (m : GoMap K V) (order : List K) (s : σ) :
    A (visit put m order s) ↔ A s ∨ ∃ k ∈ order, ∃ v, m.lookup k = some v ∧ C v := by
  induction order generalizing s with
  | nil => simp [visit]
  | cons k order ih =>
    rw [visit, List.foldl_cons, ← visit, ih]
    cases hk : m.lookup k with
    | none => simp [hk]
    | some v => simp [hk, h, or_assoc]

variable {β : Type*} {emit : σ → V → List β} {m : GoMap K V}

/-- The same loop when every round also puts something out. -/
def visitEmit (put : σ → V → σ) (emit : σ → V → List β) (m : GoMap K V) :
    List K → σ → σ × List β
  | [], s => (s, [])
  | k :: order, s =>
    match m.lookup k with
    | none => visitEmit put emit m order s
    | some v =>
      let rest := visitEmit put emit m order (put s v)
      (rest.1, emit s v ++ rest.2)

theorem visitEmit_fst (order : List K) (s : σ) :
    (visitEmit put emit m order s).1 = visit put m order s := by
  induction order generalizing s with
  | nil => rfl
  | cons k order ih =>
    rw [visit, List.foldl_cons, ← visit]
    cases hk : m.lookup k with
    | none => simpa only [visitEmit, hk, Option.elim_none] using ih s
    | some v => simpa only [visitEmit, hk, Option.elim_some] using ih (put s v)

theorem visitEmit_eq_nil (h : ∀ s v, emit s v = []) (order : List K) (s : σ) :
    (visitEmit put emit m order s).2 = [] := by
  induction order generalizing s with
  | nil => rfl
  | cons k order ih =>
    cases hk : m.lookup k with
    | none => simpa only [visitEmit, hk] using ih s
    | some v => simpa only [visitEmit, hk, h, List.nil_append] using ih (put s v)

/-- If every round that moves puts something out, a loop that put nothing out has not
moved. -/
theorem visitEmit_silent (h : ∀ s v, emit s v = [] → put s v = s) (order : List K) (s : σ)
    (hnil : (visitEmit put emit m order s).2 = []) : (visitEmit put emit m order s).1 = s := by
  induction order generalizing s with
  | nil => rfl
  | cons k order ih =>
    cases hk : m.lookup k with
    | none =>
      simp only [visitEmit, hk] at hnil ⊢
      exact ih s hnil
    | some v =>
      simp only [visitEmit, hk, List.append_eq_nil_iff] at hnil ⊢
      have hput : put s v = s := h s v hnil.1
      rw [hput] at hnil ⊢
      exact ih s hnil.2

end

end Inflationary

end Alertmanager
