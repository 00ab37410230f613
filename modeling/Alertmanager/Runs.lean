import Mathlib.Tactic

/-!
# Runs of a labelled step relation

A run lists the labels of its steps in order. Safety is always proved the same
way: a predicate of the first state that every step keeps holds in the last one.
A guard restricts a relation to the steps that meet a condition on the state
before the step and on its label.
-/
namespace Alertmanager

variable {σ α : Type*}

/-- Finite runs: the state before, the labels of the steps, the state after. -/
inductive Run (Step : σ → α → σ → Prop) : σ → List α → σ → Prop
  | nil (s : σ) : Run Step s [] s
  | cons {s t u : σ} {a : α} {as : List α} :
      Step s a t → Run Step t as u → Run Step s (a :: as) u

/-- The steps of a relation that are taken under a condition. -/
def Guarded (C : σ → α → Prop) (Step : σ → α → σ → Prop) (s : σ) (a : α) (t : σ) : Prop :=
  C s a ∧ Step s a t

/-- The step relation of a machine that is given by an enabling condition and a
next-state function: all nondeterminism is in the labels. -/
def Fires (enabled : σ → α → Prop) (next : σ → α → σ) (s : σ) (a : α) (t : σ) : Prop :=
  enabled s a ∧ t = next s a

/-- Every label of the list is enabled when its turn comes. -/
def Feasible (enabled : σ → α → Prop) (next : σ → α → σ) : σ → List α → Prop
  | _, [] => True
  | s, a :: as => enabled s a ∧ Feasible enabled next (next s a) as

instance Feasible.decidable (enabled : σ → α → Prop) (next : σ → α → σ)
    [∀ s a, Decidable (enabled s a)] (s : σ) (as : List α) :
    Decidable (Feasible enabled next s as) :=
  match as with
  | [] => isTrue trivial
  | a :: as =>
    have := Feasible.decidable enabled next (next s a) as
    inferInstanceAs (Decidable (enabled s a ∧ Feasible enabled next (next s a) as))

/-- Two enabling conditions that agree on the states of an invariant admit the
same label lists. -/
theorem Feasible.congr {E E' I : σ → α → Prop} {J : σ → Prop} {next : σ → α → σ}
    (hI : ∀ s a, J s → I s a → J (next s a)) (hE : ∀ s a, J s → I s a → (E s a ↔ E' s a))
    {s : σ} (hs : J s) {as : List α} (has : ∀ s, ∀ a ∈ as, I s a) :
    Feasible E next s as ↔ Feasible E' next s as := by
  induction as generalizing s with
  | nil => exact Iff.rfl
  | cons a as ih =>
    have ha : I s a := has s a List.mem_cons_self
    have hrest := ih (hI s a hs ha) (fun s b hb => has s b (List.mem_cons_of_mem a hb))
    simp only [Feasible, hE s a hs ha, hrest]

namespace Run
variable {Step : σ → α → σ → Prop}

/-- The invariant rule: what every step keeps holds after every run. -/
theorem invariant {I : σ → Prop} (hstep : ∀ s a t, I s → Step s a t → I t)
    {s t : σ} {as : List α} (h : Run Step s as t) (hs : I s) : I t := by
  induction h with
  | nil s => exact hs
  | cons ha _ ih => exact ih (hstep _ _ _ hs ha)

/-- The invariant rule for predicates of the labels so far and the state. -/
theorem history {I : List α → σ → Prop}
    (hstep : ∀ past s a t, I past s → Step s a t → I (past ++ [a]) t)
    {past : List α} {s t : σ} {as : List α} (h : Run Step s as t) (hs : I past s) :
    I (past ++ as) t := by
  induction h generalizing past with
  | nil s => simpa using hs
  | @cons s s' t a as ha _ ih =>
    have hend := ih (hstep past s a s' hs ha)
    rwa [List.append_assoc, List.singleton_append] at hend

theorem mono {Step' : σ → α → σ → Prop} (hstep : ∀ s a t, Step s a t → Step' s a t)
    {s t : σ} {as : List α} (h : Run Step s as t) : Run Step' s as t := by
  induction h with
  | nil s => exact nil s
  | cons ha _ ih => exact cons (hstep _ _ _ ha) ih

/-- A condition that all labels meet is a guard of the run. -/
theorem guarded {P : α → Prop} {s t : σ} {as : List α} (h : Run Step s as t)
    (hP : ∀ a ∈ as, P a) : Run (Guarded (fun _ => P) Step) s as t := by
  induction h with
  | nil s => exact nil s
  | cons ha _ ih =>
    exact cons ⟨hP _ List.mem_cons_self, ha⟩ (ih fun a h => hP a (List.mem_cons_of_mem _ h))

theorem append {s t u : σ} {as bs : List α} (h : Run Step s as t) (h' : Run Step t bs u) :
    Run Step s (as ++ bs) u := by
  induction h with
  | nil s => exact h'
  | cons ha _ ih => exact cons ha (ih h')

/-- A run passes through the states before and after each of its steps. -/
theorem split {s t : σ} {as bs : List α} {a : α} (h : Run Step s (as ++ a :: bs) t) :
    ∃ u v, Run Step s as u ∧ Step u a v ∧ Run Step v bs t := by
  induction as generalizing s with
  | nil =>
    cases h with
    | cons ha hrest => exact ⟨s, _, nil s, ha, hrest⟩
  | cons b as ih =>
    cases h with
    | cons hb hrest =>
      obtain ⟨u, v, hbefore, ha, hafter⟩ := ih hrest
      exact ⟨u, v, cons hb hbefore, ha, hafter⟩

/-- The labels of a machine's run determine its states. -/
theorem eq_foldl {enabled : σ → α → Prop} {next : σ → α → σ} {s t : σ} {as : List α}
    (h : Run (Fires enabled next) s as t) : t = as.foldl next s := by
  induction h with
  | nil s => rfl
  | cons ha _ ih =>
    obtain ⟨-, rfl⟩ := ha
    exact ih

/-- A feasible label list is the label list of a run. -/
theorem of_feasible {enabled : σ → α → Prop} {next : σ → α → σ} {s : σ} {as : List α}
    (h : Feasible enabled next s as) : Run (Fires enabled next) s as (as.foldl next s) := by
  induction as generalizing s with
  | nil => exact nil s
  | cons a as ih => exact cons ⟨h.1, rfl⟩ (ih h.2)

/-- A feasible label list whose steps also meet a guard gives a guarded run. -/
theorem of_feasible_guarded {C enabled : σ → α → Prop} {next : σ → α → σ} {s : σ} {as : List α}
    (h : Feasible (fun s a => C s a ∧ enabled s a) next s as) :
    Run (Guarded C (Fires enabled next)) s as (as.foldl next s) := by
  induction as generalizing s with
  | nil => exact nil s
  | cons a as ih => exact cons ⟨h.1.1, h.1.2, rfl⟩ (ih h.2)

/-- If a property holds at the end of a run, it holds all along or there is a last
step that establishes it. -/
theorem held_or_last_entry {P : σ → Prop} {s t : σ} {as : List α} (h : Run Step s as t)
    (ht : P t) :
    (P s ∧ Run (fun x b y => Step x b y ∧ P y) s as t) ∨
      ∃ as₁ a as₂ s₁ s₂, as = as₁ ++ a :: as₂ ∧ Run Step s as₁ s₁ ∧ ¬ P s₁ ∧ Step s₁ a s₂ ∧
        P s₂ ∧ Run (fun x b y => Step x b y ∧ P y) s₂ as₂ t := by
  induction h with
  | nil s => exact Or.inl ⟨ht, nil s⟩
  | @cons s s' t a as ha _ ih =>
    obtain ⟨hs', hrest⟩ | ⟨as₁, b, as₂, s₁, s₂, rfl, hbefore, hnot, hb, hs₂, hafter⟩ := ih ht
    · by_cases hs : P s
      · exact Or.inl ⟨hs, cons ⟨ha, hs'⟩ hrest⟩
      · exact Or.inr ⟨[], a, as, s, s', rfl, nil s, hs, ha, hs', hrest⟩
    · exact Or.inr ⟨a :: as₁, b, as₂, s₁, s₂, rfl, cons ha hbefore, hnot, hb, hs₂, hafter⟩

theorem last_entry {P : σ → Prop} {s t : σ} {as : List α} (h : Run Step s as t) (hs : ¬ P s)
    (ht : P t) :
    ∃ as₁ a as₂ s₁ s₂, as = as₁ ++ a :: as₂ ∧ Run Step s as₁ s₁ ∧ ¬ P s₁ ∧ Step s₁ a s₂ ∧
      P s₂ ∧ Run (fun x b y => Step x b y ∧ P y) s₂ as₂ t := by
  obtain ⟨hs', -⟩ | hentry := h.held_or_last_entry ht
  · exact absurd hs' hs
  · exact hentry

/-- A property that every step keeps or is reported to break holds at the end of a
run, or one of the steps broke it. -/
theorem kept_or_broken {I P : σ → Prop} {B : σ → α → Prop}
    (hI : ∀ s a t, I s → Step s a t → I t)
    (hstep : ∀ s a t, I s → P s → Step s a t → P t ∨ B s a)
    {s t : σ} {as : List α} (h : Run Step s as t) (hs : I s) (hP : P s) :
    P t ∨ ∃ as₁ a as₂ s₁ s₂, as = as₁ ++ a :: as₂ ∧ Run Step s as₁ s₁ ∧ Step s₁ a s₂ ∧
      Run Step s₂ as₂ t ∧ B s₁ a := by
  induction h with
  | nil s => exact Or.inl hP
  | @cons s s' t a as ha hrest ih =>
    obtain hP' | hB := hstep s a s' hs hP ha
    · obtain hend | ⟨as₁, b, as₂, s₁, s₂, rfl, hbefore, hb, hafter, hB⟩ :=
        ih (hI s a s' hs ha) hP'
      · exact Or.inl hend
      · exact Or.inr ⟨a :: as₁, b, as₂, s₁, s₂, rfl, cons ha hbefore, hb, hafter, hB⟩
    · exact Or.inr ⟨[], a, as, s, s', rfl, nil s, ha, hrest, hB⟩

end Run

end Alertmanager
