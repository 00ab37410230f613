import Mathlib.Tactic

/-!
# Computations that stop at their first fault

A computation in `Except` that is made of checks is described by the flat list of its
checks, each of which passes or has a fault: the computation fails with the first
fault of the list, and not at all when every check passes. The lemmas give the list of
a composed computation from those of its parts.
-/
namespace Alertmanager

universe u

variable {φ : Type*} {α β : Type u}

/-- The fault of a computation that fails. -/
def faultOf : Except φ α → Option φ
  | .ok _ => none
  | .error e => some e

/-- The first fault of a list of checks. -/
def firstFault (checks : List (Option φ)) : Option φ := checks.findSome? id

@[simp] theorem faultOf_ok (a : α) : faultOf (.ok a : Except φ α) = none := rfl

@[simp] theorem faultOf_pure (a : α) : faultOf (pure a : Except φ α) = none := rfl

@[simp] theorem faultOf_error (e : φ) : faultOf (.error e : Except φ α) = some e := rfl

@[simp] theorem firstFault_nil : firstFault ([] : List (Option φ)) = none := rfl

@[simp] theorem firstFault_none (cs : List (Option φ)) :
    firstFault (none :: cs) = firstFault cs := rfl

theorem firstFault_append (cs ds : List (Option φ)) :
    firstFault (cs ++ ds) = (firstFault cs).or (firstFault ds) := by
  simp [firstFault, List.findSome?_append]

theorem firstFault_eq_none {cs : List (Option φ)} :
    firstFault cs = none ↔ ∀ c ∈ cs, c = none := by
  simp [firstFault, List.findSome?_eq_none_iff]

theorem firstFault_flatten_eq_none {css : List (List (Option φ))} :
    firstFault css.flatten = none ↔ ∀ cs ∈ css, firstFault cs = none := by
  simp only [firstFault_eq_none, List.mem_flatten]
  constructor
  · exact fun h cs hcs c hc => h c ⟨cs, hcs, hc⟩
  · rintro h c ⟨cs, hcs, hc⟩
    exact h cs hcs c hc

theorem firstFault_eq_some {cs : List (Option φ)} {e : φ} :
    firstFault cs = some e ↔
      ∃ before after, cs = before ++ some e :: after ∧ ∀ c ∈ before, c = none := by
  constructor
  · intro h
    induction cs with
    | nil => cases h
    | cons c cs ih =>
      cases c with
      | none =>
        obtain ⟨before, after, rfl, hbefore⟩ := ih h
        exact ⟨none :: before, after, rfl, by simpa using hbefore⟩
      | some e' =>
        obtain rfl := Option.some.inj h
        exact ⟨[], cs, rfl, by simp⟩
  · rintro ⟨before, after, rfl, hbefore⟩
    induction before with
    | nil => rfl
    | cons c before ih =>
      obtain rfl := hbefore c List.mem_cons_self
      exact ih fun c hc => hbefore c (List.mem_cons_of_mem _ hc)

theorem faultOf_bind {x : Except φ α} {k : α → Except φ β} {cs ds : List (Option φ)}
    (hx : faultOf x = firstFault cs) (hk : ∀ a, x = .ok a → faultOf (k a) = firstFault ds) :
    faultOf (x >>= k) = firstFault (cs ++ ds) := by
  rw [firstFault_append, ← hx]
  cases x with
  | ok a => exact hk a rfl
  | error e => rfl

/-- A computation whose first part is a single check. -/
theorem faultOf_bind_cons {x : Except φ α} {k : α → Except φ β} {c : Option φ}
    {ds : List (Option φ)} (hx : faultOf x = c)
    (hk : ∀ a, x = .ok a → faultOf (k a) = firstFault ds) :
    faultOf (x >>= k) = firstFault (c :: ds) := by
  have hc : faultOf x = firstFault [c] := by
    rw [hx]
    cases c <;> rfl
  exact faultOf_bind hc hk

/-- A computation that is described part by part. -/
theorem faultOf_bind_flatten {x : Except φ α} {k : α → Except φ β} {cs : List (Option φ)}
    {dss : List (List (Option φ))} (hx : faultOf x = firstFault cs)
    (hk : ∀ a, x = .ok a → faultOf (k a) = firstFault dss.flatten) :
    faultOf (x >>= k) = firstFault (cs :: dss).flatten :=
  faultOf_bind hx hk

@[simp] theorem faultOf_map (f : α → β) (x : Except φ α) : faultOf (f <$> x) = faultOf x := by
  cases x <;> rfl

theorem faultOf_mapM {f : α → Except φ β} {cs : α → List (Option φ)} (l : List α)
    (h : ∀ a, faultOf (f a) = firstFault (cs a)) :
    faultOf (l.mapM f) = firstFault (l.flatMap cs) := by
  induction l with
  | nil => rfl
  | cons a l ih =>
    rw [List.mapM_cons, List.flatMap_cons]
    refine faultOf_bind (h a) fun b _ => ?_
    rw [show (do let bs ← l.mapM f; pure (b :: bs)) = (b :: ·) <$> l.mapM f from rfl, faultOf_map]
    exact ih

theorem faultOf_forM {f : α → Except φ PUnit.{u + 1}} {cs : α → List (Option φ)} (l : List α)
    (h : ∀ a, faultOf (f a) = firstFault (cs a)) :
    faultOf (l.forM f) = firstFault (l.flatMap cs) := by
  induction l with
  | nil => rfl
  | cons a l ih =>
    rw [List.flatMap_cons]
    exact faultOf_bind (h a) fun _ _ => ih

theorem bind_eq_ok {x : Except φ α} {k : α → Except φ β} {b : β} :
    x >>= k = .ok b ↔ ∃ a, x = .ok a ∧ k a = .ok b := by
  constructor
  · intro h
    cases x with
    | ok a => exact ⟨a, rfl, h⟩
    | error e => cases h
  · rintro ⟨a, rfl, h⟩
    exact h

theorem map_eq_ok {f : α → β} {x : Except φ α} {b : β} :
    f <$> x = .ok b ↔ ∃ a, x = .ok a ∧ f a = b := by
  rw [← bind_pure_comp, bind_eq_ok]
  constructor
  · rintro ⟨a, hx, h⟩
    exact ⟨a, hx, Except.ok.inj h⟩
  · rintro ⟨a, hx, rfl⟩
    exact ⟨a, hx, rfl⟩

theorem mapError_eq_ok {ψ : Type*} {f : φ → ψ} {x : Except φ α} {a : α} :
    x.mapError f = .ok a ↔ x = .ok a := by
  cases x <;> simp [Except.mapError]

theorem mapM_cons_eq_ok {f : α → Except φ β} {a : α} {l : List α} {l' : List β} :
    (a :: l).mapM f = .ok l' ↔ ∃ b bs, f a = .ok b ∧ l.mapM f = .ok bs ∧ l' = b :: bs := by
  simp only [List.mapM_cons, bind_eq_ok]
  constructor
  · rintro ⟨b, hb, bs, hbs, h⟩
    exact ⟨b, bs, hb, hbs, (Except.ok.inj h).symm⟩
  · rintro ⟨b, bs, hb, hbs, rfl⟩
    exact ⟨b, hb, bs, hbs, rfl⟩

theorem mapM_eq_ok_iff {f : α → Except φ β} {l : List α} {l' : List β} :
    l.mapM f = .ok l' ↔ List.Forall₂ (fun a b => f a = .ok b) l l' := by
  induction l generalizing l' with
  | nil => simp [pure, Except.pure, eq_comm]
  | cons a l ih => simp only [mapM_cons_eq_ok, List.forall₂_cons_left_iff, ih]

/-- What the computation on an element keeps, the list keeps element by element. -/
theorem map_eq_of_mapM {γ : Type*} {f : α → Except φ β} {p : α → γ} {q : β → γ}
    (hf : ∀ a b, f a = .ok b → q b = p a) {l : List α} {l' : List β} (h : l.mapM f = .ok l') :
    l'.map q = l.map p := by
  induction l generalizing l' with
  | nil =>
    obtain rfl : [] = l' := Except.ok.inj h
    rfl
  | cons a l ih =>
    obtain ⟨b, bs, hb, hbs, rfl⟩ := mapM_cons_eq_ok.mp h
    rw [List.map_cons, List.map_cons, hf a b hb, ih hbs]

/-- The elements of the result come from the computations on the elements of the list. -/
theorem exists_of_mem_mapM {f : α → Except φ β} {l : List α} {l' : List β}
    (h : l.mapM f = .ok l') {b : β} (hb : b ∈ l') : ∃ a ∈ l, f a = .ok b := by
  induction l generalizing l' with
  | nil =>
    obtain rfl : [] = l' := Except.ok.inj h
    cases hb
  | cons a l ih =>
    obtain ⟨b', bs, hb', hbs, rfl⟩ := mapM_cons_eq_ok.mp h
    obtain rfl | hb := List.mem_cons.mp hb
    · exact ⟨a, List.mem_cons_self, hb'⟩
    · obtain ⟨a', ha', hfa⟩ := ih hbs hb
      exact ⟨a', List.mem_cons_of_mem _ ha', hfa⟩

end Alertmanager
