import Mathlib.Tactic

/-!
# Self-delimiting texts

A printer is self-delimiting if its output can be told from whatever text follows it:
where two continued outputs agree, the printed values and the continuations agree. The
rules here say how such printers are put together: one after the other, in lists that
are closed by a stop symbol, in lists with separators, and after a text that does not
contain the mark that ends it.
-/
namespace Alertmanager

variable {α γ β : Type*} {S : α → Prop} {f : α → List β}

/-- Outputs of `f` on values satisfying `S` are delimited by themselves. -/
def SelfDelimiting (S : α → Prop) (f : α → List β) : Prop :=
  ∀ a b, S a → S b → ∀ s t, f a ++ s = f b ++ t → a = b ∧ s = t

namespace SelfDelimiting

theorem inj (h : SelfDelimiting S f) {a b : α} (ha : S a) (hb : S b) (heq : f a = f b) : a = b :=
  (h a b ha hb [] [] (by rw [heq])).1

/-- Changing the type that is printed. -/
theorem comap {R : γ → Prop} {g : γ → α} (h : SelfDelimiting S f) (hR : ∀ c, R c → S (g c))
    (hg : ∀ c d, R c → R d → g c = g d → c = d) : SelfDelimiting R (fun c => f (g c)) := by
  intro c d hc hd s t heq
  obtain ⟨hcd, hst⟩ := h (g c) (g d) (hR c hc) (hR d hd) s t heq
  exact ⟨hg c d hc hd hcd, hst⟩

/-- The elements of a list one after the other, closed by a symbol that begins none. -/
theorem closed (h : SelfDelimiting S f) {z : β}
    (hstart : ∀ a, S a → ∃ x xs, f a = x :: xs ∧ x ≠ z) :
    SelfDelimiting (fun l : List α => ∀ a ∈ l, S a) (fun l => l.flatMap f ++ [z]) := by
  intro l m hl hm s t heq
  induction l generalizing m with
  | nil =>
    cases m with
    | nil => exact ⟨rfl, by simpa using heq⟩
    | cons b m =>
      obtain ⟨x, xs, hb, hx⟩ := hstart b (hm b List.mem_cons_self)
      simp only [List.flatMap_nil, List.flatMap_cons, hb] at heq
      exact absurd (List.cons.inj heq).1.symm hx
  | cons a l ih =>
    cases m with
    | nil =>
      obtain ⟨x, xs, ha, hx⟩ := hstart a (hl a List.mem_cons_self)
      simp only [List.flatMap_nil, List.flatMap_cons, ha] at heq
      exact absurd (List.cons.inj heq).1 hx
    | cons b m =>
      simp only [List.flatMap_cons, List.append_assoc] at heq
      obtain ⟨rfl, hrest⟩ := h a b (hl a List.mem_cons_self) (hm b List.mem_cons_self) _ _ heq
      obtain ⟨rfl, hst⟩ := ih m (fun a' ha' => hl a' (List.mem_cons_of_mem a ha'))
        (fun b' hb' => hm b' (List.mem_cons_of_mem a hb')) (by simpa using hrest)
      exact ⟨rfl, hst⟩

/-- A separator before each element delimits as the elements do. -/
theorem separated (h : SelfDelimiting S f) (sep : List β) :
    SelfDelimiting S (fun a => sep ++ f a) := by
  intro a b ha hb s t heq
  simp only [List.append_assoc, List.append_cancel_left_eq] at heq
  exact h a b ha hb s t heq

end SelfDelimiting

theorem intercalate_cons_eq (sep a : List β) (l : List (List β)) :
    sep.intercalate (a :: l) = a ++ l.flatMap (sep ++ ·) := by
  induction l generalizing a with
  | nil => simp
  | cons b l ih => simp [List.intercalate_cons_cons, ih]

theorem intercalate_append_singleton (sep a : List β) {l : List (List β)} (hl : l ≠ []) :
    sep.intercalate (l ++ [a]) = sep.intercalate l ++ (sep ++ a) := by
  obtain ⟨b, l, rfl⟩ := List.exists_cons_of_ne_nil hl
  simp [intercalate_cons_eq]

/-- A non-empty list with separators, closed by a symbol that does not begin them. -/
theorem SelfDelimiting.intercalate (h : SelfDelimiting S f) {c z : β} (hc : c ≠ z)
    (sep : List β) :
    SelfDelimiting (fun l : List α => l ≠ [] ∧ ∀ a ∈ l, S a)
      (fun l => (c :: sep).intercalate (l.map f) ++ [z]) := by
  have htail := (h.separated (c :: sep)).closed (z := z) fun a _ => ⟨c, sep ++ f a, rfl, hc⟩
  rintro (_ | ⟨a, l⟩) (_ | ⟨b, m⟩) hl hm s t heq
  · exact absurd rfl hl.1
  · exact absurd rfl hl.1
  · exact absurd rfl hm.1
  · simp only [List.map_cons, intercalate_cons_eq, List.append_assoc, List.flatMap_map] at heq
    obtain ⟨rfl, hrest⟩ := h a b (hl.2 a List.mem_cons_self) (hm.2 b List.mem_cons_self) _ _ heq
    obtain ⟨rfl, hst⟩ := htail l m (fun a' ha' => hl.2 a' (List.mem_cons_of_mem a ha'))
      (fun b' hb' => hm.2 b' (List.mem_cons_of_mem a hb')) s t (by simpa using hrest)
    exact ⟨rfl, hst⟩

/-- The same for all lists if the closing symbol does not begin an element either. -/
theorem SelfDelimiting.intercalate_closed (h : SelfDelimiting S f) {c z : β} (hc : c ≠ z)
    (sep : List β) (hstart : ∀ a, S a → ∃ x xs, f a = x :: xs ∧ x ≠ z) :
    SelfDelimiting (fun l : List α => ∀ a ∈ l, S a)
      (fun l => (c :: sep).intercalate (l.map f) ++ [z]) := by
  -- An empty list shows the closing symbol where another one shows its first element.
  have hempty : ∀ b m s t, S b →
      [z] ++ s ≠ (c :: sep).intercalate ((b :: m).map f) ++ [z] ++ t := by
    intro b m s t hb heq
    obtain ⟨x, xs, hfb, hx⟩ := hstart b hb
    rw [List.map_cons, intercalate_cons_eq, hfb] at heq
    exact hx (List.cons.inj heq).1.symm
  rintro (_ | ⟨a, l⟩) (_ | ⟨b, m⟩) hl hm s t heq
  · exact ⟨rfl, by simpa using heq⟩
  · exact absurd (by simpa using heq) (hempty b m s t (hm b List.mem_cons_self))
  · exact absurd (by simpa using heq.symm) (hempty a l t s (hl a List.mem_cons_self))
  · exact h.intercalate hc sep (a :: l) (b :: m) ⟨List.cons_ne_nil a l, hl⟩
      ⟨List.cons_ne_nil b m, hm⟩ s t heq

/-- A text that ends before the first symbol satisfying `P`. -/
theorem eq_of_span {P : β → Prop} {l m s t : List β} {x y : β} (hl : ∀ a ∈ l, ¬ P a)
    (hm : ∀ a ∈ m, ¬ P a) (hx : P x) (hy : P y) (h : l ++ x :: s = m ++ y :: t) :
    l = m ∧ x = y ∧ s = t := by
  induction l generalizing m with
  | nil =>
    cases m with
    | nil =>
      obtain ⟨hxy, hst⟩ := List.cons.inj h
      exact ⟨rfl, hxy, hst⟩
    | cons b m =>
      obtain ⟨rfl, -⟩ := List.cons.inj h
      exact absurd hx (hm x List.mem_cons_self)
  | cons a l ih =>
    cases m with
    | nil =>
      obtain ⟨rfl, -⟩ := List.cons.inj h
      exact absurd hy (hl a List.mem_cons_self)
    | cons b m =>
      obtain ⟨rfl, hrest⟩ := List.cons.inj h
      obtain ⟨rfl, hxy, hst⟩ := ih (fun a' ha' => hl a' (List.mem_cons_of_mem a ha'))
        (fun b' hb' => hm b' (List.mem_cons_of_mem a hb')) hrest
      exact ⟨rfl, hxy, hst⟩

/-- A text that ends after the last symbol `x`. -/
theorem eq_of_last {l m s t : List β} {x : β} (hs : x ∉ s) (ht : x ∉ t)
    (h : l ++ x :: s = m ++ x :: t) : l = m ∧ s = t := by
  have hrev : s.reverse ++ x :: l.reverse = t.reverse ++ x :: m.reverse := by
    simpa using congrArg List.reverse h
  obtain ⟨hst, -, hlm⟩ := eq_of_span (P := (· = x))
    (by simpa using fun a ha => ne_of_mem_of_not_mem ha hs)
    (by simpa using fun a ha => ne_of_mem_of_not_mem ha ht) rfl rfl hrev
  exact ⟨List.reverse_injective hlm, List.reverse_injective hst⟩

/-- A text that ends before the first occurrence of two different symbols in a row. -/
theorem eq_of_mark {x y : β} (hxy : x ≠ y) {l m s t : List β} (hl : ¬ [x, y] <:+: l)
    (hm : ¬ [x, y] <:+: m) (h : l ++ x :: y :: s = m ++ x :: y :: t) : l = m ∧ s = t := by
  -- If one text were longer, the mark after the other would lie within it.
  have hlonger : ∀ {l m s t : List β}, ¬ [x, y] <:+: m → l ++ x :: y :: s = m ++ x :: y :: t →
      l.length ≤ m.length → l = m ∧ s = t := by
    intro l m s t hm h hle
    obtain ⟨r, rfl⟩ : l <+: m := List.prefix_of_prefix_length_le ⟨_, h⟩ ⟨_, rfl⟩ hle
    rw [List.append_assoc, List.append_cancel_left_eq] at h
    match r with
    | [] => exact ⟨by simp, by simpa using h⟩
    | [z] =>
      simp only [List.cons_append, List.nil_append, List.cons.injEq] at h
      exact absurd h.2.1.symm hxy
    | z :: z' :: r =>
      simp only [List.cons_append, List.cons.injEq] at h
      obtain ⟨rfl, rfl, -⟩ := h
      exact absurd ⟨l, r, by simp⟩ hm
  rcases le_total l.length m.length with hle | hle
  · exact hlonger hm h hle
  · obtain ⟨rfl, rfl⟩ := hlonger hl h.symm hle
    exact ⟨rfl, rfl⟩

end Alertmanager
