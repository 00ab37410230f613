import Alertmanager.FirstFault

/-!
# Lists that are read and written

Fields of a document that are lists, each missing or there. What is read from a document
is written in a form that reads the same, entry by entry, except that an empty list is left
out.
-/
namespace Alertmanager

variable {α β ε δ : Type}

/-- A list is decoded, or encoded, entry by entry if it is there. -/
def mapField (f : α → Except ε β) : Option (List α) → Except ε (Option (List β))
  | none => .ok none
  | some xs => some <$> xs.mapM f

/-- A list is decoded, with errors of the given kind. -/
def decodeField {γ : Type} (decode : α → Except ε β) (kind : ε → γ) :
    Option (List α) → Except γ (Option (List β)) :=
  mapField fun y => (decode y).mapError kind

/-- What is left of a field that is tagged `omitempty`. -/
def omitEmpty : Option (List α) → Option (List α)
  | some [] => none
  | field => field

theorem omitEmpty_eq {field : Option (List α)} (h : field ≠ some []) : omitEmpty field = field := by
  rw [omitEmpty.eq_def]
  split
  · exact absurd rfl h
  · rfl

/-- What is decoded can be encoded, in a form that is decoded as the same. -/
def ReadsBack (decode : α → Except ε β) (encode : β → Except δ α) : Prop :=
  ∀ y x, decode y = .ok x → ∃ y', encode x = .ok y' ∧ decode y' = .ok x

theorem ReadsBack.mapError {γ : Type} {decode : α → Except ε β} {encode : β → Except δ α}
    (h : ReadsBack decode encode) (f : ε → γ) :
    ReadsBack (fun y => (decode y).mapError f) encode := by
  intro y x hy
  obtain ⟨y', hencode, hdecode⟩ := h y x (mapError_eq_ok.mp hy)
  exact ⟨y', hencode, mapError_eq_ok.mpr hdecode⟩

theorem ReadsBack.mapM {decode : α → Except ε β} {encode : β → Except δ α}
    (h : ReadsBack decode encode) : ReadsBack (List.mapM decode) (List.mapM encode) := by
  intro ys xs hys
  rw [mapM_eq_ok_iff] at hys
  induction hys with
  | nil => exact ⟨[], rfl, rfl⟩
  | @cons y x ys xs hx hxs ih =>
    obtain ⟨y', hencode, hdecode⟩ := h y x hx
    obtain ⟨ys', hencodes, hdecodes⟩ := ih
    exact ⟨y' :: ys', mapM_cons_eq_ok.mpr ⟨y', ys', hencode, hencodes, rfl⟩,
      mapM_cons_eq_ok.mpr ⟨x, xs, hdecode, hdecodes, rfl⟩⟩

theorem ReadsBack.decodeField {γ : Type} {decode : α → Except ε β} {encode : β → Except δ α}
    (h : ReadsBack decode encode) (kind : ε → γ) {y : Option (List α)}
    {field : Option (List β)} (hy : decodeField decode kind y = .ok field) :
    ∃ y', mapField encode (omitEmpty field) = .ok y' ∧
      Alertmanager.decodeField decode kind y' = .ok (omitEmpty field) := by
  cases y with
  | none =>
    obtain rfl : none = field := Except.ok.inj hy
    exact ⟨none, rfl, rfl⟩
  | some ys =>
    obtain ⟨xs, hxs, rfl⟩ := map_eq_ok.mp hy
    cases xs with
    | nil => exact ⟨none, rfl, rfl⟩
    | cons x xs =>
      obtain ⟨ys', hencode, hdecode⟩ := (h.mapError kind).mapM ys (x :: xs) hxs
      exact ⟨some ys', map_eq_ok.mpr ⟨ys', hencode, rfl⟩, map_eq_ok.mpr ⟨x :: xs, hdecode, rfl⟩⟩

end Alertmanager
