import Alertmanager.Labels

/-!
# Alerts

`alert/alert.go`. An alert resolves at its end time; the zero end time means
that it never does (`model.Alert.ResolvedAt`). `UpdatedAt` is the authoritative
timestamp by which `Merge` decides which of two versions is the younger.
-/
namespace Alertmanager

structure Alert where
  labels : LabelSet
  annotations : LabelSet
  startsAt : ℤ
  endsAt : ℤ
  generatorURL : GoString
  updatedAt : ℤ
  timeout : Bool
  deriving DecidableEq

namespace Alert

/-- `model.AlertNameLabel`. -/
def alertNameLabel : LabelName := str "alertname"

/-- `model.Alert.Name`. -/
def name (a : Alert) : GoString := LabelSet.get a.labels alertNameLabel

/-- `model.Alert.ResolvedAt`. -/
def resolvedAt (a : Alert) (ts : ℤ) : Bool :=
  if a.endsAt = 0 then false else !decide (ts < a.endsAt)

theorem resolvedAt_eq_true {a : Alert} {ts : ℤ} :
    a.resolvedAt ts = true ↔ a.endsAt ≠ 0 ∧ a.endsAt ≤ ts := by
  by_cases h : a.endsAt = 0
  · simp [resolvedAt, h]
  · simp [resolvedAt, h]

theorem resolvedAt_eq_false {a : Alert} {ts : ℤ} :
    a.resolvedAt ts = false ↔ a.endsAt = 0 ∨ ts < a.endsAt := by
  by_cases h : a.endsAt = 0
  · simp [resolvedAt, h]
  · simp [resolvedAt, h]

theorem resolvedAt_mono {a : Alert} {ts ts' : ℤ} (hle : ts ≤ ts')
    (h : a.resolvedAt ts = true) : a.resolvedAt ts' = true := by
  rw [resolvedAt_eq_true] at h ⊢
  exact ⟨h.1, h.2.trans hle⟩

theorem resolvedAt_earlier {a : Alert} {ts ts' : ℤ} (hle : ts ≤ ts')
    (h : a.resolvedAt ts' = false) : a.resolvedAt ts = false := by
  rw [resolvedAt_eq_false] at h ⊢
  omega

/-- The body of `Merge` once `o` is known to be the younger alert. -/
def mergeYounger (a o : Alert) (now : ℤ) : Alert :=
  { o with
    startsAt := if a.startsAt < o.startsAt then a.startsAt else o.startsAt
    endsAt :=
      if o.resolvedAt now then
        if a.resolvedAt now && decide (o.endsAt < a.endsAt) then a.endsAt else o.endsAt
      else
        if decide (o.endsAt < a.endsAt) && !a.timeout then a.endsAt else o.endsAt }

/-- `Alert.Merge`. The two calls of `Resolved` read the clock at `now`. -/
def merge (a o : Alert) (now : ℤ) : Alert :=
  if o.updatedAt < a.updatedAt then mergeYounger o a now else mergeYounger a o now

@[simp] theorem mergeYounger_updatedAt (a o : Alert) (now : ℤ) :
    (mergeYounger a o now).updatedAt = o.updatedAt := rfl

theorem merge_of_lt {a o : Alert} (h : a.updatedAt < o.updatedAt) (now : ℤ) :
    merge a o now = mergeYounger a o now := by
  rw [merge, if_neg (by omega)]

theorem merge_of_gt {a o : Alert} (h : o.updatedAt < a.updatedAt) (now : ℤ) :
    merge a o now = mergeYounger o a now := by
  rw [merge, if_pos h]

/-- The merged alert carries the later of the two authoritative timestamps. -/
theorem merge_updatedAt (a o : Alert) (now : ℤ) :
    (merge a o now).updatedAt = max a.updatedAt o.updatedAt := by
  unfold merge
  split_ifs with h
  · simp only [mergeYounger_updatedAt]
    omega
  · simp only [mergeYounger_updatedAt]
    omega

end Alert

end Alertmanager
