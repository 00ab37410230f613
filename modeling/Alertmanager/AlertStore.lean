import Alertmanager.Alert
import Alertmanager.Bucket

/-!
# The alert store

`store/store.go`: alerts by fingerprint, a limit bucket for each alert name when
a per-alert limit is set, and the flag that marks a store as destroyed. The
inhibition rules, the provider and the aggregation groups all keep their alerts
in it. Every method runs under the store's lock and is one function here.
-/
namespace Alertmanager

inductive StoreError
  | limited
  | notFound
  | destroyed
  deriving DecidableEq, Repr

structure AlertStore where
  alerts : GoMap Fingerprint Alert
  limits : GoMap GoString (Bucket Fingerprint)
  perAlertLimit : ℤ
  destroyed : Bool

namespace AlertStore

/-- `NewAlerts`. -/
def new : AlertStore := ⟨∅, ∅, 0, false⟩

/-- `WithPerAlertLimit`. -/
def withPerAlertLimit (s : AlertStore) (lim : ℤ) : AlertStore :=
  { s with limits := ∅, perAlertLimit := lim }

/-- `gcLimitBuckets`, ranging over the buckets in the given order. -/
def gcLimitBuckets (s : AlertStore) (now : ℤ) (order : List GoString) : AlertStore :=
  { s with limits := GoMap.deleteWhere (fun _ b => b.isStale now) order s.limits }

/-- `gcAlerts`: the resolved alerts, in visiting order, and the store without them. -/
def gcAlerts (s : AlertStore) (now : ℤ) (order : List Fingerprint) : List Alert × AlertStore :=
  (GoMap.deletedWhere (fun _ a => a.resolvedAt now) order s.alerts,
    { s with alerts := GoMap.deleteWhere (fun _ a => a.resolvedAt now) order s.alerts })

/-- `GC` without the callback, which belongs to the owner of the store. -/
def gc (s : AlertStore) (now : ℤ) (buckets : List GoString) (order : List Fingerprint) :
    List Alert × AlertStore :=
  (s.gcLimitBuckets now buckets).gcAlerts now order

/-- `Get`. -/
def get (s : AlertStore) (fp : Fingerprint) : Except StoreError Alert :=
  match s.alerts.lookup fp with
  | some a => .ok a
  | none => .error .notFound

/-- The bucket `Set` consults for an alert name, created when it is missing. -/
def bucket (s : AlertStore) (name : GoString) : Bucket Fingerprint :=
  (s.limits.lookup name).getD (.new s.perAlertLimit)

/-- `Set`: the error it returns and the store after it. -/
def set [LabelHash] (s : AlertStore) (now : ℤ) (a : Alert) : Option StoreError × AlertStore :=
  if s.destroyed then (some .destroyed, s)
  else
    let fp := fingerprint a.labels
    if 0 < s.perAlertLimit then
      let r := (s.bucket a.name).upsert now fp a.endsAt
      let limits := s.limits.insert a.name r.2
      if r.1 then (none, { s with limits := limits, alerts := s.alerts.insert fp a })
      else (some .limited, { s with limits := limits })
    else (none, { s with alerts := s.alerts.insert fp a })

/-- The loop of `DeleteIfNotModified`. -/
def deleteUnmodified [LabelHash] : List Alert → GoMap Fingerprint Alert → GoMap Fingerprint Alert
  | [], m => m
  | a :: as, m =>
    match m.lookup (fingerprint a.labels) with
    | some other =>
      if a.updatedAt = other.updatedAt then deleteUnmodified as (m.erase (fingerprint a.labels))
      else deleteUnmodified as m
    | none => deleteUnmodified as m

/-- `DeleteIfNotModified`, which never fails. -/
def deleteIfNotModified [LabelHash] (s : AlertStore) (as : List Alert) (destroyIfEmpty : Bool) :
    AlertStore :=
  let alerts := deleteUnmodified as s.alerts
  { s with
    alerts := alerts
    destroyed := if GoMap.len alerts = 0 && destroyIfEmpty then true else s.destroyed }

/-- `List`, in the order of the `range` loop. -/
def list (s : AlertStore) (order : List Fingerprint) : List Alert :=
  order.filterMap fun fp => s.alerts.lookup fp

/-- `Empty`. -/
def empty (s : AlertStore) : Bool := GoMap.len s.alerts = 0

theorem set_of_no_limit [LabelHash] {s : AlertStore} (hd : s.destroyed = false)
    (hl : s.perAlertLimit ≤ 0) (now : ℤ) (a : Alert) :
    s.set now a = (none, { s with alerts := s.alerts.insert (fingerprint a.labels) a }) := by
  simp only [set, hd]
  rw [if_neg (by simp), if_neg (by omega)]

/-- An entry survives the deletion, or one of the alerts is this version of it. -/
theorem lookup_deleteUnmodified [LabelHash] (as : List Alert) (m : GoMap Fingerprint Alert)
    (fp : Fingerprint) :
    (deleteUnmodified as m).lookup fp = m.lookup fp ∨
      (deleteUnmodified as m).lookup fp = none ∧
        ∃ a ∈ as, fingerprint a.labels = fp ∧
          ∃ other, m.lookup fp = some other ∧ a.updatedAt = other.updatedAt := by
  induction as generalizing m with
  | nil => exact Or.inl rfl
  | cons a as ih =>
    have hskip : (deleteUnmodified as m).lookup fp = m.lookup fp ∨
        (deleteUnmodified as m).lookup fp = none ∧
          ∃ b ∈ a :: as, fingerprint b.labels = fp ∧
            ∃ other, m.lookup fp = some other ∧ b.updatedAt = other.updatedAt := by
      obtain heq | ⟨hnone, b, hb, hrest⟩ := ih m
      · exact Or.inl heq
      · exact Or.inr ⟨hnone, b, List.mem_cons_of_mem a hb, hrest⟩
    cases hother : m.lookup (fingerprint a.labels) with
    | none =>
      simp only [deleteUnmodified, hother]
      exact hskip
    | some other =>
      simp only [deleteUnmodified, hother]
      split_ifs with hu
      · have herase := ih (m.erase (fingerprint a.labels))
        by_cases hfp : fp = fingerprint a.labels
        · rw [GoMap.lookup_erase_eq, if_pos hfp] at herase
          refine Or.inr ⟨?_, a, List.mem_cons_self, hfp.symm, other, ?_, hu⟩
          · obtain heq | ⟨hnone, -⟩ := herase
            · exact heq
            · exact hnone
          · rw [hfp]
            exact hother
        · rw [GoMap.lookup_erase_eq, if_neg hfp] at herase
          obtain heq | ⟨hnone, b, hb, hrest⟩ := herase
          · exact Or.inl heq
          · exact Or.inr ⟨hnone, b, List.mem_cons_of_mem a hb, hrest⟩
      · exact hskip

theorem lookup_gcAlerts {s : AlertStore} {order : List Fingerprint}
    (ho : GoMap.Ranges s.alerts order) (now : ℤ) (fp : Fingerprint) :
    (s.gcAlerts now order).2.alerts.lookup fp =
      (s.alerts.lookup fp).filter (fun a => !a.resolvedAt now) :=
  GoMap.lookup_deleteWhere_of_ranges _ ho fp

end AlertStore

end Alertmanager
