import Alertmanager.AlertStore
import Alertmanager.Runs

/-!
# Putting alerts into the provider

`provider/mem/mem.go`. `Put` merges the new version of an alert with the stored
one when their activity ranges overlap, and overwrites it otherwise. The overlap
test asks whether an end of the new range lies strictly inside the stored range.
It is not symmetric: a range that contains the stored one, or shares its ends,
does not overlap it. When the test fails the stored version is lost, whatever
the authoritative timestamps say. So the order of two puts matters, also after
others, unless the time stamps of the versions and of the stored one allow it.
-/
namespace Alertmanager.AlertProvider

open Alert (mergeYounger merge_of_gt merge_of_lt resolvedAt_eq_true mergeYounger_updatedAt)

/-- `AlertStoreCallback.PreStore`: whether the alert may be stored. -/
structure Callback where
  preStore : Alert → Bool → Bool

def noopCallback : Callback := ⟨fun _ _ => true⟩

/-- The activity-range test of `Put` for a new and a stored version. -/
def overlaps (a old : Alert) : Bool :=
  (decide (old.startsAt < a.endsAt) && decide (a.endsAt < old.endsAt)) ||
    (decide (old.startsAt < a.startsAt) && decide (a.startsAt < old.endsAt))

theorem overlaps_iff {a old : Alert} : overlaps a old = true ↔
    (old.startsAt < a.endsAt ∧ a.endsAt < old.endsAt) ∨
      (old.startsAt < a.startsAt ∧ a.startsAt < old.endsAt) := by
  simp [overlaps]

/-- What `Put` stores when a version is already stored. -/
def combine (old a : Alert) (now : ℤ) : Alert :=
  if overlaps a old then old.merge a now else a

section
variable [LabelHash]

/-- One round of the loop of `Put`: the store, and the version the listeners get. -/
def putAlert (cb : Callback) (s : AlertStore) (now : ℤ) (a : Alert) :
    AlertStore × Option Alert :=
  let found := s.get (fingerprint a.labels)
  let existing := found.isOk
  let alert := match found with
    | .ok old => combine old a now
    | .error _ => a
  if cb.preStore alert existing then
    match s.set now alert with
    | (none, s') => (s', some alert)
    | (some _, s') => (s', none)
  else (s, none)

/-- `Put`: the store, and the versions sent to every listener, in order. -/
def put (cb : Callback) (s : AlertStore) (now : ℤ) : List Alert → AlertStore × List Alert
  | [] => (s, [])
  | a :: as =>
    let r := putAlert cb s now a
    let rest := put cb r.1 now as
    (rest.1, r.2.toList ++ rest.2)

/-- A live store without a per-alert limit accepts every alert. -/
def Unlimited (s : AlertStore) : Prop := s.destroyed = false ∧ s.perAlertLimit ≤ 0

/-- The version that `Put` leaves under the fingerprint of an alert. -/
def putResult (s : AlertStore) (now : ℤ) (a : Alert) : Alert :=
  match s.alerts.lookup (fingerprint a.labels) with
  | some old => combine old a now
  | none => a

end

theorem combine_labels [LabelHash] {old a : Alert}
    (h : fingerprint old.labels = fingerprint a.labels) (now : ℤ) :
    fingerprint (combine old a now).labels = fingerprint a.labels := by
  unfold combine Alert.merge
  split_ifs
  · exact h
  · rfl
  · rfl

/-- A store files every alert under its own fingerprint. -/
def Filed [LabelHash] (s : AlertStore) : Prop :=
  ∀ fp a, s.alerts.lookup fp = some a → fingerprint a.labels = fp

section
variable [LabelHash] {s : AlertStore}

theorem putResult_fingerprint (hf : Filed s) (now : ℤ) (a : Alert) :
    fingerprint (putResult s now a).labels = fingerprint a.labels := by
  unfold putResult
  cases h : s.alerts.lookup (fingerprint a.labels) with
  | some old => exact combine_labels (hf _ _ h) now
  | none => rfl

theorem putAlert_eq (hu : Unlimited s) (hf : Filed s) (now : ℤ) (a : Alert) :
    putAlert noopCallback s now a =
      ({ s with alerts := s.alerts.insert (fingerprint a.labels) (putResult s now a) },
        some (putResult s now a)) := by
  have hfp := putResult_fingerprint hf now a
  have halert : (match s.get (fingerprint a.labels) with
      | .ok old => combine old a now
      | .error _ => a) = putResult s now a := by
    unfold putResult AlertStore.get
    cases s.alerts.lookup (fingerprint a.labels) <;> rfl
  simp only [putAlert, halert, noopCallback, if_true, AlertStore.set_of_no_limit hu.1 hu.2, hfp]

theorem filed_putAlert (hu : Unlimited s) (hf : Filed s) (now : ℤ) (a : Alert) :
    Filed (putAlert noopCallback s now a).1 := by
  rw [putAlert_eq hu hf]
  intro fp b hb
  rw [GoMap.lookup_insert_eq] at hb
  split_ifs at hb with hfp
  · obtain rfl := Option.some.inj hb
    rw [hfp, putResult_fingerprint hf]
  · exact hf fp b hb

theorem unlimited_putAlert (hu : Unlimited s) (hf : Filed s) (now : ℤ) (a : Alert) :
    Unlimited (putAlert noopCallback s now a).1 := by
  rw [putAlert_eq hu hf]
  exact hu

theorem lookup_putAlert (hu : Unlimited s) (hf : Filed s) (now : ℤ) (a : Alert) :
    (putAlert noopCallback s now a).1.alerts.lookup (fingerprint a.labels) =
      some (putResult s now a) := by
  rw [putAlert_eq hu hf, GoMap.lookup_insert_eq, if_pos rfl]

end

/-! ### The authoritative timestamp -/

theorem combine_updatedAt (old a : Alert) (now : ℤ) :
    (combine old a now).updatedAt =
      if overlaps a old then max old.updatedAt a.updatedAt else a.updatedAt := by
  unfold combine
  split_ifs
  · exact Alert.merge_updatedAt old a now
  · rfl

/-- Storing over an older version is always right; storing over a newer one is
right exactly when the ranges are found to overlap. -/
theorem combine_not_older_iff (old a : Alert) (now : ℤ) :
    old.updatedAt ≤ (combine old a now).updatedAt ↔
      (a.updatedAt < old.updatedAt → overlaps a old = true) := by
  rw [combine_updatedAt]
  split_ifs with h
  · exact ⟨fun _ _ => h, fun _ => le_max_left _ _⟩
  · constructor
    · intro hle hlt
      omega
    · intro hlt
      by_contra hgt
      exact h (hlt (by omega))

/-- If an end of the older range lies inside the younger one but not the other
way round, the younger range contains the older and the merge changes nothing. -/
theorem mergeYounger_eq_of_contained {a b : Alert} (hab : overlaps a b = true)
    (hba : overlaps b a = false) (now : ℤ) : mergeYounger a b now = b := by
  have hin := overlaps_iff.mp hab
  have hout : ¬ ((a.startsAt < b.endsAt ∧ b.endsAt < a.endsAt) ∨
      (a.startsAt < b.startsAt ∧ b.startsAt < a.endsAt)) := by
    rw [← overlaps_iff, hba]
    simp
  have hstart : ¬ a.startsAt < b.startsAt := by omega
  have hend : ¬ b.endsAt < a.endsAt := by omega
  simp [Alert.mergeYounger, hstart, hend]

/-- Two versions put one after the other leave the same version in either order
exactly when an end of the older range lies strictly inside the younger one. -/
theorem combine_comm_iff {a b : Alert} (hlt : a.updatedAt < b.updatedAt) (now : ℤ) :
    combine a b now = combine b a now ↔ overlaps a b = true := by
  constructor
  · intro heq
    by_contra hov
    have hold : combine b a now = a := by rw [combine, if_neg hov]
    have hstamp := congrArg Alert.updatedAt heq
    rw [hold, combine_updatedAt] at hstamp
    split_ifs at hstamp
    · omega
    · omega
  · intro hov
    have hmerge : combine b a now = mergeYounger a b now := by
      rw [combine, if_pos hov, merge_of_gt hlt]
    rw [hmerge, combine]
    cases hba : overlaps b a with
    | true => rw [if_pos rfl, merge_of_lt hlt]
    | false =>
      rw [if_neg (by simp)]
      exact (mergeYounger_eq_of_contained hov hba now).symm

/-! ### Versions put after a stored one -/

/-- Whether a younger version takes over a later end: a resolved version from a resolved one,
another from one that is not a timeout. -/
def Takes (older younger : Alert) (now : ℤ) : Prop :=
  (younger.endsAt ≤ now ∧ older.endsAt ≤ now) ∨ (now < younger.endsAt ∧ older.timeout = false)

instance (older younger : Alert) (now : ℤ) : Decidable (Takes older younger now) :=
  inferInstanceAs (Decidable (_ ∨ _))

/-- The younger version gets its end from the older one. -/
def Extends (older younger : Alert) (now : ℤ) : Prop :=
  younger.endsAt < older.endsAt ∧ Takes older younger now

/-- The older version adds nothing to the range of the younger. -/
def AddsNothing (older younger : Alert) (now : ℤ) : Prop :=
  younger.startsAt ≤ older.startsAt ∧ ¬Extends older younger now

/-- The end of the younger version once the older one is merged into it. -/
def laterEnd (older younger : Alert) (now : ℤ) : ℤ :=
  if Takes older younger now then max older.endsAt younger.endsAt else younger.endsAt

/-- An end of the version lies strictly between the two instants. -/
def Inside (x : Alert) (start stop : ℤ) : Prop :=
  (start < x.endsAt ∧ x.endsAt < stop) ∨ (start < x.startsAt ∧ x.startsAt < stop)

instance (x : Alert) (start stop : ℤ) : Decidable (Inside x start stop) :=
  inferInstanceAs (Decidable (_ ∨ _))

/-- The start that is stored once a version is put after a stored one. -/
def startAfter (old x : Alert) : ℤ :=
  if overlaps x old then min old.startsAt x.startsAt else x.startsAt

/-- The end that is stored then. -/
def endAfter (old x : Alert) (now : ℤ) : ℤ :=
  if overlaps x old then
    if x.updatedAt < old.updatedAt then laterEnd x old now else laterEnd old x now
  else x.endsAt

variable {old a b x y z : Alert} {now : ℤ}

theorem laterEnd_le_now : laterEnd x y now ≤ now ↔ y.endsAt ≤ now := by
  unfold laterEnd Takes
  split_ifs <;> omega

/-- An end that another version lets through is taken over directly too. -/
theorem Takes.trans (hxy : Takes x y now) (hyz : Takes y z now) (hlt : z.endsAt < x.endsAt) :
    Takes x z now := by
  rcases hxy with ⟨hy, hx⟩ | ⟨hy, hx⟩
  · rcases hyz with ⟨hz, -⟩ | ⟨hz, -⟩
    · exact Or.inl ⟨hz, hx⟩
    · omega
  · rcases hyz with ⟨-, hy'⟩ | ⟨hz, -⟩
    · omega
    · exact Or.inr ⟨hz, hx⟩

theorem Takes.of_le (hxz : Takes x z now) (hyz : Takes y z now) (hle : z.endsAt ≤ y.endsAt) :
    Takes x y now := by
  rcases hxz with ⟨hz, hx⟩ | ⟨hz, hx⟩
  · rcases hyz with ⟨-, hy⟩ | ⟨hz', -⟩
    · exact Or.inl ⟨hy, hx⟩
    · omega
  · exact Or.inr ⟨hz.trans_le hle, hx⟩

section
variable (hx : x.endsAt ≠ 0) (hy : y.endsAt ≠ 0)
include hx hy

theorem laterEnd_ne_zero : laterEnd x y now ≠ 0 := by
  unfold laterEnd
  split_ifs <;> omega

theorem mergeYounger_eq (now : ℤ) : mergeYounger x y now =
    { y with startsAt := min x.startsAt y.startsAt, endsAt := laterEnd x y now } := by
  have hres : ∀ x : Alert, x.endsAt ≠ 0 → x.resolvedAt now = decide (x.endsAt ≤ now) := by
    intro x hx
    rw [Bool.eq_iff_iff, resolvedAt_eq_true, decide_eq_true_eq]
    exact and_iff_right hx
  unfold mergeYounger laterEnd Takes
  rw [hres x hx, hres y hy]
  congr 1
  · split_ifs <;> omega
  · rcases le_or_gt x.endsAt y.endsAt with hle | hlt
    · simp [hle, not_lt.mpr hle]
    · by_cases hy' : y.endsAt ≤ now <;> by_cases hx' : x.endsAt ≤ now <;>
        simp [hy', hx', hlt, hlt.le, lt_iff_not_ge]

theorem mergeYounger_endsAt : (mergeYounger x y now).endsAt = laterEnd x y now := by
  rw [mergeYounger_eq hx hy]

/-- What is merged into a version does not change what that version takes over, nor what is
taken over from it. -/
theorem takes_mergeYounger (z : Alert) :
    (Takes z (mergeYounger x y now) now ↔ Takes z y now) ∧
      (Takes (mergeYounger x y now) z now ↔ Takes y z now) := by
  have hle := @laterEnd_le_now x y now
  have hlt : now < laterEnd x y now ↔ now < y.endsAt := by rw [← not_le, hle, not_le]
  have htimeout : (mergeYounger x y now).timeout = y.timeout := rfl
  simp only [Takes, mergeYounger_endsAt hx hy, hle, hlt, htimeout, and_self]

/-- The end that comes to a version through another, and after that of another. -/
theorem laterEnd_mergeYounger (z : Alert) :
    laterEnd (mergeYounger x y now) z now =
        (if Takes y z now then max (laterEnd x y now) z.endsAt else z.endsAt) ∧
      laterEnd z (mergeYounger x y now) now =
        if Takes z y now then max z.endsAt (laterEnd x y now) else laterEnd x y now := by
  constructor <;> rw [laterEnd, mergeYounger_endsAt hx hy] <;>
    simp only [takes_mergeYounger hx hy z]

theorem eq_mergeYounger_iff : y = mergeYounger x y now ↔ AddsNothing x y now := by
  have hend : y.endsAt = laterEnd x y now ↔ ¬Extends x y now := by
    unfold laterEnd Extends
    split_ifs with htakes <;> simp [htakes]
  rw [mergeYounger_eq hx hy, AddsNothing, ← hend]
  cases y
  simp

variable (hz : z.endsAt ≠ 0)
include hz

theorem laterEnd_comm :
    laterEnd x (mergeYounger y z now) now = laterEnd y (mergeYounger x z now) now := by
  rw [(laterEnd_mergeYounger hy hz x).2, (laterEnd_mergeYounger hx hz y).2, laterEnd, laterEnd]
  split_ifs <;> omega

theorem mergeYounger_comm : mergeYounger x (mergeYounger y z now) now =
    mergeYounger y (mergeYounger x z now) now := by
  have hne : ∀ {x}, x.endsAt ≠ 0 → (mergeYounger x z now).endsAt ≠ 0 := fun hx => by
    rw [mergeYounger_endsAt hx hz]
    exact laterEnd_ne_zero hx hz
  rw [mergeYounger_eq hx (hne hy), mergeYounger_eq hy (hne hx), laterEnd_comm hx hy hz,
    mergeYounger_eq hy hz, mergeYounger_eq hx hz]
  simp only [min_left_comm]

/-- The end of `x` comes to `z` through `y` exactly if both take it over. -/
theorem laterEnd_through_iff :
    laterEnd (mergeYounger x y now) z now = laterEnd x (mergeYounger y z now) now ↔
      (Extends x z now → Takes y z now ∧ (Takes x y now ∨ x.endsAt ≤ y.endsAt)) := by
  have hdirect := @Takes.trans x y z now
  rw [(laterEnd_mergeYounger hx hy z).1, (laterEnd_mergeYounger hy hz x).2]
  unfold laterEnd Extends
  by_cases hyz : Takes y z now
  · by_cases hxy : Takes x y now <;> by_cases hxz : Takes x z now <;>
      simp [hyz, hxy, hxz] at hdirect ⊢ <;> omega
  · by_cases hxz : Takes x z now <;> simp [hyz, hxz]

end

theorem combine_of_lt (h : overlaps x old = true) (hlt : x.updatedAt < old.updatedAt) :
    combine old x now = mergeYounger x old now := by
  rw [combine, if_pos h, merge_of_gt hlt]

theorem combine_of_ge (h : overlaps x old = true) (hge : old.updatedAt ≤ x.updatedAt) :
    combine old x now = mergeYounger old x now := by
  rw [combine, if_pos h, Alert.merge, if_neg (not_lt.mpr hge)]

theorem combine_of_apart (h : ¬overlaps x old = true) : combine old x now = x := by
  rw [combine, if_neg h]

theorem combine_range (ho : old.endsAt ≠ 0) (hx : x.endsAt ≠ 0) :
    (combine old x now).startsAt = startAfter old x ∧
      (combine old x now).endsAt = endAfter old x now := by
  unfold startAfter endAfter
  split_ifs with hov hlt
  · rw [combine_of_lt hov hlt, mergeYounger_eq hx ho]
    exact ⟨min_comm _ _, rfl⟩
  · rw [combine_of_ge hov (not_lt.mp hlt), mergeYounger_eq ho hx]
    exact ⟨rfl, rfl⟩
  · rw [combine_of_apart hov]
    exact ⟨rfl, rfl⟩

theorem combine_ne_zero (ho : old.endsAt ≠ 0) (hx : x.endsAt ≠ 0) :
    (combine old x now).endsAt ≠ 0 := by
  rw [(combine_range ho hx).2, endAfter]
  split_ifs
  · exact laterEnd_ne_zero hx ho
  · exact laterEnd_ne_zero ho hx
  · exact hx

theorem overlaps_combine_iff (ho : old.endsAt ≠ 0) (hx : x.endsAt ≠ 0) :
    overlaps z (combine old x now) = true ↔
      Inside z (startAfter old x) (endAfter old x now) := by
  rw [overlaps_iff, (combine_range ho hx).1, (combine_range ho hx).2, Inside]

/-- The younger of two versions gets the same end in both orders. -/
def EndsAgree (old a b : Alert) (now : ℤ) : Prop :=
  if overlaps a old then
    if a.updatedAt < old.updatedAt then
      if overlaps b old then
        Extends a b now → Takes old b now ∧ (Takes a old now ∨ a.endsAt ≤ old.endsAt)
      else ¬Extends old b now ∧ (Extends a b now → Takes old b now)
    else if overlaps b old then
      Extends old b now → Takes a b now ∧ (Takes old a now ∨ old.endsAt ≤ a.endsAt)
    else Extends old b now → ¬Takes a b now
  else overlaps b old → Extends old b now → Takes a b now ∧ old.endsAt ≤ a.endsAt

/-- When an older version `a` and a younger `b` may be put in either order after a stored
one. The range stored after `b` has an end of `a` inside. If the stored version is younger
than both, it keeps its data in both orders or in none; if not, `b` keeps its data, and
gets the same range. -/
def Commute (old a b : Alert) (now : ℤ) : Prop :=
  Inside a (startAfter old b) (endAfter old b now) ∧
    if b.updatedAt < old.updatedAt then
      if overlaps b old then
        overlaps a old = true ∧ Inside b (startAfter old a) (endAfter old a now)
      else overlaps a old →
        ¬Inside b (startAfter old a) (endAfter old a now) ∧ AddsNothing a b now
    else if Inside b (startAfter old a) (endAfter old a now) then
      ((overlaps a old ↔ overlaps b old) ∨ min a.startsAt b.startsAt ≤ old.startsAt) ∧
        EndsAgree old a b now
    else AddsNothing a b now ∧ (overlaps b old → AddsNothing old b now)

section
variable (ho : old.endsAt ≠ 0) (ha : a.endsAt ≠ 0) (hb : b.endsAt ≠ 0)
include ho ha hb

/-- The stored version is the youngest. -/
theorem commute_iff_of_youngest (hlt : a.updatedAt < b.updatedAt)
    (hbo : b.updatedAt < old.updatedAt) (hav : overlaps a (combine old b now) = true) :
    combine (combine old a now) b now = mergeYounger a (combine old b now) now ↔
      if overlaps b old then overlaps a old = true ∧ overlaps b (combine old a now) = true
      else overlaps a old → ¬overlaps b (combine old a now) = true ∧ AddsNothing a b now := by
  have hfirst := combine_updatedAt (combine old a now) b now
  rw [combine_updatedAt old a now] at hfirst
  have hsecond := combine_updatedAt old b now
  split_ifs with hq
  · constructor
    · intro heq
      have hstamp := congrArg Alert.updatedAt heq
      rw [hfirst, mergeYounger_updatedAt, hsecond, if_pos hq] at hstamp
      split_ifs at hstamp with hbu hp
      · exact ⟨hp, hbu⟩
      all_goals omega
    · rintro ⟨hp, hbu⟩
      have hu := @combine_of_lt _ _ now hp (hlt.trans hbo)
      rw [hu] at hbu ⊢
      rw [combine_of_lt hbu hbo, combine_of_lt hq hbo]
      exact mergeYounger_comm hb ha ho
  · rw [combine_of_apart hq] at hav ⊢
    by_cases hp : overlaps a old = true
    · simp only [hp, forall_const]
      by_cases hbu : overlaps b (combine old a now) = true
      · refine iff_of_false (fun heq => ?_) fun h => h.1 hbu
        have hstamp := congrArg Alert.updatedAt heq
        rw [hfirst, if_pos hbu, if_pos hp, mergeYounger_updatedAt] at hstamp
        omega
      · rw [combine_of_apart hbu, eq_mergeYounger_iff ha hb]
        simp [hbu]
    · rw [combine_of_apart hp, (combine_comm_iff hlt now).mpr hav, combine_of_lt hav hlt]
      simp [hp]

omit hb in
/-- Only `a` overlaps the stored version, and `b` the range of both. -/
theorem laterEnd_apart_iff (hp : overlaps a old = true) (hq : ¬overlaps b old = true)
    (hab : overlaps a b = true) :
    (overlaps b (mergeYounger a old now) = true →
      (laterEnd (mergeYounger a old now) b now = laterEnd a b now ↔
        ¬Extends old b now ∧ (Extends a b now → Takes old b now))) ∧
    (overlaps b (mergeYounger old a now) = true →
      (laterEnd (mergeYounger old a now) b now = laterEnd a b now ↔
        (Extends old b now → ¬Takes a b now))) := by
  have hdirect := @Takes.trans a old b now
  have hdirect' := @Takes.trans old a b now
  have hbetween := @Takes.of_le old a b now
  rw [overlaps_iff] at hp hq hab
  rw [overlaps_iff, overlaps_iff, (laterEnd_mergeYounger ha ho b).1,
    (laterEnd_mergeYounger ho ha b).1, mergeYounger_eq ha ho, mergeYounger_eq ho ha]
  unfold laterEnd Extends
  constructor
  · intro hbu
    by_cases hao : Takes a old now <;> by_cases hob : Takes old b now <;>
      by_cases hab' : Takes a b now <;> simp [hao, hob, hab'] at hdirect hbu ⊢ <;> omega
  · intro hbu
    by_cases hao : Takes old a now <;> by_cases hob : Takes old b now <;>
      by_cases hab' : Takes a b now <;>
      simp [hao, hob, hab'] at hdirect' hbetween hbu ⊢ <;> omega

theorem endsAgree_iff (hav : overlaps a (combine old b now) = true)
    (hbu : overlaps b (combine old a now) = true) (hbo : old.updatedAt ≤ b.updatedAt) :
    laterEnd (combine old a now) b now = laterEnd a (combine old b now) now ↔
      EndsAgree old a b now := by
  unfold EndsAgree
  split_ifs with hp hao hq hq
  · rw [combine_of_lt hp hao, combine_of_ge hq hbo]
    exact laterEnd_through_iff ha ho hb
  · rw [combine_of_lt hp hao] at hbu ⊢
    rw [combine_of_apart hq] at hav ⊢
    exact (laterEnd_apart_iff ho ha hp hq hav).1 hbu
  · rw [combine_of_ge hp (not_lt.mp hao), combine_of_ge hq hbo, laterEnd_comm ha ho hb]
    exact laterEnd_through_iff ho ha hb
  · rw [combine_of_ge hp (not_lt.mp hao)] at hbu ⊢
    rw [combine_of_apart hq] at hav ⊢
    exact (laterEnd_apart_iff ho ha hp hq hav).2 hbu
  · rw [combine_of_apart hp]
    by_cases hq : overlaps b old = true
    · rw [combine_of_ge hq hbo, (laterEnd_mergeYounger ho hb a).2]
      unfold laterEnd Extends
      by_cases hab : Takes a b now <;> by_cases hob : Takes old b now <;>
        (simp [hq, hab, hob]; try omega)
    · simp [combine_of_apart hq, hq]

/-- The two orders keep the data of `b`. -/
theorem commute_iff_of_joined (hlt : a.updatedAt < b.updatedAt)
    (hbo : old.updatedAt ≤ b.updatedAt) (hav : overlaps a (combine old b now) = true)
    (hbu : overlaps b (combine old a now) = true) :
    combine (combine old a now) b now = mergeYounger a (combine old b now) now ↔
      ((overlaps a old ↔ overlaps b old) ∨ min a.startsAt b.startsAt ≤ old.startsAt) ∧
        EndsAgree old a b now := by
  have hyounger : (combine old a now).updatedAt ≤ b.updatedAt := by
    rw [combine_updatedAt]
    split_ifs <;> omega
  have hdata : combine old b now = { b with
      startsAt := (combine old b now).startsAt, endsAt := (combine old b now).endsAt } := by
    by_cases hq : overlaps b old = true
    · rw [combine_of_ge hq hbo]
      rfl
    · rw [combine_of_apart hq]
  have hstart : min (combine old a now).startsAt b.startsAt =
      min a.startsAt (combine old b now).startsAt ↔
      (overlaps a old ↔ overlaps b old) ∨ min a.startsAt b.startsAt ≤ old.startsAt := by
    rw [(combine_range ho ha).1, (combine_range ho hb).1, startAfter, startAfter]
    split_ifs with hp hq hq <;> simp [hp, hq] <;> omega
  rw [combine_of_ge hbu hyounger, ← hstart, ← endsAgree_iff ho ha hb hav hbu hbo,
    mergeYounger_eq (combine_ne_zero ho ha) hb, mergeYounger_eq ha (combine_ne_zero ho hb)]
  rw [hdata]
  simp

/-- What is put first is lost. -/
theorem commute_iff_of_lost (hbo : old.updatedAt ≤ b.updatedAt)
    (hbu : ¬overlaps b (combine old a now) = true) :
    combine (combine old a now) b now = mergeYounger a (combine old b now) now ↔
      AddsNothing a b now ∧ (overlaps b old → AddsNothing old b now) := by
  rw [combine_of_apart hbu]
  by_cases hq : overlaps b old = true
  · rw [combine_of_ge hq hbo]
    simp only [hq, forall_const]
    constructor
    · intro heq
      have hne : (mergeYounger old b now).endsAt ≠ 0 := by
        rw [mergeYounger_endsAt ho hb]
        exact laterEnd_ne_zero ho hb
      have hstart := congrArg Alert.startsAt heq
      have hend := congrArg Alert.endsAt heq
      rw [mergeYounger_eq ha hne, mergeYounger_eq ho hb] at hstart
      rw [mergeYounger_endsAt ha hne, (laterEnd_mergeYounger ho hb a).2] at hend
      simp only at hstart
      unfold laterEnd at hend
      refine ⟨⟨by omega, fun hext => ?_⟩, by omega, fun hext => ?_⟩
      · have := hext.1
        rw [if_pos hext.2] at hend
        split_ifs at hend <;> omega
      · have := hext.1
        rw [if_pos hext.2] at hend
        split_ifs at hend <;> omega
    · rintro ⟨hnothing, hnothing'⟩
      rw [← (eq_mergeYounger_iff ho hb).mpr hnothing']
      exact (eq_mergeYounger_iff ha hb).mpr hnothing
  · rw [combine_of_apart hq, eq_mergeYounger_iff ha hb]
    simp [hq]

theorem combine_combine_iff (hlt : a.updatedAt < b.updatedAt) :
    combine (combine old a now) b now = combine (combine old b now) a now ↔
      Commute old a b now := by
  have hyounger : b.updatedAt ≤ (combine old b now).updatedAt := by
    rw [combine_updatedAt]
    split_ifs <;> omega
  unfold Commute
  simp only [← overlaps_combine_iff ho ha, ← overlaps_combine_iff ho hb]
  by_cases hav : overlaps a (combine old b now) = true
  · rw [combine_of_lt hav (hlt.trans_le hyounger), and_iff_right hav]
    by_cases hbo : b.updatedAt < old.updatedAt
    · rw [if_pos hbo]
      exact commute_iff_of_youngest ho ha hb hlt hbo hav
    · rw [if_neg hbo]
      split_ifs with hbu
      · exact commute_iff_of_joined ho ha hb hlt (not_lt.mp hbo) hav hbu
      · exact commute_iff_of_lost ho ha hb (not_lt.mp hbo) hbu
  · refine iff_of_false (fun heq => ?_) fun h => hav h.1
    have hstamp := congrArg Alert.updatedAt heq
    rw [combine_of_apart hav, combine_updatedAt] at hstamp
    split_ifs at hstamp <;> omega

end

/-- A new provider with the given per-alert limit. -/
def init (lim : ℤ) : AlertStore := AlertStore.new.withPerAlertLimit lim

theorem unlimited_init {lim : ℤ} (hlim : lim ≤ 0) : Unlimited (init lim) := ⟨rfl, hlim⟩

section
variable [LabelHash]

/-- One call of `Put` with one alert at the given time. -/
def next (s : AlertStore) (p : ℤ × Alert) : AlertStore := (put noopCallback s p.1 [p.2]).1

/-- The `UpdatedAt` of the version stored under the fingerprint does not decrease. -/
def NotDecreased (fp : Fingerprint) (s : AlertStore) (p : ℤ × Alert) : Prop :=
  ∀ old new, s.alerts.lookup fp = some old → (next s p).alerts.lookup fp = some new →
    old.updatedAt ≤ new.updatedAt

/-- A version older than the stored one has an end strictly inside its range. -/
def OlderInside (fp : Fingerprint) (s : AlertStore) (p : ℤ × Alert) : Prop :=
  ∀ old, s.alerts.lookup fp = some old → p.2.updatedAt < old.updatedAt →
    overlaps p.2 old = true

theorem next_eq (s : AlertStore) (p : ℤ × Alert) :
    next s p = (putAlert noopCallback s p.1 p.2).1 := rfl

theorem notDecreased_iff {fp : Fingerprint} {s : AlertStore} (hu : Unlimited s) (hf : Filed s)
    {p : ℤ × Alert} (hp : fingerprint p.2.labels = fp) :
    NotDecreased fp s p ↔ OlderInside fp s p := by
  have hnew := lookup_putAlert hu hf p.1 p.2
  rw [hp] at hnew
  unfold NotDecreased OlderInside
  simp only [next_eq, hnew, Option.some.injEq]
  constructor
  · intro h old hold
    have hle := h old _ hold rfl
    rw [putResult, hp, hold] at hle
    exact (combine_not_older_iff old p.2 p.1).mp hle
  · rintro h old _ hold rfl
    rw [putResult, hp, hold]
    exact (combine_not_older_iff old p.2 p.1).mpr (h old hold)

theorem filed_init (lim : ℤ) : Filed (init lim) := by
  intro fp a h
  simp [init, AlertStore.new, AlertStore.withPerAlertLimit] at h

/-- A condition under which two versions may be put in either order. -/
def Commutes (stored : Option Alert) (a b : Alert) (now : ℤ) : Prop :=
  match stored with
  | none => overlaps a b = true
  | some old => Commute old a b now

/-- What holds of a provider after puts of versions that have an end. -/
structure Sane (fp : Fingerprint) (s : AlertStore) : Prop where
  unlimited : Unlimited s
  filed : Filed s
  ends : ∀ old, s.alerts.lookup fp = some old → old.endsAt ≠ 0

section
variable {fp : Fingerprint} {s : AlertStore} {p : ℤ × Alert}

theorem lookup_next (hs : Sane fp s) (hp : fingerprint p.2.labels = fp) :
    (next s p).alerts.lookup fp =
      some ((s.alerts.lookup fp).elim p.2 fun old => combine old p.2 p.1) := by
  have hlook := lookup_putAlert hs.unlimited hs.filed p.1 p.2
  rw [hp] at hlook
  rw [next_eq, hlook, putResult, hp]
  cases s.alerts.lookup fp <;> rfl

theorem sane_next (hs : Sane fp s) (hp : fingerprint p.2.labels = fp) (hend : p.2.endsAt ≠ 0) :
    Sane fp (next s p) := by
  refine ⟨unlimited_putAlert hs.unlimited hs.filed p.1 p.2,
    filed_putAlert hs.unlimited hs.filed p.1 p.2, fun old hold => ?_⟩
  rw [lookup_next hs hp, Option.some.injEq] at hold
  subst hold
  cases hstored : s.alerts.lookup fp with
  | none => exact hend
  | some old => exact combine_ne_zero (hs.ends old hstored) hend

theorem sane_run {lim : ℤ} (hlim : lim ≤ 0) {puts : List (ℤ × Alert)}
    (hputs : ∀ p ∈ puts, fingerprint p.2.labels = fp ∧ p.2.endsAt ≠ 0) :
    Sane fp (puts.foldl next (init lim)) := by
  induction puts using List.reverseRecOn with
  | nil =>
    refine ⟨unlimited_init hlim, filed_init lim, fun old hold => ?_⟩
    simp [init, AlertStore.new, AlertStore.withPerAlertLimit] at hold
  | append_singleton puts p ih =>
    rw [List.foldl_append]
    obtain ⟨hp, hend⟩ := hputs p (by simp)
    exact sane_next (ih fun q hq => hputs q (by simp [hq])) hp hend

theorem commutes_iff {now : ℤ} (hs : Sane fp s) (ha : fingerprint a.labels = fp)
    (hb : fingerprint b.labels = fp) (hae : a.endsAt ≠ 0) (hbe : b.endsAt ≠ 0)
    (hlt : a.updatedAt < b.updatedAt) :
    (next (next s (now, a)) (now, b)).alerts.lookup fp =
        (next (next s (now, b)) (now, a)).alerts.lookup fp ↔
      Commutes (s.alerts.lookup fp) a b now := by
  have hsa : Sane fp (next s (now, a)) := sane_next hs ha hae
  have hsb : Sane fp (next s (now, b)) := sane_next hs hb hbe
  rw [lookup_next hsa hb, lookup_next hsb ha, lookup_next hs ha, lookup_next hs hb,
    Option.some.injEq]
  cases hstored : s.alerts.lookup fp with
  | none => exact combine_comm_iff hlt now
  | some old => exact combine_combine_iff (hs.ends old hstored) hae hbe hlt

end

end

/-- A version of one alert. -/
def version (startsAt endsAt updatedAt : ℤ) : Alert where
  labels := (∅ : LabelSet).insert Alert.alertNameLabel (str "X")
  annotations := ∅
  startsAt := startsAt
  endsAt := endsAt
  generatorURL := []
  updatedAt := updatedAt
  timeout := false

end Alertmanager.AlertProvider
