import Alertmanager.AlertStore
import Alertmanager.Runs

/-!
# The per-alert-name limit of the store

The limit is kept in a bucket for each alert name, beside the alert map. The
invariant ties the two together: every unresolved stored alert has its
fingerprint in the bucket of its name, under its own end time. An eviction
respects it because only an expired item is evicted. Dropping a stale bucket
respects it as long as the bucket has no unexpired item left, which `IsStale`,
reading only the last slot of the heap slice, does not guarantee.
-/
namespace Alertmanager.PerAlertLimit

/-- The store and the last reading of the clock. -/
structure State where
  store : AlertStore
  clock : ℤ

inductive Op
  | set (now : ℤ) (a : Alert)
  | gc (now : ℤ) (buckets : List GoString) (order : List Fingerprint)

/-- The clock does not go back, alerts have an end time, and a collection ranges
over the buckets and the alerts in some order. -/
def Enabled (s : State) : Op → Prop
  | .set now a => s.clock ≤ now ∧ a.endsAt ≠ 0
  | .gc now buckets order =>
    s.clock ≤ now ∧ GoMap.Ranges s.store.limits buckets ∧ GoMap.Ranges s.store.alerts order

instance (s : State) (op : Op) : Decidable (Enabled s op) := by
  cases op <;> exact instDecidableAnd

def init (lim t : ℤ) : State := ⟨AlertStore.new.withPerAlertLimit lim, t⟩

/-- The stored unresolved alerts of one name, by fingerprint. -/
def unresolved (s : AlertStore) (name : GoString) (t : ℤ) : Finset Fingerprint :=
  s.alerts.keys.filter fun fp =>
    (s.alerts.lookup fp).any (fun a => decide (a.name = name) && !a.resolvedAt t)

/-- A bucket that `IsStale` reports at a collection has only expired items. -/
def StaleOnlyWhenExpired (s : State) : Op → Prop
  | .set _ _ => True
  | .gc now _ _ => ∀ name ∈ s.store.limits.keys, (s.store.bucket name).isStale now = true →
      ∀ v ∈ (s.store.bucket name).items, ((s.store.bucket name).item v).expired now = true

instance (s : State) (op : Op) : Decidable (StaleOnlyWhenExpired s op) := by
  cases op with
  | set now a => exact isTrue trivial
  | gc now buckets order =>
    have hexpired (name : GoString) : Decidable (∀ v ∈ (s.store.bucket name).items,
        ((s.store.bucket name).item v).expired now = true) := List.decidableBAll _ _
    unfold StaleOnlyWhenExpired
    infer_instance

def next [LabelHash] (s : State) : Op → State
  | .set now a => ⟨(s.store.set now a).2, now⟩
  | .gc now buckets order => ⟨(s.store.gc now buckets order).2, now⟩

/-- The invariant between the alert map and the buckets. -/
structure Held (lim : ℤ) (s : State) : Prop where
  limit : s.store.perAlertLimit = lim
  alive : s.store.destroyed = false
  bucket : ∀ name b, s.store.limits.lookup name = some b →
    b.Consistent ∧ b.capacity = lim ∧ (b.items.length : ℤ) ≤ lim
  ends : ∀ fp a, s.store.alerts.lookup fp = some a → a.endsAt ≠ 0
  held : ∀ fp a, s.store.alerts.lookup fp = some a → a.resolvedAt s.clock = false →
    ∃ b, s.store.limits.lookup a.name = some b ∧ b.priority fp = some a.endsAt

theorem held_init (lim t : ℤ) : Held lim (init lim t) := by
  refine ⟨rfl, rfl, ?_, ?_, ?_⟩ <;> intro k v h <;>
    simp [init, AlertStore.new, AlertStore.withPerAlertLimit] at h

/-- The bucket of a name satisfies the bucket part of the invariant even when it
is created on the spot. -/
theorem Held.bucket_spec {lim : ℤ} (hlim : 0 < lim) {s : State} (hs : Held lim s)
    (name : GoString) : (s.store.bucket name).Consistent ∧
      (s.store.bucket name).capacity = lim ∧ ((s.store.bucket name).items.length : ℤ) ≤ lim := by
  unfold AlertStore.bucket
  cases h : s.store.limits.lookup name with
  | some b => exact hs.bucket name b h
  | none =>
    refine ⟨Bucket.new_consistent _, hs.limit, ?_⟩
    simp [Bucket.new]
    omega

/-- After `Upsert` the bucket is within its capacity again. -/
theorem upserted_length_le {b : Bucket Fingerprint} {now : ℤ} {fp : Fingerprint} {p : ℤ}
    {r : Bool × Bucket Fingerprint} (hu : Bucket.Upserted b now fp p r)
    (hlen : (b.items.length : ℤ) ≤ b.capacity) : (r.2.items.length : ℤ) ≤ b.capacity := by
  cases hu with
  | updated hv hl hp => simp only [hl]; exact hlen
  | added hv hroom hl hp => simp only [hl]; omega
  | evicted hv hr hq hexp hl hp => simp only [hl]; exact hlen
  | refused hv => exact hlen

/-- `Upsert` of another value, or one that is refused, keeps the entry of an alert
that is unresolved at the reading `Upsert` takes. -/
theorem upserted_keeps {b : Bucket Fingerprint} {now : ℤ} {fp fp' : Fingerprint} {p : ℤ}
    {r : Bool × Bucket Fingerprint} (hu : Bucket.Upserted b now fp p r)
    (hne : r.1 = true → fp' ≠ fp) {a : Alert} (hends : a.endsAt ≠ 0)
    (hun : a.resolvedAt now = false) (hheld : b.priority fp' = some a.endsAt) :
    r.2.priority fp' = some a.endsAt := by
  cases hu with
  | updated hv hl hp => simp only [hp, if_neg (hne rfl), hheld]
  | added hv hroom hl hp => simp only [hp, if_neg (hne rfl), hheld]
  | evicted hv hr hq hexp hl hp =>
    rename_i b' root q
    have hroot : fp' ≠ root := by
      rintro rfl
      rw [hheld] at hq
      have he : a.endsAt = q := Option.some.inj hq
      rw [Alert.resolvedAt_eq_false] at hun
      omega
    simp only [hp, if_neg (hne rfl), if_neg hroot, hheld]
  | refused hv => exact hheld

/-- An accepted value is present under the priority it was given. -/
theorem upserted_priority {b : Bucket Fingerprint} {now : ℤ} {fp : Fingerprint} {p : ℤ}
    {r : Bool × Bucket Fingerprint} (hu : Bucket.Upserted b now fp p r) (hok : r.1 = true) :
    r.2.priority fp = some p := by
  cases hu with
  | updated hv hl hp => simp [hp]
  | added hv hroom hl hp => simp [hp]
  | evicted hv hr hq hexp hl hp => simp [hp]
  | refused hv => simp at hok

/-- What `Set` does to a store with a limit: the alert is filed if its bucket takes it. -/
theorem Held.store_set [LabelHash] {lim : ℤ} (hlim : 0 < lim) {s : State} (hs : Held lim s)
    (now : ℤ) (a : Alert) :
    let r := (s.store.bucket a.name).upsert now (fingerprint a.labels) a.endsAt
    (s.store.set now a).2 =
      if r.1 then { s.store with
        limits := s.store.limits.insert a.name r.2
        alerts := s.store.alerts.insert (fingerprint a.labels) a }
      else { s.store with limits := s.store.limits.insert a.name r.2 } := by
  intro r
  simp only [AlertStore.set, hs.alive, Bool.false_eq_true, if_false, hs.limit, if_pos hlim, r]
  split_ifs <;> rfl

theorem held_set [LabelHash] {lim : ℤ} (hlim : 0 < lim) {s : State} (hs : Held lim s)
    {now : ℤ} {a : Alert} (hclock : s.clock ≤ now) (ha : a.endsAt ≠ 0) :
    Held lim (next s (.set now a)) := by
  obtain ⟨hcons, hcap, hlen⟩ := hs.bucket_spec hlim a.name
  obtain ⟨hcons', hcap', hu⟩ := Bucket.upsert_spec hcons now (fingerprint a.labels) a.endsAt
    (by omega)
  have hlen' := upserted_length_le hu (by omega)
  let r := (s.store.bucket a.name).upsert now (fingerprint a.labels) a.endsAt
  have hlimits : ∀ name b, (s.store.limits.insert a.name r.2).lookup name = some b →
      b.Consistent ∧ b.capacity = lim ∧ (b.items.length : ℤ) ≤ lim := by
    intro name b hb
    rw [GoMap.lookup_insert_eq] at hb
    split_ifs at hb with hname
    · obtain rfl := Option.some.inj hb
      exact ⟨hcons', hcap'.trans hcap, by rw [← hcap]; exact hlen'⟩
    · exact hs.bucket name b hb
  have hkeep : ∀ fp' a', (r.1 = true → fp' ≠ fingerprint a.labels) →
      s.store.alerts.lookup fp' = some a' → a'.resolvedAt now = false →
      ∃ b, (s.store.limits.insert a.name r.2).lookup a'.name = some b ∧
        b.priority fp' = some a'.endsAt := by
    intro fp' a' hne hl hun
    obtain ⟨b, hb, hp⟩ := hs.held fp' a' hl (Alert.resolvedAt_earlier hclock hun)
    rw [GoMap.lookup_insert_eq]
    split_ifs with hname
    · have hbucket : s.store.bucket a.name = b := by
        rw [AlertStore.bucket, ← hname, hb]
        rfl
      exact ⟨r.2, rfl, upserted_keeps hu hne (hs.ends fp' a' hl) hun (by rw [hbucket]; exact hp)⟩
    · exact ⟨b, hb, hp⟩
  simp only [next, hs.store_set hlim now a]
  cases hr : r.1 with
  | true =>
    rw [if_pos rfl]
    refine ⟨hs.limit, hs.alive, hlimits, ?_, ?_⟩
    · intro fp' a' hl
      rw [GoMap.lookup_insert_eq] at hl
      split_ifs at hl with hfp
      · obtain rfl := Option.some.inj hl
        exact ha
      · exact hs.ends fp' a' hl
    · intro fp' a' hl hun
      rw [GoMap.lookup_insert_eq] at hl
      split_ifs at hl with hfp
      · obtain rfl := Option.some.inj hl
        refine ⟨r.2, Finmap.lookup_insert _, ?_⟩
        subst hfp
        exact upserted_priority hu hr
      · exact hkeep fp' a' (fun _ => hfp) hl hun
  | false =>
    rw [if_neg (by simp)]
    refine ⟨hs.limit, hs.alive, hlimits, hs.ends, ?_⟩
    exact fun fp' a' hl hun => hkeep fp' a' (by simp [hr]) hl hun

theorem held_gc {lim : ℤ} {s : State} (hs : Held lim s) {now : ℤ} {buckets : List GoString}
    {order : List Fingerprint} (hclock : s.clock ≤ now)
    (hb : GoMap.Ranges s.store.limits buckets) (ho : GoMap.Ranges s.store.alerts order)
    (hstale : StaleOnlyWhenExpired s (.gc now buckets order)) :
    Held lim ⟨(s.store.gc now buckets order).2, now⟩ := by
  have halerts : ∀ fp, (s.store.gc now buckets order).2.alerts.lookup fp =
      (s.store.alerts.lookup fp).filter (fun a => !a.resolvedAt now) := by
    intro fp
    exact AlertStore.lookup_gcAlerts (s := s.store.gcLimitBuckets now buckets) ho now fp
  have hlimits : ∀ name, (s.store.gc now buckets order).2.limits.lookup name =
      (s.store.limits.lookup name).filter (fun b => !b.isStale now) :=
    GoMap.lookup_deleteWhere_of_ranges _ hb
  refine ⟨hs.limit, hs.alive, ?_, ?_, ?_⟩
  · intro name b h
    rw [hlimits, Option.filter_eq_some_iff] at h
    exact hs.bucket name b h.1
  · intro fp a h
    rw [halerts, Option.filter_eq_some_iff] at h
    exact hs.ends fp a h.1
  · intro fp a h hun
    rw [halerts, Option.filter_eq_some_iff] at h
    obtain ⟨b, hlk, hp⟩ := hs.held fp a h.1 (Alert.resolvedAt_earlier hclock hun)
    refine ⟨b, ?_, hp⟩
    rw [hlimits, Option.filter_eq_some_iff]
    refine ⟨hlk, ?_⟩
    by_contra hst
    have hst' : b.isStale now = true := by simpa using hst
    have hbucket : s.store.bucket a.name = b := by simp [AlertStore.bucket, hlk]
    have hmem : fp ∈ b.items := by
      rw [(hs.bucket _ b hlk).1.mem_items, Bucket.mem_index_iff, hp]
      rfl
    have hexp := hstale a.name (Finmap.mem_keys.mpr (GoMap.mem_of_lookup hlk))
      (by rw [hbucket]; exact hst') fp (by rw [hbucket]; exact hmem)
    obtain ⟨it, hit, hprio⟩ := Option.map_eq_some_iff.mp hp
    rw [hbucket] at hexp
    simp only [Item.expired, Bucket.item, hit, Option.getD_some, hprio, decide_eq_true_eq] at hexp
    have hends := hs.ends fp a h.1
    have hun' := Alert.resolvedAt_eq_false.mp hun
    dsimp only at hun'
    omega

theorem held_step [LabelHash] {lim : ℤ} (hlim : 0 < lim) (s : State) (op : Op) (s' : State)
    (hs : Held lim s) (h : Guarded StaleOnlyWhenExpired (Fires Enabled next) s op s') :
    Held lim s' := by
  obtain ⟨hguard, hen, rfl⟩ := h
  cases op with
  | set now a => exact held_set hlim hs hen.1 hen.2
  | gc now buckets order => exact held_gc hs hen.1 hen.2.1 hen.2.2 hguard

theorem unresolved_card_le {lim : ℤ} (hlim : 0 < lim) {s : State} (hs : Held lim s)
    (name : GoString) {t : ℤ} (ht : s.clock ≤ t) :
    ((unresolved s.store name t).card : ℤ) ≤ lim := by
  have hmem : ∀ fp ∈ unresolved s.store name t, ∃ b, s.store.limits.lookup name = some b ∧
      fp ∈ b.items := by
    intro fp hfp
    obtain ⟨-, hany⟩ := Finset.mem_filter.mp hfp
    obtain ⟨a, hl, ha⟩ := (Option.any_eq_true _ _).mp hany
    simp only [Bool.and_eq_true, decide_eq_true_eq, Bool.not_eq_true'] at ha
    obtain ⟨b, hb, hp⟩ := hs.held fp a hl (Alert.resolvedAt_earlier ht ha.2)
    rw [ha.1] at hb
    refine ⟨b, hb, ?_⟩
    rw [(hs.bucket name b hb).1.mem_items, Bucket.mem_index_iff, hp]
    rfl
  cases hb : s.store.limits.lookup name with
  | none =>
    have hempty : unresolved s.store name t = ∅ := by
      rw [Finset.eq_empty_iff_forall_notMem]
      intro fp hfp
      obtain ⟨b, hb', -⟩ := hmem fp hfp
      simp [hb] at hb'
    rw [hempty]
    simpa using hlim.le
  | some b =>
    have hsub : unresolved s.store name t ⊆ b.items.toFinset := by
      intro fp hfp
      obtain ⟨b', hb', hi⟩ := hmem fp hfp
      rw [hb] at hb'
      obtain rfl := Option.some.inj hb'
      exact List.mem_toFinset.mpr hi
    have hcard := (Finset.card_le_card hsub).trans (List.toFinset_card_le b.items)
    have hlen := (hs.bucket name b hb).2.2
    omega

/-- In every run of sets and collections in which no collection finds a bucket
stale that still has an unexpired item, the limit holds at every moment. -/
theorem unresolved_le_limit [LabelHash] {lim : ℤ} (hlim : 0 < lim) {t₀ : ℤ} {ops : List Op}
    {s : State}
    (hrun : Run (Guarded StaleOnlyWhenExpired (Fires Enabled next)) (init lim t₀) ops s)
    (name : GoString) {t : ℤ} (ht : s.clock ≤ t) :
    ((unresolved s.store name t).card : ℤ) ≤ lim :=
  unresolved_card_le hlim (hrun.invariant (held_step hlim) (held_init lim t₀)) name ht

/-- Alerts of one name that differ in a second label. -/
def instanceAlert (k : UInt8) (endsAt : ℤ) : Alert where
  labels := ((∅ : LabelSet).insert Alert.alertNameLabel (str "X")).insert (str "instance") [k]
  annotations := ∅
  startsAt := 1
  endsAt := endsAt
  generatorURL := []
  updatedAt := 1
  timeout := false

/-- Three alerts fill the bucket. The heap slice is ordered 10, 100, 20, so at 50
the bucket looks stale while the alert that ends at 100 is unresolved. -/
def earlyStaleOps : List Op :=
  [.set 1 (instanceAlert 1 10), .set 2 (instanceAlert 2 100), .set 3 (instanceAlert 3 20),
    .gc 50 [str "X"] ([1, 2, 3].map fun k => labelSetToFingerprint (instanceAlert k 0).labels),
    .set 51 (instanceAlert 4 200), .set 52 (instanceAlert 5 200), .set 53 (instanceAlert 6 200)]

theorem earlyStale_exceeds_limit :
    ∃ s, Run (Fires Enabled (@next fnvLabelHash)) (init 3 0) earlyStaleOps s ∧
      (3 : ℤ) < (unresolved s.store (str "X") s.clock).card :=
  ⟨_, Run.of_feasible (by decide +kernel), by decide +kernel⟩

/-- Four alerts under a limit of three: the fourth is refused until the end of
the first has passed, and the collection at 150 rightly finds the bucket stale. -/
def evictingOps : List Op :=
  [.set 1 (instanceAlert 1 10), .set 2 (instanceAlert 2 100), .set 3 (instanceAlert 3 120),
    .set 4 (instanceAlert 4 130), .set 11 (instanceAlert 4 130),
    .gc 150 [str "X"] ([1, 2, 3, 4].map fun k => labelSetToFingerprint (instanceAlert k 0).labels),
    .set 151 (instanceAlert 5 200)]

theorem unresolved_le_limit_evicting :
    ∃ s, Run (Guarded StaleOnlyWhenExpired (Fires Enabled (@next fnvLabelHash)))
        (init 3 0) evictingOps s ∧
      ((unresolved s.store (str "X") s.clock).card : ℤ) ≤ 3 := by
  have hrun : Run (Guarded StaleOnlyWhenExpired (Fires Enabled (@next fnvLabelHash)))
      (init 3 0) evictingOps (evictingOps.foldl (@next fnvLabelHash) (init 3 0)) :=
    Run.of_feasible_guarded (by decide +kernel)
  exact ⟨_, hrun, @unresolved_le_limit fnvLabelHash 3 (by decide) 0 evictingOps _ hrun _ _ le_rfl⟩

end Alertmanager.PerAlertLimit
