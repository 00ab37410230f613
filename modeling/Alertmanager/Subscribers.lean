import Alertmanager.AlertProvider
import Alertmanager.Replay

/-!
# Subscribers of the provider

`SlurpAndSubscribe` of `provider/mem/mem.go` hands out the stored alerts and registers a
channel, and `Put` sends every alert it stores to all channels. A collection is not
announced. A subscriber replays what it was handed and what it has received: it has every
stored alert, and whatever else it has was collected as resolved.
-/
namespace Alertmanager.Subscribers

/-- A subscription: the slurped alerts, all alerts sent on the channel, and whether the
iterator was closed. -/
structure Listener where
  slurped : List Alert
  alerts : List Alert
  done : Bool
  deriving DecidableEq

/-- The provider: its store, the listeners by number, and the next number. -/
structure State where
  store : AlertStore
  listeners : ℕ → Option Listener
  next : ℕ

inductive Op
  | put (now : ℤ) (alerts : List Alert) (takes : ℕ → Alert → Bool)
  | gc (now : ℤ) (buckets : List GoString) (order : List Fingerprint)
  | slurpAndSubscribe (order : List Fingerprint)
  | close (i : ℕ)

def init (lim : ℤ) : State := ⟨AlertProvider.init lim, fun _ => none, 0⟩

/-- The loops range over the maps in some order. -/
def Enabled (s : State) : Op → Prop
  | .put _ _ _ | .close _ => True
  | .gc _ buckets order => GoMap.Ranges s.store.limits buckets ∧ GoMap.Ranges s.store.alerts order
  | .slurpAndSubscribe order => GoMap.Ranges s.store.alerts order

instance (s : State) : (op : Op) → Decidable (Enabled s op)
  | .put _ _ _ | .close _ => isTrue trivial
  | .gc _ buckets order => inferInstanceAs (Decidable
      (GoMap.Ranges s.store.limits buckets ∧ GoMap.Ranges s.store.alerts order))
  | .slurpAndSubscribe order => inferInstanceAs (Decidable (GoMap.Ranges s.store.alerts order))

/-- The sends of `Put` to one listener. Once the iterator is closed, each `select` may
take either branch. -/
def Listener.receive (l : Listener) (sent : List Alert) (takes : Alert → Bool) : Listener :=
  { l with alerts := l.alerts ++ sent.filter fun a => !l.done || takes a }

section
variable [LabelHash]

def next (s : State) : Op → State
  | .put now alerts takes =>
    let r := AlertProvider.put AlertProvider.noopCallback s.store now alerts
    { s with
      store := r.1
      listeners := fun i => (s.listeners i).map fun l => l.receive r.2 (takes i) }
  | .gc now buckets order =>
    { s with
      listeners := fun i => (s.listeners i).filter fun l => !l.done
      store := (s.store.gc now buckets order).2 }
  | .slurpAndSubscribe order =>
    { s with
      listeners := fun i =>
        if i = s.next then some ⟨s.store.list order, [], false⟩ else s.listeners i
      next := s.next + 1 }
  | .close i =>
    { s with
      listeners := fun j =>
        (s.listeners j).map fun l => if j = i then { l with done := true } else l }

/-- What a subscriber has once it has drained its channel: later alerts replace earlier
ones of the same fingerprint. -/
def Listener.view (l : Listener) : GoMap Fingerprint Alert :=
  Replay.replay (fun a => fingerprint a.labels) ∅ (l.slurped ++ l.alerts)

/-! ### What a step does to the store and to a view -/

theorem alerts_putAlert (s : AlertStore) (now : ℤ) (a : Alert) :
    (AlertProvider.putAlert AlertProvider.noopCallback s now a).1.alerts =
      Replay.replay (fun a => fingerprint a.labels) s.alerts
        (AlertProvider.putAlert AlertProvider.noopCallback s now a).2.toList := by
  simp only [AlertProvider.putAlert, AlertProvider.noopCallback, if_true, AlertStore.set]
  split_ifs <;> rfl

theorem alerts_put (s : AlertStore) (now : ℤ) (as : List Alert) :
    (AlertProvider.put AlertProvider.noopCallback s now as).1.alerts =
      Replay.replay (fun a => fingerprint a.labels) s.alerts
        (AlertProvider.put AlertProvider.noopCallback s now as).2 := by
  induction as generalizing s with
  | nil => rfl
  | cons a as ih =>
    simp only [AlertProvider.put]
    rw [ih, Replay.replay_append, alerts_putAlert]

theorem view_receive (l : Listener) (hopen : l.done = false) (sent : List Alert)
    (takes : Alert → Bool) :
    (l.receive sent takes).view =
      Replay.replay (fun a => fingerprint a.labels) l.view sent := by
  have hall : sent.filter (fun a => !l.done || takes a) = sent := by simp [hopen]
  rw [Listener.view, Listener.receive, hall, ← List.append_assoc, Replay.replay_append]
  rfl

/-- How the store and the view of an open subscription change together. -/
inductive Change (s : State) (l' : Listener) (s' : State) (i : ℕ) : Op → Prop
  | sent (now : ℤ) (alerts : List Alert) (takes : ℕ → Alert → Bool) (l : Listener)
      (hl : s.listeners i = some l) (hopen : l.done = false) (log : List Alert)
      (hstore : s'.store.alerts =
        Replay.replay (fun a => fingerprint a.labels) s.store.alerts log)
      (hview : l'.view = Replay.replay (fun a => fingerprint a.labels) l.view log) :
      Change s l' s' i (.put now alerts takes)
  | collected (now : ℤ) (buckets : List GoString) (order : List Fingerprint)
      (hl : s.listeners i = some l')
      (hstore : ∀ fp, s'.store.alerts.lookup fp =
        (s.store.alerts.lookup fp).filter fun a => !a.resolvedAt now) :
      Change s l' s' i (.gc now buckets order)
  | subscribed (order : List Fingerprint) (hstore : s'.store = s.store)
      (hview : l'.view = s.store.alerts) : Change s l' s' i (.slurpAndSubscribe order)
  | kept (op : Op) (l : Listener) (hl : s.listeners i = some l) (hopen : l.done = false)
      (hstore : s'.store = s.store) (hview : l'.view = l.view) : Change s l' s' i op

theorem change_next {s : State} (hfiled : AlertProvider.Filed s.store) {op : Op}
    (hop : Enabled s op) {i : ℕ} {l' : Listener} (hl' : (next s op).listeners i = some l')
    (hopen : l'.done = false) : Change s l' (next s op) i op := by
  cases op with
  | put now alerts takes =>
    obtain ⟨l, hl, rfl⟩ := Option.map_eq_some_iff.mp hl'
    exact .sent now alerts takes l hl hopen _ (alerts_put s.store now alerts)
      (view_receive l hopen _ _)
  | gc now buckets order =>
    obtain ⟨hl, -⟩ := Option.filter_eq_some_iff.mp hl'
    refine .collected now buckets order hl fun fp => ?_
    exact AlertStore.lookup_gcAlerts (s := s.store.gcLimitBuckets now buckets) hop.2 now fp
  | slurpAndSubscribe order =>
    simp only [next] at hl'
    split_ifs at hl' with hi
    · obtain rfl := Option.some.inj hl'
      refine .subscribed order rfl ?_
      simp only [Listener.view, List.append_nil, AlertStore.list]
      exact Replay.replay_values hfiled hop
    · exact .kept _ l' hl' hopen rfl rfl
  | close j =>
    obtain ⟨l, hl, rfl⟩ := Option.map_eq_some_iff.mp hl'
    by_cases hij : i = j
    · simp [hij] at hopen
    · simp only [hij, if_false] at hopen
      exact .kept _ l hl hopen rfl (by simp [hij])

/-! ### Rebuilding the store -/

/-- Stored alerts are filed under their fingerprint, and every open subscription has them. -/
structure Inv (s : State) : Prop where
  filed : AlertProvider.Filed s.store
  view : ∀ i l, s.listeners i = some l → l.done = false →
    ∀ fp a, s.store.alerts.lookup fp = some a → l.view.lookup fp = some a

theorem filed_next {s : State} (hfiled : AlertProvider.Filed s.store) {op : Op}
    (hop : Enabled s op) : AlertProvider.Filed (next s op).store := by
  cases op with
  | put now alerts takes =>
    intro fp a h
    have hstore := alerts_put s.store now alerts
    simp only [next, hstore] at h
    exact Replay.key_of_lookup_replay hfiled h
  | gc now buckets order =>
    intro fp a h
    have hlook :=
      AlertStore.lookup_gcAlerts (s := s.store.gcLimitBuckets now buckets) hop.2 now fp
    rw [show (next s (.gc now buckets order)).store.alerts.lookup fp = _ from hlook] at h
    exact hfiled fp a (Option.filter_eq_some_iff.mp h).1
  | slurpAndSubscribe order => exact hfiled
  | close i => exact hfiled

theorem inv_next {s : State} (hs : Inv s) {op : Op} (hop : Enabled s op) : Inv (next s op) := by
  refine ⟨filed_next hs.filed hop, fun i l' hl' hopen fp a h => ?_⟩
  cases change_next hs.filed hop hl' hopen with
  | sent now alerts takes l hl hopen' log hstore hview =>
    rw [hstore] at h
    rw [hview]
    by_cases hfp : fp ∈ log.map fun a => fingerprint a.labels
    · obtain ⟨b, -, -, hlook⟩ := Replay.lookup_replay_of_mem hfp
      rw [hlook] at h ⊢
      exact h
    · rw [Replay.lookup_replay_of_not_mem hfp] at h ⊢
      exact hs.view i l hl hopen' fp a h
  | collected now buckets order hl hstore =>
    rw [hstore, Option.filter_eq_some_iff] at h
    exact hs.view i l' hl hopen fp a h.1
  | subscribed order hstore hview =>
    rw [hstore] at h
    rwa [hview]
  | kept op l hl hopen' hstore hview =>
    rw [hstore] at h
    rw [hview]
    exact hs.view i l hl hopen' fp a h

theorem inv_init (lim : ℤ) : Inv (init lim) :=
  ⟨AlertProvider.filed_init lim, fun i l h => by simp [init] at h⟩

theorem inv_of_run {lim : ℤ} {ops : List Op} {s : State}
    (hrun : Run (Fires Enabled next) (init lim) ops s) : Inv s := by
  refine hrun.invariant (I := Inv) ?_ (inv_init lim)
  rintro s op s' hs ⟨hop, rfl⟩
  exact inv_next hs hop

/-- An open subscription has the alert, and the store has none of its fingerprint. -/
def Leftover (i : ℕ) (fp : Fingerprint) (a : Alert) (s : State) : Prop :=
  ∃ l, s.listeners i = some l ∧ l.done = false ∧ l.view.lookup fp = some a ∧
    s.store.alerts.lookup fp = none

/-- Only a collection makes an alert of a subscriber a leftover, and it was stored and
resolved. -/
theorem collected_of_leftover {s : State} (hs : Inv s) {op : Op} (hop : Enabled s op) {i : ℕ}
    {fp : Fingerprint} {a : Alert} (hbefore : ¬ Leftover i fp a s)
    (hafter : Leftover i fp a (next s op)) :
    ∃ now buckets order l, op = .gc now buckets order ∧ s.listeners i = some l ∧
      a ∈ l.slurped ++ l.alerts ∧ s.store.alerts.lookup fp = some a ∧
      a.resolvedAt now = true := by
  obtain ⟨l', hl', hopen, hhas, hnone⟩ := hafter
  cases change_next hs.filed hop hl' hopen with
  | sent now alerts takes l hl hopen' log hstore hview =>
    rw [hstore] at hnone
    rw [hview] at hhas
    have hfp : fp ∉ log.map fun a => fingerprint a.labels := by
      intro hmem
      obtain ⟨b, -, -, hlook⟩ := Replay.lookup_replay_of_mem hmem
      rw [hlook] at hnone
      cases hnone
    rw [Replay.lookup_replay_of_not_mem hfp] at hnone hhas
    exact absurd ⟨l, hl, hopen', hhas, hnone⟩ hbefore
  | collected now buckets order hl hstore =>
    have hmem : a ∈ l'.slurped ++ l'.alerts := by
      obtain hmem | hempty := Replay.mem_of_lookup_replay hhas
      · exact hmem
      · simp at hempty
    cases hstored : s.store.alerts.lookup fp with
    | none => exact absurd ⟨l', hl, hopen, hhas, hstored⟩ hbefore
    | some b =>
      -- the subscriber has the stored version, so it is the one that was collected
      have hsame : b = a :=
        Option.some.inj ((hs.view i l' hl hopen fp b hstored).symm.trans hhas)
      subst hsame
      rw [hstore, hstored] at hnone
      refine ⟨now, buckets, order, l', rfl, hl, hmem, rfl, ?_⟩
      simpa [Option.filter] using hnone
  | subscribed order hstore hview =>
    rw [hview] at hhas
    rw [hstore, hhas] at hnone
    cases hnone
  | kept op l hl hopen' hstore hview =>
    rw [hstore] at hnone
    rw [hview] at hhas
    exact absurd ⟨l, hl, hopen', hhas, hnone⟩ hbefore

/-- A subscriber that does not close its iterator can rebuild the alerts of the provider.
Once it has drained its channel it has every stored alert, and every other alert it has
was deleted by a collection as resolved, after it was slurped or sent. -/
theorem subscriber_rebuilds_store {lim : ℤ} {ops : List Op} {s : State}
    (hrun : Run (Fires Enabled next) (init lim) ops s) {i : ℕ} {l : Listener}
    (hl : s.listeners i = some l) (hopen : l.done = false) :
    (∀ fp a, s.store.alerts.lookup fp = some a → l.view.lookup fp = some a) ∧
    ∀ fp a, l.view.lookup fp = some a → s.store.alerts.lookup fp ≠ some a →
      ∃ before now buckets order later s₁ l₁, ops = before ++ .gc now buckets order :: later ∧
        Run (Fires Enabled next) (init lim) before s₁ ∧ s₁.listeners i = some l₁ ∧
        a ∈ l₁.slurped ++ l₁.alerts ∧ s₁.store.alerts.lookup fp = some a ∧
        a.resolvedAt now = true := by
  have hs := inv_of_run hrun
  refine ⟨hs.view i l hl hopen, fun fp a hhas hother => ?_⟩
  have hnone : s.store.alerts.lookup fp = none := by
    cases hstored : s.store.alerts.lookup fp with
    | none => rfl
    | some b =>
      rw [hs.view i l hl hopen fp b hstored] at hhas
      exact absurd (hstored.trans hhas) hother
  have hstart : ¬ Leftover i fp a (init lim) := by
    rintro ⟨l, h, -⟩
    simp [init] at h
  obtain ⟨before, op, later, s₁, s₂, rfl, hbefore, hnot, ⟨hop, rfl⟩, hleft, -⟩ :=
    hrun.last_entry hstart ⟨l, hl, hopen, hhas, hnone⟩
  obtain ⟨now, buckets, order, l₁, rfl, hl₁, hmem, hstored, hresolved⟩ :=
    collected_of_leftover (inv_of_run hbefore) hop hnot hleft
  exact ⟨before, now, buckets, order, later, s₁, l₁, rfl, hbefore, hl₁, hmem, hstored, hresolved⟩

end

section
attribute [local instance] fnvLabelHash

/-- An alert with the given name and activity range. -/
def alertNamed (name : String) (startsAt endsAt : ℤ) : Alert :=
  { AlertProvider.version startsAt endsAt 1 with
    labels := (∅ : LabelSet).insert Alert.alertNameLabel (str name) }

/-- The first alert is slurped and collected, the second one is sent. -/
def slurpedRun : List Op :=
  let x := fingerprint (alertNamed "X" 1 10).labels
  let y := fingerprint (alertNamed "Y" 5 90).labels
  [.put 5 [alertNamed "X" 1 10] (fun _ _ => true), .slurpAndSubscribe [x],
    .put 8 [alertNamed "Y" 5 90] (fun _ _ => true), .gc 20 [] [x, y]]

theorem subscriber_rebuilds_slurped :
    let s := slurpedRun.foldl next (init 0)
    let y := alertNamed "Y" 5 90
    ∃ l, s.listeners 0 = some l ∧ s.store.alerts.lookup (fingerprint y.labels) = some y ∧
      l.view.lookup (fingerprint y.labels) = some y := by
  intro s y
  have hrun : Run (Fires Enabled next) (init 0) slurpedRun s := Run.of_feasible (by decide +kernel)
  have hl : s.listeners 0 = some ⟨[alertNamed "X" 1 10], [y], false⟩ := by decide +kernel
  have hstored : s.store.alerts.lookup (fingerprint y.labels) = some y := by decide +kernel
  exact ⟨_, hl, hstored, (subscriber_rebuilds_store hrun hl rfl).1 _ y hstored⟩

end

end Alertmanager.Subscribers
