import Alertmanager.NotificationTruth

/-!
# One integration on its way through the stages

The stages that `createReceiverStage` puts together for an integration, one step after the
other: `ClusterWaitStage`, `DedupStage`, `RetryStage` and `SetNotifiesStage`. Between two
steps time passes and the notification log may change, for other integrations and nodes
write to it. What reaches the stages are copies that a flush has taken, so it is settled
which alerts are firing; a step then does one of a few things, whatever has happened
before it.
-/
namespace Alertmanager.Notify

open Nflog (Log MeshEntry StoreData stateKey)

/-! ### The stages -/

/-- An integration and the group it notifies about. -/
structure Target where
  integration : Integration
  groupKey : GoString
  repeatInterval : ℤ

/-- The context in which a flush starts the stages. -/
def Target.context (T : Target) (now : ℤ) : Context where
  groupKey := some T.groupKey
  repeatInterval := some T.repeatInterval
  now := some now
  firingAlerts := none
  resolvedAlerts := none
  nflogStore := none
  notificationReason := none

/-- The key of the group's entry in the logs. -/
def Target.key (T : Target) : GoString := stateKey T.groupKey T.integration.recv

/-- Where an integration is in its stages. The context and the alerts are those that the stage has
been given, `due` is the end of the wait. -/
inductive Phase
  | idle
  | waiting (ctx : Context) (alerts : List Alert) (due : ℤ)
  | retrying (ctx : Context) (alerts : List Alert) (due : ℤ)
  | logging (ctx : Context) (alerts : List Alert) (due : ℤ)
  | canceled
  | returned (alerts : List Alert) (r : Except StageError (List Alert))

/-- How `MultiStage` goes on after a stage, of which the alerts were `alerts`: with the next
stage, or not if there was an error or no alerts are left. -/
def Phase.after (alerts : List Alert) (next : List Alert → Phase) :
    Except StageError (List Alert) → Phase
  | .error err => .returned alerts (.error err)
  | .ok [] => .returned alerts (.ok [])
  | .ok (a :: as) => next (a :: as)

theorem Phase.after_ok {alerts : List Alert} (hne : alerts ≠ []) (next : List Alert → Phase) :
    Phase.after alerts next (.ok alerts) = next alerts := by
  obtain ⟨a, as, rfl⟩ := List.exists_cons_of_ne_nil hne
  rfl

/-- The steps: the context ends while the integration waits, or a stage is executed. -/
inductive StageOp
  | cancel
  | dedup
  | retry (events : List RetryEvent) (mutate : StoreData → StoreData)
  | setNotifies

/-- What a step leaves: the log, the alerts of the `Notify` calls that succeeded, and the
messages for the other nodes. -/
structure Output where
  log : Log
  notified : List (List Alert)
  broadcasts : List Nflog.Payload

variable {T : Target}

/-- A step at the given time, with the log as it is then. -/
inductive Move [XXHash] [Nflog.Proto] (T : Target) (t : ℤ) (l : Log) :
    StageOp → Phase → Phase → Output → Prop
  | cancel {ctx : Context} {alerts : List Alert} {due : ℤ} :
      Move T t l .cancel (.waiting ctx alerts due) .canceled ⟨l, [], []⟩
  | dedup {ctx : Context} {alerts : List Alert} {due : ℤ} (hdue : due ≤ t) {w : World}
      {r : Except StageError (List Alert)}
      (hr : dedupStage T.integration (fun _ => t) t ⟨ctx, l, [], []⟩ alerts = some (w, r)) :
      Move T t l .dedup (.waiting ctx alerts due)
        (.after alerts (fun as => .retrying w.ctx as due) r) ⟨l, [], []⟩
  | retry {events : List RetryEvent} {mutate : StoreData → StoreData} {ctx : Context}
      {alerts : List Alert} {due : ℤ} {w : World} {r : Except StageError (List Alert)}
      (hr : retryStage T.integration (fun _ => t) events mutate ⟨ctx, l, [], []⟩ alerts =
        some (w, r)) :
      Move T t l (.retry events mutate) (.retrying ctx alerts due)
        (.after alerts (fun as => .logging w.ctx as due) r) ⟨l, w.notified, []⟩
  | setNotifies {ctx : Context} {alerts : List Alert} {due : ℤ} {w : World}
      {r : Except StageError (List Alert)}
      (hr : setNotifiesStage T.integration t t ⟨ctx, l, [], []⟩ alerts = some (w, r)) :
      Move T t l .setNotifies (.logging ctx alerts due)
        (.after alerts (fun as => .returned as (.ok as)) r) ⟨w.log, [], w.broadcasts⟩

/-! ### The alerts of a flush -/

/-- From this time on exactly the alerts with an end are resolved. -/
def Settled (t : ℤ) (alerts : List Alert) : Prop :=
  ∀ t', t ≤ t' → ∀ a ∈ alerts, a.resolvedAt t' = decide (a.endsAt ≠ 0)

theorem settled_copies {t : ℤ} {stored alerts : List Alert}
    (h : alerts.Sublist (AggrGroup.copies t stored).1) : Settled t alerts := by
  intro t' ht a ha
  obtain ⟨b, -, rfl⟩ := List.mem_map.mp (h.subset ha)
  split_ifs with hres
  · rw [Alert.resolvedAt_mono ht hres]
    simp [(Alert.resolvedAt_eq_true.mp hres).1]
  · simp [Alert.resolvedAt]

theorem Settled.mono {t t' : ℤ} {alerts : List Alert} (h : Settled t alerts) (ht : t ≤ t') :
    Settled t' alerts := fun u hu => h u (ht.trans hu)

theorem length_sentBy_le (i : Integration) (env : Env) (firing : List UInt64)
    (alerts : List Alert) : (sentBy i env firing alerts).length ≤ 1 := by
  unfold sentBy
  split_ifs <;> simp

theorem unresolved_subset (clock : ℕ → ℤ) (alerts : List Alert) :
    unresolved clock alerts ⊆ alerts := by
  induction alerts generalizing clock with
  | nil => exact List.Subset.refl _
  | cons a alerts ih =>
    simp only [unresolved]
    split_ifs
    · exact List.subset_cons_of_subset a (ih _)
    · exact List.cons_subset_cons a (ih _)

theorem sentBy_subset {i : Integration} {env : Env} {firing : List UInt64}
    {alerts sent : List Alert} (h : sent ∈ sentBy i env firing alerts) : sent ⊆ alerts := by
  unfold sentBy at h
  split_ifs at h
  · obtain rfl := List.mem_singleton.mp h
    exact List.Subset.refl _
  · cases h
  · obtain rfl := List.mem_singleton.mp h
    exact unresolved_subset _ _

section
variable [XXHash]

/-- The hashes of the alerts without and with an end. -/
def hashes (alerts : List Alert) : List UInt64 × List UInt64 :=
  ((alerts.filter fun a => a.endsAt = 0).map hashAlert,
    (alerts.filter fun a => a.endsAt ≠ 0).map hashAlert)

theorem Settled.partition {t : ℤ} {alerts : List Alert} (h : Settled t alerts) :
    partitionAlertsByState (fun _ => t) alerts = hashes alerts :=
  partitionAlertsByState_eq fun _ _ a ha => h t le_rfl a ha

/-- What the next stages read from the context. -/
structure Ready (T : Target) (alerts : List Alert) (ctx : Context) : Prop where
  groupKey : ctx.groupKey = some T.groupKey
  repeatInterval : ctx.repeatInterval = some T.repeatInterval
  firingAlerts : ctx.firingAlerts = some (hashes alerts).1
  resolvedAlerts : ctx.resolvedAlerts = some (hashes alerts).2

theorem Ready.prepared {alerts : List Alert} {ctx : Context} (h : Ready T alerts ctx) (l : Log) :
    Prepared T.groupKey T.repeatInterval (hashes alerts) ⟨ctx, l, [], []⟩ :=
  ⟨h.groupKey, h.repeatInterval, h.firingAlerts, h.resolvedAlerts⟩

theorem ready_of_prepared {alerts : List Alert} {w : World}
    (h : Prepared T.groupKey T.repeatInterval (hashes alerts) w) : Ready T alerts w.ctx :=
  ⟨h.groupKey, h.repeatInterval, h.firingAlerts, h.resolvedAlerts⟩

/-! ### What the stages do -/

variable {t now : ℤ} {alerts : List Alert} {l : Log} {w : World}
  {r : Except StageError (List Alert)}

/-- A `DedupStage` fails, or finds all firing alerts in the entry of the group, or passes all
alerts on. -/
theorem dedup_cases (hsettled : Settled t alerts)
    (hr : dedupStage T.integration (fun _ => t) t ⟨T.context now, l, [], []⟩ alerts =
      some (w, r)) :
    (∃ err, r = .error err) ∨
    (r = .ok [] ∧ ∀ h ∈ (hashes alerts).1, ∃ e, l.st.lookup T.key = some e ∧
      h ∈ e.entry.firingAlerts) ∨
    r = .ok alerts ∧ Ready T alerts w.ctx := by
  obtain ⟨-, -, -, herr | ⟨gkey, repeatInterval, hkey, hrepeat, -, hprep, hr⟩⟩ :=
    dedupStage_cases hr
  · exact Or.inl herr
  obtain rfl : T.groupKey = gkey := Option.some.inj hkey
  obtain rfl : T.repeatInterval = repeatInterval := Option.some.inj hrepeat
  rw [hsettled.partition] at hr hprep
  split_ifs at hr with hnotify
  · exact Or.inr (Or.inr ⟨hr, ready_of_prepared hprep⟩)
  · refine Or.inr (Or.inl ⟨hr, fun h hh => ?_⟩)
    obtain ⟨entry, hentry, hmem⟩ := firing_subset_of_doNotNotify (by simpa using hnotify)
      (List.mem_toFinset.mpr hh)
    obtain ⟨e, he, rfl⟩ := Option.map_eq_some_iff.mp hentry
    exact ⟨e, he, hmem⟩

/-- What a `RetryStage` has sent carries all firing alerts. -/
theorem sent_sentBy (i : Integration) {env : Env} (hclock : env.statusClock = fun _ => t)
    (hsettled : Settled t alerts) {h : UInt64} (hh : h ∈ (hashes alerts).1) :
    Sent (sentBy i env (hashes alerts).1 alerts) h := by
  obtain ⟨a, ha, rfl⟩ := List.mem_map.mp hh
  obtain ⟨hmem, hend⟩ := List.mem_filter.mp ha
  have hend : a.endsAt = 0 := of_decide_eq_true hend
  unfold sentBy
  split_ifs with hresolved hempty
  · exact ⟨_, List.mem_singleton_self _, a, hmem, hend, rfl⟩
  · rw [List.length_eq_zero_iff.mp hempty] at hh
    cases hh
  · refine ⟨_, List.mem_singleton_self _, a, ?_, hend, rfl⟩
    rw [hclock]
    exact mem_unresolved (fun _ _ b hb => hsettled t le_rfl b hb) hmem hend

/-- A `RetryStage` fails, or it has sent the alerts. -/
theorem retry_cases {ctx : Context} (hready : Ready T alerts ctx) (hsettled : Settled t alerts)
    {events : List RetryEvent} {mutate : StoreData → StoreData}
    (hr : retryStage T.integration (fun _ => t) events mutate ⟨ctx, l, [], []⟩ alerts =
      some (w, r)) :
    (∃ err, r = .error err) ∧ w.notified = [] ∨
    r = .ok alerts ∧ Ready T alerts w.ctx ∧ w.notified.length ≤ 1 ∧
      (∀ sent ∈ w.notified, sent ⊆ alerts) ∧ ∀ h ∈ (hashes alerts).1, Sent w.notified h := by
  let env : Env := ⟨fun _ => t, t, fun _ => t, events, mutate, t, t⟩
  have hprep := hready.prepared l
  have hr : retryStage T.integration env.statusClock env.events env.mutate ⟨ctx, l, [], []⟩ alerts =
      some (w, r) := hr
  obtain ⟨hkeeps, ⟨herr, hnil⟩ | ⟨hok, hsent⟩⟩ := retryStage_keeps hprep.firingAlerts hr
  · exact Or.inl ⟨herr, hnil⟩
  · have hsent : w.notified = sentBy T.integration env (hashes alerts).1 alerts := hsent
    rw [hsent]
    exact Or.inr ⟨hok, ready_of_prepared (hprep.keeps hkeeps), length_sentBy_le _ _ _ _,
      fun sent hs => sentBy_subset hs, fun h hh => sent_sentBy _ rfl hsettled hh⟩

/-! ### Before and after a step -/

/-- The context and the alerts of a phase are those of the group. -/
def Phase.Staged (T : Target) (t : ℤ) : Phase → Prop
  | .waiting ctx alerts _ => (∃ now, ctx = T.context now) ∧ Settled t alerts ∧ alerts ≠ []
  | .retrying ctx alerts _ => Ready T alerts ctx ∧ Settled t alerts ∧ alerts ≠ []
  | .logging ctx alerts _ => Ready T alerts ctx ∧ alerts ≠ []
  | .idle | .canceled | .returned _ _ => True

theorem Phase.Staged.mono {t t' : ℤ} (ht : t ≤ t') {p : Phase} (h : p.Staged T t) :
    p.Staged T t' := by
  cases p with
  | waiting ctx alerts due => exact ⟨h.1, h.2.1.mono ht, h.2.2⟩
  | retrying ctx alerts due => exact ⟨h.1, h.2.1.mono ht, h.2.2⟩
  | logging ctx alerts due => exact h
  | idle | canceled | returned => trivial

/-- An integration that has sent its alerts, or need not send them. -/
def Phase.Told (S : UInt64 → Prop) : Phase → Prop
  | .logging _ alerts _ | .returned alerts (.ok _) => ∀ h ∈ (hashes alerts).1, S h
  | .idle | .waiting _ _ _ | .retrying _ _ _ | .canceled | .returned _ (.error _) => True

theorem Phase.Told.mono {S S' : UInt64 → Prop} (hS : ∀ h, S h → S' h) {p : Phase}
    (hp : p.Told S) : p.Told S' := by
  cases p with
  | logging ctx alerts due => exact fun h hh => hS h (hp h hh)
  | returned alerts r =>
    cases r with
    | error err => trivial
    | ok rest => exact fun h hh => hS h (hp h hh)
  | idle | canceled | waiting | retrying => trivial

/-- The alerts of a phase. -/
def Phase.Carries (alerts : List Alert) : Phase → Prop
  | .waiting _ as _ | .retrying _ as _ | .logging _ as _ | .returned as (.ok _) => as = alerts
  | .idle | .canceled | .returned _ (.error _) => True

/-! ### What a step comes to -/

variable [Nflog.Proto]

/-- An entry about the alerts, logged at the given time. -/
structure EntryFor (T : Target) (alerts : List Alert) (now : ℤ) (l : Log) (e : MeshEntry) :
    Prop where
  key : e.key = T.key
  stamp : e.stamp = now
  firing : e.entry.firingAlerts = (hashes alerts).1
  resolved : e.entry.resolvedAlerts = (hashes alerts).2
  expiresAt : asTime e.expiresAt = l.expiresAt now (2 * T.repeatInterval)

/-- A `SetNotifiesStage` leaves the log alone, for an error or a newer entry, or it has merged
and broadcast an entry about the alerts. -/
theorem setNotifies_cases {ctx : Context} (hready : Ready T alerts ctx)
    (hr : setNotifiesStage T.integration t t ⟨ctx, l, [], []⟩ alerts = some (w, r)) :
    (w.log = l ∧ w.broadcasts = [] ∧ ((∃ err, r = .error err) ∨
      r = .ok alerts ∧ ∃ prev, l.st.lookup T.key = some prev ∧ t < prev.stamp)) ∨
    r = .ok alerts ∧ ∃ e p, EntryFor T alerts t l e ∧ e.marshal = some p ∧ w.broadcasts = [p] ∧
      w.log.st = (Nflog.stateMerge l.st e t).1 := by
  obtain ⟨-, ⟨herr, hlog, hbs⟩ | ⟨hok, bs, hlog, hbs⟩⟩ :=
    setNotifiesStage_cases (hready.prepared l) hr
  · exact Or.inl ⟨hlog, hbs, Or.inl herr⟩
  · have hbs : w.broadcasts = bs := hbs
    obtain ⟨hsame, hnil, hprev⟩ | ⟨p, hp, hmarshal, hmerged⟩ := Log.log_cases hlog
    · exact Or.inl ⟨hsame, hbs.trans hnil, Or.inr ⟨hok, hprev⟩⟩
    · exact Or.inr ⟨hok, _, p, ⟨rfl, rfl, rfl, rfl, rfl⟩, hmarshal, hbs.trans hp, by rw [hmerged]⟩

/-- The steps of an integration that has the alerts of its group. -/
inductive Outcome (T : Target) (t : ℤ) (l : Log) : StageOp → Phase → Phase → Output → Prop
  | stopped {op : StageOp} {p p' : Phase}
      (hp : ∃ ctx alerts due, p = .waiting ctx alerts due ∨ p = .retrying ctx alerts due)
      (hp' : p' = .canceled ∨ ∃ alerts err, p' = .returned alerts (.error err)) :
      Outcome T t l op p p' ⟨l, [], []⟩
  | skipped {ctx : Context} {alerts : List Alert} {due : ℤ}
      (hfound : ∀ h ∈ (hashes alerts).1, ∃ e, l.st.lookup T.key = some e ∧
        h ∈ e.entry.firingAlerts) :
      Outcome T t l .dedup (.waiting ctx alerts due) (.returned alerts (.ok [])) ⟨l, [], []⟩
  | passed {ctx ctx' : Context} {alerts : List Alert} {due : ℤ} {w : World} (hdue : due ≤ t)
      (hr : dedupStage T.integration (fun _ => t) t ⟨ctx, l, [], []⟩ alerts =
        some (w, .ok alerts))
      (hready : Ready T alerts ctx') :
      Outcome T t l .dedup (.waiting ctx alerts due) (.retrying ctx' alerts due) ⟨l, [], []⟩
  | sent {events : List RetryEvent} {mutate : StoreData → StoreData} {ctx ctx' : Context}
      {alerts : List Alert} {due : ℤ} {notified : List (List Alert)}
      (hready : Ready T alerts ctx') (hone : notified.length ≤ 1)
      (hsub : ∀ sent ∈ notified, sent ⊆ alerts)
      (hsent : ∀ h ∈ (hashes alerts).1, Sent notified h) :
      Outcome T t l (.retry events mutate) (.retrying ctx alerts due) (.logging ctx' alerts due)
        ⟨l, notified, []⟩
  | unlogged {ctx : Context} {alerts : List Alert} {due : ℤ} {w : World} {err : StageError}
      (hr : setNotifiesStage T.integration t t ⟨ctx, l, [], []⟩ alerts = some (w, .error err)) :
      Outcome T t l .setNotifies (.logging ctx alerts due) (.returned alerts (.error err))
        ⟨l, [], []⟩
  | kept {ctx : Context} {alerts : List Alert} {due : ℤ}
      (hnewer : ∃ prev, l.st.lookup T.key = some prev ∧ t < prev.stamp) :
      Outcome T t l .setNotifies (.logging ctx alerts due) (.returned alerts (.ok alerts))
        ⟨l, [], []⟩
  | logged {ctx : Context} {alerts : List Alert} {due : ℤ} {w : World} {e : MeshEntry}
      {p : Nflog.Payload}
      (hr : setNotifiesStage T.integration t t ⟨ctx, l, [], []⟩ alerts = some (w, .ok alerts))
      (hfor : EntryFor T alerts t l e) (hmarshal : e.marshal = some p)
      (hbs : w.broadcasts = [p]) (hst : w.log.st = (Nflog.stateMerge l.st e t).1) :
      Outcome T t l .setNotifies (.logging ctx alerts due) (.returned alerts (.ok alerts))
        ⟨w.log, [], [p]⟩

theorem Move.outcome {op : StageOp} {p p' : Phase} {out : Output} (hp : p.Staged T t)
    (h : Move T t l op p p' out) : Outcome T t l op p p' out := by
  cases h with
  | cancel => exact .stopped ⟨_, _, _, Or.inl rfl⟩ (Or.inl rfl)
  | dedup hdue hr =>
    obtain ⟨⟨now, rfl⟩, hsettled, hne⟩ := hp
    obtain ⟨err, rfl⟩ | ⟨rfl, hfound⟩ | ⟨rfl, hready⟩ := dedup_cases hsettled hr
    · exact .stopped ⟨_, _, _, Or.inl rfl⟩ (Or.inr ⟨_, err, rfl⟩)
    · exact .skipped hfound
    · rw [Phase.after_ok hne]
      exact .passed hdue hr hready
  | retry hr =>
    obtain ⟨hready, hsettled, hne⟩ := hp
    obtain ⟨⟨err, rfl⟩, hnil⟩ | ⟨rfl, hready', hone, hsub, hsent⟩ :=
      retry_cases hready hsettled hr
    · rw [hnil]
      exact .stopped ⟨_, _, _, Or.inr rfl⟩ (Or.inr ⟨_, err, rfl⟩)
    · rw [Phase.after_ok hne]
      exact .sent hready' hone hsub hsent
  | setNotifies hr =>
    obtain ⟨hready, hne⟩ := hp
    obtain ⟨hlog, hnil, ⟨err, rfl⟩ | ⟨rfl, hnewer⟩⟩ | ⟨rfl, e, p, hfor, hmarshal, hbs, hst⟩ :=
      setNotifies_cases hready hr
    · rw [hlog, hnil]
      exact .unlogged hr
    · rw [hlog, hnil, Phase.after_ok hne]
      exact .kept hnewer
    · rw [hbs, Phase.after_ok hne]
      exact .logged hr hfor hmarshal hbs hst

/-- The next phase has the alerts of the group, too. -/
theorem Outcome.staged {op : StageOp} {p p' : Phase} {out : Output} (hp : p.Staged T t)
    (h : Outcome T t l op p p' out) : p'.Staged T t := by
  cases h with
  | stopped _ hp' =>
    obtain rfl | ⟨alerts, err, rfl⟩ := hp'
    · trivial
    · trivial
  | skipped => trivial
  | passed hdue hr hready => exact ⟨hready, hp.2⟩
  | sent hready => exact ⟨hready, hp.2.2⟩
  | unlogged => trivial
  | kept => trivial
  | logged => trivial

/-- The stages hand on the alerts that they have got, and send no others. -/
theorem Outcome.carries {as : List Alert} {op : StageOp} {p p' : Phase} {out : Output}
    (hp : p.Carries as) (h : Outcome T t l op p p' out) :
    p'.Carries as ∧ ∀ sent ∈ out.notified, sent ⊆ as := by
  cases h with
  | stopped _ hp' =>
    refine ⟨?_, by simp⟩
    obtain rfl | ⟨alerts, err, rfl⟩ := hp'
    · trivial
    · trivial
  | @sent events mutate ctx ctx' alerts due notified hready hone hsub =>
    obtain rfl : alerts = as := hp
    exact ⟨rfl, hsub⟩
  | unlogged => exact ⟨trivial, by simp⟩
  | skipped | passed | kept | logged => exact ⟨hp, by simp⟩

/-- A step writes under its own key only. -/
theorem Outcome.lookup_of_ne {op : StageOp} {p p' : Phase} {out : Output}
    (h : Outcome T t l op p p' out) {k : GoString} (hk : k ≠ T.key) :
    out.log.st.lookup k = l.st.lookup k := by
  cases h with
  | @logged ctx alerts due w e p hr hfor hmarshal hbs hst =>
    rw [hst]
    obtain hsame | ⟨hkey, -⟩ := Nflog.lookup_stateMerge_cases l.st e t k
    · exact hsame
    · exact absurd (hkey.trans hfor.key) hk
  | stopped | skipped | passed | sent | unlogged | kept => rfl

/-- What a step leaves says the truth about sent alerts, if the phase and the log did. -/
theorem Outcome.truthful {S : UInt64 → Prop} {op : StageOp} {p p' : Phase} {out : Output}
    (hp : p.Told S) (hl : ∀ e, l.st.lookup T.key = some e → ∀ h ∈ e.entry.firingAlerts, S h)
    (h : Outcome T t l op p p' out) :
    p'.Told (fun h => S h ∨ Sent out.notified h) ∧
      (∀ e, out.log.st.lookup T.key = some e → ∀ h ∈ e.entry.firingAlerts, S h) ∧
      ∀ b ∈ out.broadcasts, ∃ e : MeshEntry, e.key = T.key ∧ e.marshal = some b ∧
        ∀ h ∈ e.entry.firingAlerts, S h := by
  cases h with
  | stopped _ hp' =>
    refine ⟨?_, hl, by simp⟩
    obtain rfl | ⟨alerts, err, rfl⟩ := hp'
    · trivial
    · trivial
  | skipped hfound =>
    refine ⟨fun h hh => ?_, hl, by simp⟩
    obtain ⟨e, he, hmem⟩ := hfound h hh
    exact Or.inl (hl e he h hmem)
  | passed => exact ⟨trivial, hl, by simp⟩
  | sent hready hone hsub hsent => exact ⟨fun h hh => Or.inr (hsent h hh), hl, by simp⟩
  | unlogged => exact ⟨trivial, hl, by simp⟩
  | kept => exact ⟨fun h hh => Or.inl (hp h hh), hl, by simp⟩
  | @logged ctx alerts due w e p hr hfor hmarshal hbs hst =>
    have hfiring : ∀ h ∈ e.entry.firingAlerts, S h := by
      rw [hfor.firing]
      exact hp
    refine ⟨fun h hh => Or.inl (hp h hh), fun e' he' => ?_, fun b hb => ?_⟩
    · rw [hst] at he'
      obtain hold | ⟨-, hnew⟩ := Nflog.lookup_stateMerge_cases l.st e t T.key
      · exact hl e' (hold ▸ he')
      · obtain rfl := Option.some.inj (hnew.symm.trans he')
        exact hfiring
    · obtain rfl := List.mem_singleton.mp hb
      exact ⟨e, hfor.key, hmarshal, hfiring⟩

end

end Alertmanager.Notify
