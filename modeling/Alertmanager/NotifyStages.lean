import Alertmanager.AggrGroups
import Alertmanager.NotificationLog

/-!
# The stages of one integration

`DedupStage`, `RetryStage` and `SetNotifiesStage` of `notify/`, executed one after
the other by `MultiStage`. A stage gets and returns the context and the alerts, and
works on the notification log; what else it does, the messages it broadcasts and the
`Notify` calls that succeed, is recorded. A `RetryStage` that is still waiting has
not returned. The clock is read by `Resolved` and `Status` once for each alert, so
those stages take the reading for each position of the list.
-/
namespace Alertmanager.Notify

open Nflog (Receiver Entry StoreData Payload Log LogError)

/-- `xxhash.Sum64`. -/
class XXHash where
  sum64 : GoString → UInt64

/-- FNV-1a in its place. -/
abbrev fnvXXHash : XXHash := ⟨hashAdd 14695981039346656037⟩

/-- `hashAlert`: the sorted labels, each name and value followed by a separator. -/
def hashAlert [XXHash] (a : Alert) : UInt64 :=
  XXHash.sum64 ((GoMap.sortedKeys a.labels).flatMap fun ln =>
    ln ++ [0xff] ++ LabelSet.get a.labels ln ++ [0xff])

inductive NotifyReason
  | doNotNotify
  | firstNotification
  | newAlertsInGroup
  | newResolvedAlerts
  | allAlertsResolved
  | repeatIntervalElapsed
  | unknown
  deriving DecidableEq, Repr

def NotifyReason.shouldNotify (r : NotifyReason) : Bool := r != .doNotNotify

/-- The values of the context that the stages read and set. -/
structure Context where
  groupKey : Option GoString
  repeatInterval : Option ℤ
  now : Option ℤ
  firingAlerts : Option (List UInt64)
  resolvedAlerts : Option (List UInt64)
  nflogStore : Option StoreData
  notificationReason : Option NotifyReason

inductive StageError
  | groupKeyMissing
  | repeatIntervalMissing
  | firingAlertsMissing
  | resolvedAlertsMissing
  | nflog (err : LogError)
  | unexpectedEntries (size : ℕ)
  | retryCanceled (attempts : ℕ)
  | unrecoverable (attempts : ℕ)
  deriving DecidableEq, Repr

/-- What a pipeline works on. `broadcasts` and `notified`, the alert lists of the
`Notify` calls that succeeded, are records of what it has done. -/
structure World where
  ctx : Context
  log : Log
  broadcasts : List Payload
  notified : List (List Alert)

/-- A stage: nothing while it has not returned, else the world after it and the
alerts for the next stage or an error. -/
abbrev Stage := World → List Alert → Option (World × Except StageError (List Alert))

/-- `MultiStage.Exec`. -/
def multiStage : List Stage → Stage
  | [], w, alerts => some (w, .ok alerts)
  | _ :: _, w, [] => some (w, .ok [])
  | s :: ms, w, a :: alerts =>
    match s w (a :: alerts) with
    | none => none
    | some (w', .error err) => some (w', .error err)
    | some (w', .ok alerts') => multiStage ms w' alerts'

/-- The part of an integration that the stages use. -/
structure Integration where
  sendResolved : Bool
  recv : Receiver

/-! ### DedupStage -/

/-- `isSubset` over the hashes of a list. -/
def isSubset (set : List UInt64) (subset : Finset UInt64) : Bool :=
  decide (subset ⊆ set.toFinset)

/-- `needsUpdate`. -/
def needsUpdate (sendResolved : Bool) (entry : Option Entry) (firing resolved : Finset UInt64)
    (repeatInterval now : ℤ) : NotifyReason :=
  match entry with
  | none => if 0 < firing.card then .firstNotification else .doNotNotify
  | some entry =>
    if !isSubset entry.firingAlerts firing then
      if entry.firingAlerts.length = 0 then .firstNotification else .newAlertsInGroup
    else if firing.card = 0 then
      if 0 < entry.firingAlerts.length then .allAlertsResolved else .doNotNotify
    else if sendResolved && !isSubset entry.resolvedAlerts resolved then .newResolvedAlerts
    else if asTime entry.timestamp < now - repeatInterval then .repeatIntervalElapsed
    else .doNotNotify

/-- `partitionAlertsByState`: the hashes of the firing and of the resolved alerts. The
sets it also returns are those of the two lists. -/
def partitionAlertsByState [XXHash] (clock : ℕ → ℤ) : List Alert → List UInt64 × List UInt64
  | [] => ([], [])
  | a :: alerts =>
    let r := partitionAlertsByState (fun i => clock (i + 1)) alerts
    if a.resolvedAt (clock 0) then (r.1, hashAlert a :: r.2) else (hashAlert a :: r.1, r.2)

/-- `nflog.NewStore`. -/
def newStore (entry : Option Entry) : StoreData := (entry.map Entry.receiverData).getD ∅

/-- The end of `DedupStage.Exec`, with the entry that the log had for the group. -/
def dedupDecision (i : Integration) (w : World) (partition : List UInt64 × List UInt64)
    (repeatInterval now : ℤ) (alerts : List Alert) (entry : Option Entry) :
    World × Except StageError (List Alert) :=
  let reason := needsUpdate i.sendResolved entry partition.1.toFinset partition.2.toFinset
    repeatInterval now
  let ctx :=
    { w.ctx with
      firingAlerts := some partition.1
      resolvedAlerts := some partition.2
      notificationReason := some reason
      nflogStore := some (newStore (if reason = .firstNotification then none else entry)) }
  ({ w with ctx := ctx }, .ok (if reason.shouldNotify then alerts else []))

/-- `DedupStage.Exec`; `clockNow` is what the clock shows if the context has no time. -/
def dedupStage [XXHash] (i : Integration) (clock : ℕ → ℤ) (clockNow : ℤ) : Stage := fun w alerts =>
  match w.ctx.groupKey, w.ctx.repeatInterval with
  | none, _ => some (w, .error .groupKeyMissing)
  | some _, none => some (w, .error .repeatIntervalMissing)
  | some gkey, some repeatInterval =>
    let r := partitionAlertsByState clock alerts
    let now := w.ctx.now.getD clockNow
    match w.log.query gkey i.recv with
    | .error .notFound | .ok [] => some (dedupDecision i w r repeatInterval now alerts none)
    | .ok [entry] => some (dedupDecision i w r repeatInterval now alerts (some entry))
    | .ok entries => some (w, .error (.unexpectedEntries entries.length))
    | .error err => some (w, .error (.nflog err))

/-! ### RetryStage -/

inductive NotifyResult
  | success
  | recoverable
  | unrecoverable
  deriving DecidableEq, Repr

/-- What the loop of a `RetryStage` meets: a tick with the result of the `Notify`
call, or the end of the context. -/
inductive RetryEvent
  | tick (result : NotifyResult)
  | ctxDone
  deriving DecidableEq, Repr

/-- The loop of `RetryStage.exec` after `i` attempts. -/
def retryLoop (i : ℕ) : List RetryEvent → Option (Except StageError Unit)
  | [] => none
  | .ctxDone :: _ => some (.error (.retryCanceled i))
  | .tick .success :: _ => some (.ok ())
  | .tick .unrecoverable :: _ => some (.error (.unrecoverable (i + 1)))
  | .tick .recoverable :: events => retryLoop (i + 1) events

/-- The alerts whose status is not resolved. -/
def unresolved (clock : ℕ → ℤ) : List Alert → List Alert
  | [] => []
  | a :: alerts =>
    let rest := unresolved (fun i => clock (i + 1)) alerts
    if a.resolvedAt (clock 0) then rest else a :: rest

/-- The `Notify` calls for the alerts. They may change the data of the store. -/
def notify (events : List RetryEvent) (mutate : StoreData → StoreData) (sent : List Alert) :
    Stage := fun w alerts =>
  let w' := { w with ctx := { w.ctx with nflogStore := w.ctx.nflogStore.map mutate } }
  match retryLoop 0 events with
  | none => none
  | some (.error err) => some (w', .error err)
  | some (.ok ()) => some ({ w' with notified := w'.notified ++ [sent] }, .ok alerts)

/-- `RetryStage.exec`. -/
def retryStage (i : Integration) (clock : ℕ → ℤ) (events : List RetryEvent)
    (mutate : StoreData → StoreData) : Stage := fun w alerts =>
  if i.sendResolved then notify events mutate alerts w alerts
  else
    match w.ctx.firingAlerts with
    | none => some (w, .error .firingAlertsMissing)
    | some firing =>
      if firing.length = 0 then some (w, .ok alerts)
      else notify events mutate (unresolved clock alerts) w alerts

/-! ### SetNotifiesStage -/

/-- `SetNotifiesStage.Exec`; the log reads the clock at `now` and at `mergeNow`. -/
def setNotifiesStage [Nflog.Proto] (i : Integration) (now mergeNow : ℤ) : Stage := fun w alerts =>
  match w.ctx.groupKey, w.ctx.firingAlerts, w.ctx.resolvedAlerts, w.ctx.repeatInterval with
  | none, _, _, _ => some (w, .error .groupKeyMissing)
  | some _, none, _, _ => some (w, .error .firingAlertsMissing)
  | some _, some _, none, _ => some (w, .error .resolvedAlertsMissing)
  | some _, some _, some _, none => some (w, .error .repeatIntervalMissing)
  | some gkey, some firing, some resolved, some repeatInterval =>
    match w.log.log i.recv gkey firing resolved w.ctx.nflogStore (2 * repeatInterval) now
      mergeNow with
    | .error err => some (w, .error (.nflog err))
    | .ok (l, bs) => some ({ w with log := l, broadcasts := w.broadcasts ++ bs }, .ok alerts)

/-- What the stages meet in one execution: the readings of the clock, and the course
of the `Notify` calls. -/
structure Env where
  partitionClock : ℕ → ℤ
  dedupNow : ℤ
  statusClock : ℕ → ℤ
  events : List RetryEvent
  mutate : StoreData → StoreData
  logNow : ℤ
  mergeNow : ℤ

/-- The three stages of an integration. -/
def pipeline [XXHash] [Nflog.Proto] (i : Integration) (env : Env) : Stage :=
  multiStage [dedupStage i env.partitionClock env.dedupNow,
    retryStage i env.statusClock env.events env.mutate,
    setNotifiesStage i env.logNow env.mergeNow]

/-! ### What an execution does -/

theorem isSubset_iff {set : List UInt64} {subset : Finset UInt64} :
    isSubset set subset = true ↔ ∀ k ∈ subset, k ∈ set := by
  simp [isSubset, Finset.subset_iff]

/-- Nothing is sent only if the firing alerts are in the entry of the last time. -/
theorem firing_subset_of_doNotNotify {sendResolved : Bool} {entry : Option Entry}
    {firing resolved : Finset UInt64} {repeatInterval now : ℤ}
    (h : (needsUpdate sendResolved entry firing resolved repeatInterval now).shouldNotify = false)
    {k : UInt64} (hk : k ∈ firing) : ∃ e, entry = some e ∧ k ∈ e.firingAlerts := by
  cases entry with
  | none =>
    have hpos : 0 < firing.card := Finset.card_pos.mpr ⟨k, hk⟩
    simp [needsUpdate, hpos, NotifyReason.shouldNotify] at h
  | some e =>
    refine ⟨e, rfl, ?_⟩
    cases hsub : isSubset e.firingAlerts firing with
    | true => exact isSubset_iff.mp hsub k hk
    | false =>
      simp only [needsUpdate, hsub, Bool.not_false, if_true] at h
      split_ifs at h <;> simp [NotifyReason.shouldNotify] at h

/-- Nothing is sent when there is nothing new and the repeat interval has not passed. -/
theorem doNotNotify_of_entry {e : Entry} {firing resolved : Finset UInt64}
    {repeatInterval now : ℤ} (sendResolved : Bool) (hfiring : e.firingAlerts.toFinset = firing)
    (hresolved : resolved ⊆ e.resolvedAlerts.toFinset)
    (hnow : now ≤ asTime e.timestamp + repeatInterval) :
    needsUpdate sendResolved (some e) firing resolved repeatInterval now = .doNotNotify := by
  have hf : isSubset e.firingAlerts firing = true := by
    rw [isSubset_iff, ← hfiring]
    exact fun k hk => List.mem_toFinset.mp hk
  have hr : isSubset e.resolvedAlerts resolved = true := by
    rw [isSubset_iff]
    exact fun k hk => List.mem_toFinset.mp (hresolved hk)
  have hrepeat : ¬ asTime e.timestamp < now - repeatInterval := by omega
  by_cases hempty : e.firingAlerts = []
  · subst hfiring
    simp [needsUpdate, hempty, isSubset]
  · have hcard : firing.card ≠ 0 := by
      rw [← hfiring, Finset.card_ne_zero, List.toFinset_nonempty_iff]
      exact hempty
    simp [needsUpdate, hf, hr, hcard, hrepeat]

/-- The `Notify` calls of a `RetryStage` that has returned without an error: none if
there is nothing to send, else one that succeeded. -/
def sentBy (i : Integration) (env : Env) (firing : List UInt64) (alerts : List Alert) :
    List (List Alert) :=
  if i.sendResolved then [alerts]
  else if firing.length = 0 then []
  else [unresolved env.statusClock alerts]

/-- The stage has left alone the log and what the next stage reads from the context. -/
structure Keeps (w w' : World) : Prop where
  log : w'.log = w.log
  broadcasts : w'.broadcasts = w.broadcasts
  groupKey : w'.ctx.groupKey = w.ctx.groupKey
  repeatInterval : w'.ctx.repeatInterval = w.ctx.repeatInterval
  firingAlerts : w'.ctx.firingAlerts = w.ctx.firingAlerts
  resolvedAlerts : w'.ctx.resolvedAlerts = w.ctx.resolvedAlerts

theorem Keeps.refl (w : World) : Keeps w w := ⟨rfl, rfl, rfl, rfl, rfl, rfl⟩

section
variable {i : Integration} {w w' : World} {alerts alerts' : List Alert} {err : StageError}

theorem notify_keeps {events : List RetryEvent} {mutate : StoreData → StoreData}
    {sent : List Alert} {r : Except StageError (List Alert)}
    (h : notify events mutate sent w alerts = some (w', r)) :
    Keeps w w' ∧ ((∃ err, r = .error err) ∧ w'.notified = w.notified ∨
      r = .ok alerts ∧ w'.notified = w.notified ++ [sent]) := by
  simp only [notify] at h
  split at h
  · cases h
  · simp only [Option.some.injEq, Prod.mk.injEq] at h
    obtain ⟨rfl, rfl⟩ := h
    exact ⟨⟨rfl, rfl, rfl, rfl, rfl, rfl⟩, Or.inl ⟨⟨_, rfl⟩, rfl⟩⟩
  · simp only [Option.some.injEq, Prod.mk.injEq] at h
    obtain ⟨rfl, rfl⟩ := h
    exact ⟨⟨rfl, rfl, rfl, rfl, rfl, rfl⟩, Or.inr ⟨rfl, rfl⟩⟩

/-- A `RetryStage` fails, or it has sent what there is to send. -/
theorem retryStage_keeps {env : Env} {firing : List UInt64} {r : Except StageError (List Alert)}
    (hfiring : w.ctx.firingAlerts = some firing)
    (h : retryStage i env.statusClock env.events env.mutate w alerts = some (w', r)) :
    Keeps w w' ∧ ((∃ err, r = .error err) ∧ w'.notified = w.notified ∨
      r = .ok alerts ∧ w'.notified = w.notified ++ sentBy i env firing alerts) := by
  simp only [retryStage, hfiring] at h
  unfold sentBy
  split_ifs at h ⊢
  · exact notify_keeps h
  · simp only [Option.some.injEq, Prod.mk.injEq] at h
    obtain ⟨rfl, rfl⟩ := h
    exact ⟨Keeps.refl w, Or.inr ⟨rfl, by simp⟩⟩
  · exact notify_keeps h

/-- The context in which the next stages run: the group and the hashes of the alerts. -/
structure Prepared (gkey : GoString) (repeatInterval : ℤ) (partition : List UInt64 × List UInt64)
    (w : World) : Prop where
  groupKey : w.ctx.groupKey = some gkey
  repeatInterval : w.ctx.repeatInterval = some repeatInterval
  firingAlerts : w.ctx.firingAlerts = some partition.1
  resolvedAlerts : w.ctx.resolvedAlerts = some partition.2

theorem Prepared.keeps {gkey : GoString} {repeatInterval : ℤ}
    {partition : List UInt64 × List UInt64} (h : Prepared gkey repeatInterval partition w)
    (hk : Keeps w w') : Prepared gkey repeatInterval partition w' :=
  ⟨hk.groupKey.trans h.groupKey, hk.repeatInterval.trans h.repeatInterval,
    hk.firingAlerts.trans h.firingAlerts, hk.resolvedAlerts.trans h.resolvedAlerts⟩

/-- A `SetNotifiesStage` fails, or it has logged the alerts of the context. -/
theorem setNotifiesStage_cases [Nflog.Proto] {now mergeNow : ℤ} {gkey : GoString}
    {firing resolved : List UInt64} {repeatInterval : ℤ} {r : Except StageError (List Alert)}
    (hw : Prepared gkey repeatInterval (firing, resolved) w)
    (h : setNotifiesStage i now mergeNow w alerts = some (w', r)) :
    w'.notified = w.notified ∧
      ((∃ err, r = .error err) ∧ w'.log = w.log ∧ w'.broadcasts = w.broadcasts ∨
        r = .ok alerts ∧ ∃ bs,
          w.log.log i.recv gkey firing resolved w.ctx.nflogStore (2 * repeatInterval) now
            mergeNow = .ok (w'.log, bs) ∧ w'.broadcasts = w.broadcasts ++ bs) := by
  simp only [setNotifiesStage, hw.groupKey, hw.firingAlerts, hw.resolvedAlerts,
    hw.repeatInterval] at h
  cases hlog : w.log.log i.recv gkey firing resolved w.ctx.nflogStore (2 * repeatInterval) now
      mergeNow with
  | error err =>
    simp only [hlog, Option.some.injEq, Prod.mk.injEq] at h
    obtain ⟨rfl, rfl⟩ := h
    exact ⟨rfl, Or.inl ⟨⟨_, rfl⟩, rfl, rfl⟩⟩
  | ok lbs =>
    obtain ⟨l, bs⟩ := lbs
    simp only [hlog, Option.some.injEq, Prod.mk.injEq] at h
    obtain ⟨rfl, rfl⟩ := h
    exact ⟨rfl, Or.inr ⟨rfl, bs, rfl, rfl⟩⟩

/-- A `DedupStage` fails, or it decides by the entry that the log has for the group. -/
theorem dedupStage_cases [XXHash] {clock : ℕ → ℤ} {clockNow : ℤ}
    {r : Except StageError (List Alert)}
    (h : dedupStage i clock clockNow w alerts = some (w', r)) :
    w'.log = w.log ∧ w'.broadcasts = w.broadcasts ∧ w'.notified = w.notified ∧
      ((∃ err, r = .error err) ∨
        ∃ gkey repeatInterval, w.ctx.groupKey = some gkey ∧
          w.ctx.repeatInterval = some repeatInterval ∧ gkey ≠ [] ∧
          Prepared gkey repeatInterval (partitionAlertsByState clock alerts) w' ∧
          r = .ok (if (needsUpdate i.sendResolved
              ((w.log.st.lookup (Nflog.stateKey gkey i.recv)).map Nflog.MeshEntry.entry)
              (partitionAlertsByState clock alerts).1.toFinset
              (partitionAlertsByState clock alerts).2.toFinset repeatInterval
              (w.ctx.now.getD clockNow)).shouldNotify then alerts else [])) := by
  cases hkey : w.ctx.groupKey with
  | none =>
    simp only [dedupStage, hkey, Option.some.injEq, Prod.mk.injEq] at h
    obtain ⟨rfl, rfl⟩ := h
    exact ⟨rfl, rfl, rfl, Or.inl ⟨_, rfl⟩⟩
  | some gkey =>
    cases hrepeat : w.ctx.repeatInterval with
    | none =>
      simp only [dedupStage, hkey, hrepeat, Option.some.injEq, Prod.mk.injEq] at h
      obtain ⟨rfl, rfl⟩ := h
      exact ⟨rfl, rfl, rfl, Or.inl ⟨_, rfl⟩⟩
    | some repeatInterval =>
      by_cases hempty : gkey = []
      · simp only [dedupStage, hkey, hrepeat, Log.query, hempty, if_true, Option.some.injEq,
          Prod.mk.injEq] at h
        obtain ⟨rfl, rfl⟩ := h
        exact ⟨rfl, rfl, rfl, Or.inl ⟨_, rfl⟩⟩
      · cases hentry : w.log.st.lookup (Nflog.stateKey gkey i.recv) with
        | none =>
          simp only [dedupStage, hkey, hrepeat, Log.query, hempty, if_false, hentry,
            dedupDecision, Option.some.injEq, Prod.mk.injEq] at h
          obtain ⟨rfl, rfl⟩ := h
          exact ⟨rfl, rfl, rfl, Or.inr ⟨gkey, repeatInterval, rfl, rfl, hempty,
            ⟨rfl, rfl, rfl, rfl⟩, by rw [hentry]; rfl⟩⟩
        | some e =>
          simp only [dedupStage, hkey, hrepeat, Log.query, hempty, if_false, hentry,
            dedupDecision, Option.some.injEq, Prod.mk.injEq] at h
          obtain ⟨rfl, rfl⟩ := h
          exact ⟨rfl, rfl, rfl, Or.inr ⟨gkey, repeatInterval, rfl, rfl, hempty,
            ⟨rfl, rfl, rfl, rfl⟩, by rw [hentry]; rfl⟩⟩

end

/-- After the decision to send: a stage fails, or the alerts are sent and logged. -/
theorem sendAndLog [Nflog.Proto] {i : Integration} {env : Env} {w w' : World} {a : Alert}
    {alerts : List Alert} {r : Except StageError (List Alert)} {gkey : GoString}
    {repeatInterval : ℤ} {partition : List UInt64 × List UInt64}
    (hw : Prepared gkey repeatInterval partition w)
    (h : multiStage [retryStage i env.statusClock env.events env.mutate,
      setNotifiesStage i env.logNow env.mergeNow] w (a :: alerts) = some (w', r)) :
    (w'.log = w.log ∧ w'.broadcasts = w.broadcasts ∧ w.notified ⊆ w'.notified ∧
      ∃ err, r = .error err) ∨
    ∃ bs, r = .ok (a :: alerts) ∧
      (∃ store, w.log.log i.recv gkey partition.1 partition.2 store (2 * repeatInterval) env.logNow
        env.mergeNow = .ok (w'.log, bs)) ∧
      w'.broadcasts = w.broadcasts ++ bs ∧
      w'.notified = w.notified ++ sentBy i env partition.1 (a :: alerts) := by
  simp only [multiStage] at h
  split at h
  · cases h
  · rename_i w₁ err hretry
    obtain ⟨hk, ⟨-, hnot⟩ | ⟨hr, -⟩⟩ := retryStage_keeps hw.firingAlerts hretry
    · simp only [Option.some.injEq, Prod.mk.injEq] at h
      obtain ⟨rfl, rfl⟩ := h
      exact Or.inl ⟨hk.log, hk.broadcasts, by rw [hnot]; exact List.Subset.refl _, err, rfl⟩
    · cases hr
  · rename_i w₁ alerts₁ hretry
    obtain ⟨hk, ⟨⟨err, hr⟩, -⟩ | ⟨hr, hnot⟩⟩ := retryStage_keeps hw.firingAlerts hretry
    · cases hr
    obtain rfl := Except.ok.inj hr
    simp only [multiStage] at h
    split at h
    · cases h
    · rename_i w₂ err hset
      obtain ⟨hnot', ⟨-, hlog, hbs⟩ | ⟨hr', -⟩⟩ := setNotifiesStage_cases (hw.keeps hk) hset
      · simp only [Option.some.injEq, Prod.mk.injEq] at h
        obtain ⟨rfl, rfl⟩ := h
        refine Or.inl ⟨hlog.trans hk.log, hbs.trans hk.broadcasts, ?_, err, rfl⟩
        rw [hnot', hnot]
        exact List.subset_append_left _ _
      · cases hr'
    · rename_i w₂ alerts₂ hset
      obtain ⟨hnot', ⟨⟨err, hr'⟩, -⟩ | ⟨hr', bs, hlog, hbs⟩⟩ :=
        setNotifiesStage_cases (hw.keeps hk) hset
      · cases hr'
      obtain rfl := Except.ok.inj hr'
      simp only [Option.some.injEq, Prod.mk.injEq] at h
      obtain ⟨rfl, rfl⟩ := h
      rw [hk.log] at hlog
      exact Or.inr ⟨bs, rfl, ⟨_, hlog⟩, by rw [hbs, hk.broadcasts], by rw [hnot', hnot]⟩

/-- What an execution of the three stages can come to: it fails, and what has been
logged stays; it finds nothing to send; or it has sent and logged the alerts. -/
inductive Executed [XXHash] [Nflog.Proto] (i : Integration) (env : Env) (w : World)
    (alerts : List Alert) (w' : World) (r : Except StageError (List Alert)) : Prop
  | failed (err : StageError) : r = .error err → w'.log = w.log →
      w'.broadcasts = w.broadcasts → w.notified ⊆ w'.notified → Executed i env w alerts w' r
  | skipped : r = .ok [] → w'.log = w.log → w'.broadcasts = w.broadcasts →
      w'.notified = w.notified →
      (∀ k ∈ (partitionAlertsByState env.partitionClock alerts).1, ∃ gkey e,
        w.ctx.groupKey = some gkey ∧
        w.log.st.lookup (Nflog.stateKey gkey i.recv) = some e ∧ k ∈ e.entry.firingAlerts) →
      Executed i env w alerts w' r
  | logged (gkey : GoString) (repeatInterval : ℤ) (store : Option StoreData) (bs : List Payload) :
      r = .ok alerts → w.ctx.groupKey = some gkey →
      w.ctx.repeatInterval = some repeatInterval → gkey ≠ [] →
      w.log.log i.recv gkey (partitionAlertsByState env.partitionClock alerts).1
        (partitionAlertsByState env.partitionClock alerts).2 store (2 * repeatInterval)
        env.logNow env.mergeNow = .ok (w'.log, bs) →
      w'.broadcasts = w.broadcasts ++ bs →
      w'.notified = w.notified ++
        sentBy i env (partitionAlertsByState env.partitionClock alerts).1 alerts →
      Executed i env w alerts w' r

theorem executed [XXHash] [Nflog.Proto] {i : Integration} {env : Env} {w w' : World}
    {alerts : List Alert} {r : Except StageError (List Alert)}
    (h : pipeline i env w alerts = some (w', r)) : Executed i env w alerts w' r := by
  cases alerts with
  | nil =>
    simp only [pipeline, multiStage, Option.some.injEq, Prod.mk.injEq] at h
    obtain ⟨rfl, rfl⟩ := h
    exact .skipped rfl rfl rfl rfl (by simp [partitionAlertsByState])
  | cons a alerts =>
    simp only [pipeline, multiStage] at h
    split at h
    · cases h
    · rename_i w₁ err hd
      obtain ⟨hlog, hbs, hnot, -⟩ := dedupStage_cases hd
      simp only [Option.some.injEq, Prod.mk.injEq] at h
      obtain ⟨rfl, rfl⟩ := h
      exact .failed err rfl hlog hbs (by rw [hnot]; exact List.Subset.refl _)
    · rename_i w₁ alerts₁ hd
      obtain ⟨hlog, hbs, hnot,
          ⟨err, herr⟩ | ⟨gkey, repeatInterval, hkey, hrepeat, hne, hw₁, hr⟩⟩ :=
        dedupStage_cases hd
      · cases herr
      obtain rfl := Except.ok.inj hr
      split_ifs at h with hnotify
      · obtain ⟨hlog', hbs', hnot', hrest⟩ | ⟨bs, rfl, ⟨store, hl⟩, hbs', hnot'⟩ :=
          sendAndLog hw₁ h
        · obtain ⟨err, rfl⟩ := hrest
          exact .failed err rfl (hlog'.trans hlog) (hbs'.trans hbs) (hnot ▸ hnot')
        · rw [hlog] at hl
          exact .logged gkey repeatInterval store bs rfl hkey hrepeat hne hl (hbs ▸ hbs')
            (hnot ▸ hnot')
      · simp only [multiStage, Option.some.injEq, Prod.mk.injEq] at h
        obtain ⟨rfl, rfl⟩ := h
        refine .skipped rfl hlog hbs hnot fun k hk => ?_
        obtain ⟨e, he, hmem⟩ := firing_subset_of_doNotNotify (by simpa using hnotify)
          (List.mem_toFinset.mpr hk)
        obtain ⟨m, hm, rfl⟩ := Option.map_eq_some_iff.mp he
        exact ⟨gkey, m, hkey, hm, hmem⟩

end Alertmanager.Notify
