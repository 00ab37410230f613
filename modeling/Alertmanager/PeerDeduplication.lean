import Alertmanager.NotifyStages

/-!
# Deduplication across peers

What one node has sent and logged, a peer that has merged the broadcast does not send
again. The entry that `Log` writes carries the hashes by which the decision was made,
the broadcast is decoded to that entry, the peer stores it because it has nothing as
new, and `needsUpdate` finds nothing to do as long as the repeat interval has not
passed.
-/
namespace Alertmanager.Notify

open Nflog (Receiver Payload Log MeshEntry stateKey decodeState)

section
variable [XXHash]

/-- On this log a `DedupStage` for the group and the receiver lets no alerts through
until the repeat interval after `t` has passed, if the firing alerts are those of
`firing` and the resolved ones are among `resolved`. -/
def SendsNothing (recv : Receiver) (gkey : GoString) (l : Log) (t : ℤ)
    (firing resolved : Finset UInt64) : Prop :=
  ∀ (i : Integration) (w : World) (clock : ℕ → ℤ) (clockNow repeatInterval : ℤ)
    (alerts : List Alert),
    i.recv = recv → w.log = l → w.ctx.groupKey = some gkey →
    w.ctx.repeatInterval = some repeatInterval →
    (partitionAlertsByState clock alerts).1.toFinset = firing →
    (partitionAlertsByState clock alerts).2.toFinset ⊆ resolved →
    w.ctx.now.getD clockNow ≤ t + repeatInterval →
    ∃ w', dedupStage i clock clockNow w alerts = some (w', .ok [])

theorem sendsNothing_of_lookup {recv : Receiver} {gkey : GoString} {l : Log} {e : MeshEntry}
    {t : ℤ} {firing resolved : Finset UInt64} (hne : gkey ≠ [])
    (hlookup : l.st.lookup (stateKey gkey recv) = some e) (ht : e.stamp = t)
    (hfiring : e.entry.firingAlerts.toFinset = firing)
    (hresolved : e.entry.resolvedAlerts.toFinset = resolved) :
    SendsNothing recv gkey l t firing resolved := by
  subst ht
  rintro i w clock clockNow repeatInterval alerts rfl rfl hkey hrepeat hf hr hnow
  have hreason : needsUpdate i.sendResolved (some e.entry)
      (partitionAlertsByState clock alerts).1.toFinset
      (partitionAlertsByState clock alerts).2.toFinset repeatInterval
      (w.ctx.now.getD clockNow) = .doNotNotify :=
    doNotNotify_of_entry i.sendResolved (hfiring.trans hf.symm) (hresolved ▸ hr) hnow
  refine ⟨(dedupDecision i w (partitionAlertsByState clock alerts) repeatInterval
    (w.ctx.now.getD clockNow) alerts (some e.entry)).1, ?_⟩
  simp only [dedupStage, hkey, hrepeat, Log.query, hne, if_false, hlookup]
  simp [dedupDecision, hreason, NotifyReason.shouldNotify]

variable [Nflog.Proto]

/-- A node has run the three stages for a list of alerts and has broadcast the entry
it logged. A peer that merges the broadcast while the entry is unexpired, and has no
entry as new for the group and the receiver, lets the same firing alerts with no other
resolved ones not through until the repeat interval has passed, as long as the entry
is not collected; neither does the node itself. -/
theorem deduplicated_across_peers {i : Integration} {env : Env} {w w' : World}
    {alerts alerts' : List Alert} {p : Payload} {gkey : GoString} {repeatInterval : ℤ}
    (hkey : w.ctx.groupKey = some gkey) (hrepeat : w.ctx.repeatInterval = some repeatInterval)
    (hbs : w.broadcasts = []) (hexec : pipeline i env w alerts = some (w', .ok alerts'))
    (hp : w'.broadcasts = [p]) :
    let firing := (partitionAlertsByState env.partitionClock alerts).1.toFinset
    let resolved := (partitionAlertsByState env.partitionClock alerts).2.toFinset
    let expiresAt := w.log.expiresAt env.logNow (2 * repeatInterval)
    (∀ (l : Log) (t : ℤ) (order : List GoString) (gcs : List (ℤ × List GoString)),
      (∀ st, decodeState p = .ok st → GoMap.Ranges st order) →
      (l.merge p t order).1 = none → t ≤ expiresAt →
      (∀ prev, l.st.lookup (stateKey gkey i.recv) = some prev → prev.stamp < env.logNow) →
      (∀ g ∈ gcs, g.1 < expiresAt) →
      SendsNothing i.recv gkey ((l.merge p t order).2.1.collect gcs) env.logNow firing
        resolved) ∧
    (∀ gcs : List (ℤ × List GoString), env.mergeNow ≤ expiresAt →
      (∀ prev, w.log.st.lookup (stateKey gkey i.recv) = some prev → prev.stamp < env.logNow) →
      (∀ g ∈ gcs, g.1 < expiresAt) →
      SendsNothing i.recv gkey (w'.log.collect gcs) env.logNow firing resolved) := by
  intro firing resolved expiresAt
  cases executed hexec with
  | failed err hr => cases hr
  | skipped _ _ hbs' =>
    rw [hp, hbs] at hbs'
    cases hbs'
  | logged gkey' repeatInterval' store bs _ hkey' hrepeat' hne hlog hbs' _ =>
    obtain rfl : gkey' = gkey := Option.some.inj (hkey'.symm.trans hkey)
    obtain rfl : repeatInterval' = repeatInterval :=
      Option.some.inj (hrepeat'.symm.trans hrepeat)
    rw [hp, hbs, List.nil_append] at hbs'
    subst hbs'
    obtain ⟨-, hnil, -⟩ | ⟨q, hq, hmarshal, hlog'⟩ := Log.log_cases hlog
    · cases hnil
    obtain rfl := (List.cons.inj hq).1
    have hcollected (l : Log) (gcs : List (ℤ × List GoString))
        (hgcs : ∀ g ∈ gcs, g.1 < expiresAt)
        (hl : l.st.lookup (stateKey gkey' i.recv) = some (w.log.newEntry i.recv gkey'
          (partitionAlertsByState env.partitionClock alerts).1
          (partitionAlertsByState env.partitionClock alerts).2 store (2 * repeatInterval')
          env.logNow)) :
        SendsNothing i.recv gkey' (l.collect gcs) env.logNow firing resolved := by
      refine sendsNothing_of_lookup hne (Log.lookup_collect ?_ hl) rfl rfl rfl
      exact hgcs
    refine ⟨fun l t order gcs horder hmerge ht hnewer hgcs => ?_, fun gcs ht hnewer hgcs => ?_⟩
    · obtain ⟨st, hst⟩ := Log.merge_ok hmerge
      exact hcollected _ gcs hgcs
        (Log.lookup_merge_marshal hmarshal hst (horder st hst) ht hnewer)
    · refine hcollected _ gcs hgcs ?_
      rw [hlog']
      exact Nflog.lookup_stateMerge ht hnewer

end

section
attribute [local instance] fnvXXHash Nflog.zeroProto

def pager : Integration where
  sendResolved := true
  recv := ⟨str "team", str "pager", 0⟩

/-- An alert about a disk; without an end it is firing. -/
def diskFull (instanceName : String) (endsAt : ℤ) : Alert where
  labels := ((∅ : LabelSet).insert Alert.alertNameLabel (str "DiskFull")).insert
    (str "instance") (str instanceName)
  annotations := ∅
  startsAt := 1
  endsAt := endsAt
  generatorURL := []
  updatedAt := 1
  timeout := false

/-- The context of a flush at the given time, with a repeat interval of 50. -/
def flushContext (now : ℤ) : Context where
  groupKey := some (str "g")
  repeatInterval := some 50
  now := some now
  firingAlerts := none
  resolvedAlerts := none
  nflogStore := none
  notificationReason := none

/-- The first `Notify` call fails and the second succeeds; the entry is logged at 12. -/
def secondTry : Env where
  partitionClock := fun _ => 11
  dedupNow := 11
  statusClock := fun _ => 11
  events := [.tick .recoverable, .tick .success]
  mutate := id
  logNow := 12
  mergeNow := 13

def emptyLog : Log := ⟨∅, 1000⟩

def firstNode : World := ⟨flushContext 10, emptyLog, [], []⟩

/-- What the first node works on after it has sent the alerts. -/
def firstNodeAfter : World :=
  ((pipeline pager secondTry firstNode [diskFull "a" 0, diskFull "b" 5]).map Prod.fst).getD
    firstNode

def broadcastEntry : Payload := firstNodeAfter.broadcasts.head?.getD ⟨[], true, 0⟩

/-- A peer that has merged the broadcast at 20 sends nothing at 60. -/
theorem deduplicated_across_peers_later :
    ∃ w', dedupStage pager (fun _ => 60) 60
      ⟨flushContext 60, (emptyLog.merge broadcastEntry 20
        [stateKey (str "g") pager.recv]).2.1, [], []⟩
      [diskFull "b" 5, diskFull "a" 0] = some (w', .ok []) := by
  have hexec : pipeline pager secondTry firstNode [diskFull "a" 0, diskFull "b" 5] =
      some (firstNodeAfter, .ok [diskFull "a" 0, diskFull "b" 5]) := rfl
  have hp : firstNodeAfter.broadcasts = [broadcastEntry] := rfl
  obtain ⟨hpeer, -⟩ := deduplicated_across_peers rfl rfl rfl hexec hp
  refine hpeer emptyLog 20 [stateKey (str "g") pager.recv] [] (fun st hst => ?_)
    (by decide +kernel) (by decide +kernel) (fun prev h => ?_) (by simp) pager _ (fun _ => 60) 60 50
    [diskFull "b" 5, diskFull "a" 0] rfl
    rfl rfl rfl ?_ ?_ (by decide +kernel)
  · have hdecoded : st = (decodeState broadcastEntry).toOption.getD ∅ := by
      rw [hst]
      rfl
    rw [hdecoded]
    decide +kernel
  · simp [emptyLog] at h
  · decide +kernel
  · decide +kernel

end

end Alertmanager.Notify
