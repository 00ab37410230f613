import Alertmanager.PeerDeduplication
import Alertmanager.Runs

/-!
# The notification log tells what was sent

One integration and one group on one node, with a clock that always moves forward.
The firing hashes of the stored entry all belong to alerts that a successful `Notify`
call has carried as firing: an entry is only written after a call has succeeded, with
the hashes of the alerts of that call. And an execution without an error leaves all
its firing alerts in the entry, because it has either written them or found them there.
-/
namespace Alertmanager.Notify

open Nflog (Log MeshEntry stateKey)

/-! ### The alerts of a flush -/

/-- Whether an alert of a flush is firing does not depend on when one looks. -/
theorem resolvedAt_of_mem_copies {t t' : ℤ} {alerts : List Alert} {a : Alert}
    (ha : a ∈ (AggrGroup.copies t alerts).1) (ht : t < t') :
    a.resolvedAt t' = decide (a.endsAt ≠ 0) := by
  simp only [AggrGroup.copies, List.mem_map] at ha
  obtain ⟨b, -, rfl⟩ := ha
  split_ifs with hres
  · have hend := (Alert.resolvedAt_eq_true.mp hres).1
    rw [Alert.resolvedAt_mono ht.le hres]
    simp [hend]
  · simp [Alert.resolvedAt]

section
variable {clock : ℕ → ℤ} {alerts : List Alert}

theorem mem_unresolved
    (hstatus : ∀ k < alerts.length, ∀ a ∈ alerts, a.resolvedAt (clock k) = decide (a.endsAt ≠ 0))
    {a : Alert} (ha : a ∈ alerts) (hend : a.endsAt = 0) : a ∈ unresolved clock alerts := by
  induction alerts generalizing clock with
  | nil => cases ha
  | cons b alerts ih =>
    have htail : a ∈ alerts → a ∈ unresolved (fun k => clock (k + 1)) alerts :=
      fun h => ih (fun k hk c hc => hstatus (k + 1) (by simpa using hk) c
        (List.mem_cons_of_mem b hc)) h
    have hb := hstatus 0 (by simp) b List.mem_cons_self
    simp only [unresolved]
    obtain rfl | ha := List.mem_cons.mp ha
    · simp [hb, hend]
    · split_ifs
      · exact htail ha
      · exact List.mem_cons_of_mem b (htail ha)

/-- The firing alerts are those without an end. -/
theorem partitionAlertsByState_eq [XXHash]
    (hstatus : ∀ k < alerts.length, ∀ a ∈ alerts, a.resolvedAt (clock k) = decide (a.endsAt ≠ 0)) :
    partitionAlertsByState clock alerts =
      ((alerts.filter fun a => a.endsAt = 0).map hashAlert,
        (alerts.filter fun a => a.endsAt ≠ 0).map hashAlert) := by
  induction alerts generalizing clock with
  | nil => rfl
  | cons b alerts ih =>
    have htail := @ih (fun k => clock (k + 1)) fun k hk c hc =>
      hstatus (k + 1) (by simpa using hk) c (List.mem_cons_of_mem b hc)
    have hb := hstatus 0 (by simp) b List.mem_cons_self
    by_cases hend : b.endsAt = 0
    · simp [partitionAlertsByState, htail, hb, hend]
    · simp [partitionAlertsByState, htail, hb, hend]

theorem mem_firing [XXHash]
    (hstatus : ∀ k < alerts.length, ∀ a ∈ alerts, a.resolvedAt (clock k) = decide (a.endsAt ≠ 0))
    {h : UInt64} :
    h ∈ (partitionAlertsByState clock alerts).1 ↔
      ∃ a ∈ alerts, a.endsAt = 0 ∧ hashAlert a = h := by
  rw [partitionAlertsByState_eq hstatus]
  simp [and_assoc]

theorem mem_resolved [XXHash]
    (hstatus : ∀ k < alerts.length, ∀ a ∈ alerts, a.resolvedAt (clock k) = decide (a.endsAt ≠ 0))
    {h : UInt64} :
    h ∈ (partitionAlertsByState clock alerts).2 ↔
      ∃ a ∈ alerts, a.endsAt ≠ 0 ∧ hashAlert a = h := by
  rw [partitionAlertsByState_eq hstatus]
  simp [and_assoc]

end

/-! ### Runs of one integration -/

structure State where
  log : Log
  notified : List (List Alert)
  clock : ℤ

/-- A flush of alerts at a time is executed, or the log is collected. -/
inductive Op
  | exec (ctx : Context) (env : Env) (flushNow : ℤ) (alerts : List Alert)
  | gc (now : ℤ) (order : List GoString)

/-- A successful `Notify` call has carried an alert with this hash as firing. -/
def Sent [XXHash] (notified : List (List Alert)) (h : UInt64) : Prop :=
  ∃ sent ∈ notified, ∃ a ∈ sent, a.endsAt = 0 ∧ hashAlert a = h

theorem Sent.mono [XXHash] {notified notified' : List (List Alert)} {h : UInt64}
    (hsub : notified ⊆ notified') (hs : Sent notified h) : Sent notified' h := by
  obtain ⟨sent, hmem, hrest⟩ := hs
  exact ⟨sent, hsub hmem, hrest⟩

section
variable [XXHash] [Nflog.Proto]

/-- The execution of the stages for a flush. -/
def State.exec (i : Integration) (s : State) (ctx : Context) (env : Env) (flushNow : ℤ)
    (alerts : List Alert) : Option (World × Except StageError (List Alert)) :=
  pipeline i env ⟨ctx, s.log, [], s.notified⟩ (AggrGroup.copies flushNow alerts).1

def nextState (i : Integration) (s : State) : Op → State
  | .exec ctx env flushNow alerts =>
    match s.exec i ctx env flushNow alerts with
    | some (w, _) => ⟨w.log, w.notified, env.mergeNow⟩
    | none => s
  | .gc now order => { s with log := (s.log.gc now order).2.1, clock := now }

/-- The executions are for one group and return. Every reading of the clock is later
than those before it, and the entry of the group does not expire. -/
def Permitted (i : Integration) (gkey : GoString) (s : State) : Op → Prop
  | .exec ctx env flushNow alerts =>
    ctx.groupKey = some gkey ∧ s.clock < flushNow ∧ flushNow < env.logNow ∧
      (∀ k < alerts.length, flushNow < env.partitionClock k ∧
        env.partitionClock k < env.logNow ∧ flushNow < env.statusClock k ∧
        env.statusClock k < env.logNow) ∧
      env.logNow < env.mergeNow ∧
      (∀ repeatInterval ∈ ctx.repeatInterval,
        env.mergeNow ≤ s.log.expiresAt env.logNow (2 * repeatInterval)) ∧
      (s.exec i ctx env flushNow alerts).isSome = true
  | .gc now _ =>
    s.clock < now ∧
      ∀ e ∈ s.log.st.lookup (stateKey gkey i.recv), now < asTime e.expiresAt

instance (i : Integration) (gkey : GoString) (s : State) (op : Op) :
    Decidable (Permitted i gkey s op) := by
  cases op <;> unfold Permitted <;> infer_instance

/-- The entry of the group is not from the future, and its firing hashes were sent. -/
def Truthful (i : Integration) (gkey : GoString) (s : State) : Prop :=
  ∀ e, s.log.st.lookup (stateKey gkey i.recv) = some e →
    e.stamp ≤ s.clock ∧ ∀ h ∈ e.entry.firingAlerts, Sent s.notified h

variable {i : Integration} {gkey : GoString} {s : State} {ctx : Context} {env : Env}
  {flushNow : ℤ} {alerts : List Alert}

theorem status_of_permitted (hp : Permitted i gkey s (.exec ctx env flushNow alerts)) :
    (∀ k < (AggrGroup.copies flushNow alerts).1.length,
      ∀ a ∈ (AggrGroup.copies flushNow alerts).1,
        a.resolvedAt (env.partitionClock k) = decide (a.endsAt ≠ 0)) ∧
    ∀ k < (AggrGroup.copies flushNow alerts).1.length,
      ∀ a ∈ (AggrGroup.copies flushNow alerts).1,
        a.resolvedAt (env.statusClock k) = decide (a.endsAt ≠ 0) := by
  obtain ⟨-, -, -, hclock, -⟩ := hp
  have hlength : (AggrGroup.copies flushNow alerts).1.length = alerts.length := by
    simp [AggrGroup.copies]
  rw [hlength]
  exact ⟨fun k hk a ha => resolvedAt_of_mem_copies ha (hclock k hk).1,
    fun k hk a ha => resolvedAt_of_mem_copies ha (hclock k hk).2.2.1⟩

/-- A firing alert is carried by the `Notify` call of an execution that sends. -/
theorem sent_of_mem (hp : Permitted i gkey s (.exec ctx env flushNow alerts)) {a : Alert}
    (ha : a ∈ (AggrGroup.copies flushNow alerts).1) (hend : a.endsAt = 0) :
    ∃ sent ∈ sentBy i env (partitionAlertsByState env.partitionClock
      (AggrGroup.copies flushNow alerts).1).1 (AggrGroup.copies flushNow alerts).1, a ∈ sent := by
  obtain ⟨hpart, hstat⟩ := status_of_permitted hp
  unfold sentBy
  split_ifs with hresolved hempty
  · exact ⟨_, List.mem_singleton_self _, ha⟩
  · have hfiring := (mem_firing hpart).mpr ⟨a, ha, hend, rfl⟩
    rw [List.length_eq_zero_iff] at hempty
    rw [hempty] at hfiring
    cases hfiring
  · exact ⟨_, List.mem_singleton_self _, mem_unresolved hstat ha hend⟩

/-- What is logged as firing is carried by the `Notify` call before it. -/
theorem sent_of_firing (hp : Permitted i gkey s (.exec ctx env flushNow alerts)) {h : UInt64}
    (hh : h ∈ (partitionAlertsByState env.partitionClock
      (AggrGroup.copies flushNow alerts).1).1) :
    Sent (sentBy i env (partitionAlertsByState env.partitionClock
      (AggrGroup.copies flushNow alerts).1).1 (AggrGroup.copies flushNow alerts).1) h := by
  obtain ⟨a, ha, hend, hhash⟩ := (mem_firing (status_of_permitted hp).1).mp hh
  obtain ⟨sent, hsent, hmem⟩ := sent_of_mem hp ha hend
  exact ⟨sent, hsent, a, hmem, hend, hhash⟩

/-- An execution that logs stores the entry with its firing hashes. -/
theorem lookup_of_logged (ht : Truthful i gkey s)
    (hp : Permitted i gkey s (.exec ctx env flushNow alerts)) {repeatInterval : ℤ}
    (hrepeat : ctx.repeatInterval = some repeatInterval) {firing resolved : List UInt64}
    {store : Option Nflog.StoreData} {l : Log} {bs : List Nflog.Payload}
    (hlog : s.log.log i.recv gkey firing resolved store (2 * repeatInterval) env.logNow
      env.mergeNow = .ok (l, bs)) :
    l.st.lookup (stateKey gkey i.recv) =
      some (s.log.newEntry i.recv gkey firing resolved store (2 * repeatInterval)
        env.logNow) := by
  obtain ⟨-, hclock, hflush, -, -, hexp, -⟩ := hp
  obtain ⟨-, -, prev, hprev, hlt⟩ | ⟨p, -, -, rfl⟩ := Log.log_cases hlog
  · have hstamp := (ht prev hprev).1
    omega
  · refine Nflog.lookup_stateMerge (hexp repeatInterval hrepeat) fun prev hprev => ?_
    have hstamp := (ht prev hprev).1
    exact lt_of_le_of_lt hstamp (hclock.trans hflush)

/-- What a step does to the stored entry: it leaves it alone, or an execution has written
its alerts after it has sent them. -/
inductive EntryStep (i : Integration) (gkey : GoString) (s : State) : Op → State → Prop
  | kept {op : Op} {t : State} :
      t.log.st.lookup (stateKey gkey i.recv) = s.log.st.lookup (stateKey gkey i.recv) →
      s.notified ⊆ t.notified → EntryStep i gkey s op t
  | written {ctx : Context} {env : Env} {flushNow : ℤ} {alerts : List Alert} {t : State}
      {e : MeshEntry} :
      t.log.st.lookup (stateKey gkey i.recv) = some e → e.stamp = env.logNow →
      e.entry.firingAlerts = (partitionAlertsByState env.partitionClock
        (AggrGroup.copies flushNow alerts).1).1 →
      e.entry.resolvedAlerts = (partitionAlertsByState env.partitionClock
        (AggrGroup.copies flushNow alerts).1).2 →
      t.notified = s.notified ++ sentBy i env (partitionAlertsByState env.partitionClock
        (AggrGroup.copies flushNow alerts).1).1 (AggrGroup.copies flushNow alerts).1 →
      EntryStep i gkey s (.exec ctx env flushNow alerts) t

theorem entryStep {op : Op} (ht : Truthful i gkey s) (hp : Permitted i gkey s op) :
    EntryStep i gkey s op (nextState i s op) := by
  cases op with
  | exec ctx env flushNow alerts =>
    obtain ⟨⟨w, r⟩, hexec⟩ := Option.isSome_iff_exists.mp hp.2.2.2.2.2.2
    have hnext : nextState i s (.exec ctx env flushNow alerts) =
        ⟨w.log, w.notified, env.mergeNow⟩ := by
      simp only [nextState, hexec]
    rw [hnext]
    cases executed hexec with
    | failed err _ hlog _ hsub => exact .kept (by rw [hlog]) hsub
    | skipped _ hlog _ hnot _ =>
      exact .kept (by rw [hlog]) (by rw [hnot]; exact List.Subset.refl _)
    | logged gkey' repeatInterval store bs _ hkey hrepeat _ hlog _ hnot =>
      obtain rfl : gkey' = gkey := Option.some.inj (hkey.symm.trans hp.1)
      exact .written (lookup_of_logged ht hp hrepeat hlog) rfl rfl rfl hnot
  | gc now order =>
    refine .kept ?_ (List.Subset.refl _)
    cases hold : s.log.st.lookup (stateKey gkey i.recv) with
    | none => exact Nflog.lookup_gcLoop_of_none now order hold 0
    | some e => exact Nflog.lookup_gcLoop (hp.2 e hold) order hold 0

/-- The clock of the state moves forward, past the time of an entry that is written. -/
theorem clock_next {op : Op} (hp : Permitted i gkey s op) :
    s.clock < (nextState i s op).clock ∧
      ∀ ctx env flushNow alerts, op = .exec ctx env flushNow alerts →
        env.logNow < (nextState i s op).clock := by
  cases op with
  | exec ctx env flushNow alerts =>
    obtain ⟨-, h₁, h₂, -, h₃, -, hsome⟩ := hp
    obtain ⟨⟨w, r⟩, hexec⟩ := Option.isSome_iff_exists.mp hsome
    simp only [nextState, hexec]
    refine ⟨by omega, ?_⟩
    rintro _ _ _ _ ⟨⟩
    exact h₃
  | gc now order => exact ⟨hp.1, fun _ _ _ _ h => by cases h⟩

theorem truthful_next {op : Op} (ht : Truthful i gkey s) (hp : Permitted i gkey s op) :
    Truthful i gkey (nextState i s op) := by
  obtain ⟨hclock, hlog⟩ := clock_next hp
  intro e he
  cases entryStep ht hp with
  | kept hsame hsub =>
    obtain ⟨hstamp, hsent⟩ := ht e (by rw [← hsame]; exact he)
    exact ⟨hstamp.trans hclock.le, fun h hh => (hsent h hh).mono hsub⟩
  | written hlookup hstamp hfiring _ hnot =>
    obtain rfl := Option.some.inj (hlookup.symm.trans he)
    refine ⟨hstamp ▸ (hlog _ _ _ _ rfl).le, fun h hh => ?_⟩
    rw [hnot]
    rw [hfiring] at hh
    exact (sent_of_firing hp hh).mono (List.subset_append_right _ _)

theorem truthful_run {s₀ : State} {ops : List Op}
    (hinit : s₀.log.st.lookup (stateKey gkey i.recv) = none)
    (hrun : Run (Fires (Permitted i gkey) (nextState i)) s₀ ops s) : Truthful i gkey s := by
  refine hrun.invariant (fun s op t ht hstep => hstep.2 ▸ truthful_next ht hstep.1) ?_
  intro e he
  cases hinit.symm.trans he

/-- An execution without an error leaves its firing alerts in the entry. -/
theorem firing_logged (ht : Truthful i gkey s)
    (hp : Permitted i gkey s (.exec ctx env flushNow alerts)) {w : World} {alerts' : List Alert}
    (hexec : s.exec i ctx env flushNow alerts = some (w, .ok alerts')) {a : Alert}
    (ha : a ∈ (AggrGroup.copies flushNow alerts).1) (hend : a.endsAt = 0) :
    ∃ e, w.log.st.lookup (stateKey gkey i.recv) = some e ∧
      hashAlert a ∈ e.entry.firingAlerts := by
  have hfiring := (mem_firing (status_of_permitted hp).1).mpr ⟨a, ha, hend, rfl⟩
  cases executed hexec with
  | failed err hr => cases hr
  | skipped _ hlog _ _ hin =>
    obtain ⟨gkey', e, hkey, hlookup, hmem⟩ := hin _ hfiring
    obtain rfl : gkey' = gkey := Option.some.inj (hkey.symm.trans hp.1)
    exact ⟨e, by rw [hlog]; exact hlookup, hmem⟩
  | logged gkey' repeatInterval store bs _ hkey hrepeat _ hlog _ _ =>
    obtain rfl : gkey' = gkey := Option.some.inj (hkey.symm.trans hp.1)
    exact ⟨_, lookup_of_logged ht hp hrepeat hlog, hfiring⟩

/-- In every run from a log without an entry for the group, the firing hashes of the
stored entry belong to alerts that a successful `Notify` call has carried as firing,
and an execution without an error leaves the hashes of all its firing alerts in the
stored entry. -/
theorem log_tells_what_was_sent {s₀ : State} {ops : List Op}
    (hinit : s₀.log.st.lookup (stateKey gkey i.recv) = none)
    (hrun : Run (Fires (Permitted i gkey) (nextState i)) s₀ ops s) :
    (∀ e, s.log.st.lookup (stateKey gkey i.recv) = some e →
      ∀ h ∈ e.entry.firingAlerts, Sent s.notified h) ∧
    ∀ ctx env flushNow alerts w alerts',
      Permitted i gkey s (.exec ctx env flushNow alerts) →
      s.exec i ctx env flushNow alerts = some (w, .ok alerts') →
      ∀ a ∈ (AggrGroup.copies flushNow alerts).1, a.endsAt = 0 →
        ∃ e, w.log.st.lookup (stateKey gkey i.recv) = some e ∧
          hashAlert a ∈ e.entry.firingAlerts := by
  have ht := truthful_run hinit hrun
  exact ⟨fun e he => (ht e he).2, fun ctx env flushNow alerts w alerts' hp hexec a ha hend =>
    firing_logged ht hp hexec ha hend⟩

end

section
attribute [local instance] fnvXXHash Nflog.zeroProto

/-- The alerts are flushed at 10, sent at the second try and logged; the log is
collected at 40. -/
def sentRun : List Op :=
  [.exec (flushContext 10) secondTry 10 [diskFull "a" 0, diskFull "b" 5],
    .gc 40 [stateKey (str "g") pager.recv]]

/-- After the collection the entry is there, and its firing alerts were sent. -/
theorem log_tells_what_was_sent_collected :
    let s := sentRun.foldl (nextState pager) ⟨emptyLog, [], 0⟩
    ∃ e, s.log.st.lookup (stateKey (str "g") pager.recv) = some e ∧
      ∀ h ∈ e.entry.firingAlerts, Sent s.notified h := by
  intro s
  have hrun : Run (Fires (Permitted pager (str "g")) (nextState pager)) ⟨emptyLog, [], 0⟩
      sentRun s := Run.of_feasible (by decide +kernel)
  obtain ⟨e, he⟩ : ∃ e, s.log.st.lookup (stateKey (str "g") pager.recv) = some e :=
    Option.isSome_iff_exists.mp (by decide +kernel)
  exact ⟨e, he, (log_tells_what_was_sent rfl hrun).1 e he⟩

end

end Alertmanager.Notify
