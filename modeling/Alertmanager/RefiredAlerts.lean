import Alertmanager.NotificationTruth

/-!
# Alerts that fire again

An alert that was resolved and fires again is notified again if the stored entry of its
group no longer lists it as firing: then it is not among the alerts that were notified
before. An execution in which the alert is resolved takes it off the entry if it logs,
and it leaves the entry alone only if there is nothing to tell. What there is to tell
depends on the integration: when it does not send resolved alerts and others are still
firing, a resolved alert is nothing to tell, and the entry goes on to list it as firing.
-/
namespace Alertmanager.Notify

open Nflog (Log MeshEntry stateKey)

/-! ### Notify calls are only ever added -/

/-- The stage keeps the record of the `Notify` calls. -/
def Stage.Records (st : Stage) : Prop :=
  ∀ w alerts w' r, st w alerts = some (w', r) → w.notified <+: w'.notified

theorem multiStage_records {stages : List Stage} (h : ∀ st ∈ stages, Stage.Records st) :
    Stage.Records (multiStage stages) := by
  induction stages with
  | nil =>
    intro w alerts w' r hexec
    simp only [multiStage, Option.some.injEq, Prod.mk.injEq] at hexec
    rw [hexec.1]
  | cons st stages ih =>
    intro w alerts w' r hexec
    cases alerts with
    | nil =>
      simp only [multiStage, Option.some.injEq, Prod.mk.injEq] at hexec
      rw [hexec.1]
    | cons a alerts =>
      have hfirst := h st List.mem_cons_self w (a :: alerts)
      have hrest := ih fun st hst => h st (List.mem_cons_of_mem _ hst)
      simp only [multiStage] at hexec
      split at hexec
      · cases hexec
      · rename_i w₁ err hst
        simp only [Option.some.injEq, Prod.mk.injEq] at hexec
        rw [← hexec.1]
        exact hfirst w₁ _ hst
      · rename_i w₁ alerts₁ hst
        exact (hfirst w₁ _ hst).trans (hrest w₁ alerts₁ w' r hexec)

theorem retryStage_records (i : Integration) (clock : ℕ → ℤ) (events : List RetryEvent)
    (mutate : Nflog.StoreData → Nflog.StoreData) :
    Stage.Records (retryStage i clock events mutate) := by
  have hnotify {sent : List Alert} {w w' : World} {alerts : List Alert}
      {r : Except StageError (List Alert)} (h : notify events mutate sent w alerts = some (w', r)) :
      w.notified <+: w'.notified := by
    obtain ⟨-, ⟨-, hnot⟩ | ⟨-, hnot⟩⟩ := notify_keeps h
    · rw [hnot]
    · rw [hnot]
      exact List.prefix_append _ _
  intro w alerts w' r h
  simp only [retryStage] at h
  split_ifs at h
  · exact hnotify h
  · split at h
    · simp only [Option.some.injEq, Prod.mk.injEq] at h
      rw [← h.1]
    · split_ifs at h
      · simp only [Option.some.injEq, Prod.mk.injEq] at h
        rw [← h.1]
      · exact hnotify h

theorem setNotifiesStage_records [Nflog.Proto] (i : Integration) (now mergeNow : ℤ) :
    Stage.Records (setNotifiesStage i now mergeNow) := by
  intro w alerts w' r h
  simp only [setNotifiesStage] at h
  split at h
  all_goals try split at h
  all_goals
    simp only [Option.some.injEq, Prod.mk.injEq] at h
    rw [← h.1]

theorem pipeline_records [XXHash] [Nflog.Proto] (i : Integration) (env : Env) :
    Stage.Records (pipeline i env) := by
  refine multiStage_records fun st hst => ?_
  simp only [List.mem_cons, List.not_mem_nil, or_false] at hst
  obtain rfl | rfl | rfl := hst
  · intro w alerts w' r h
    rw [(dedupStage_cases h).2.2.1]
  · exact retryStage_records _ _ _ _
  · exact setNotifiesStage_records _ _ _

/-! ### Executions that send nothing -/

/-- Nothing is sent about a resolved alert only if it was sent as resolved before, or if
nothing is listed as firing; unless it is not to be sent and others are firing. -/
theorem listed_of_doNotNotify {sendResolved : Bool} {e : Nflog.Entry}
    {firing resolved : Finset UInt64} {repeatInterval now : ℤ}
    (h : (needsUpdate sendResolved (some e) firing resolved repeatInterval now).shouldNotify =
      false)
    (htell : sendResolved = true ∨ firing = ∅) {k : UInt64} (hk : k ∈ resolved) :
    k ∈ e.resolvedAlerts ∨ e.firingAlerts = [] := by
  by_contra hnone
  push Not at hnone
  obtain ⟨hresolved, hfiring⟩ := hnone
  have hlength : 0 < e.firingAlerts.length := List.length_pos_iff.mpr hfiring
  have hsubset : isSubset e.resolvedAlerts resolved = false := by
    rw [Bool.eq_false_iff, ne_eq, isSubset_iff]
    exact fun hall => hresolved (hall k hk)
  simp only [needsUpdate, hlength, hsubset] at h
  split_ifs at h <;> simp_all [NotifyReason.shouldNotify]

theorem doNotNotify_of_skipped [XXHash] [Nflog.Proto] {i : Integration} {env : Env}
    {w w' : World} {a : Alert} {alerts : List Alert}
    (h : pipeline i env w (a :: alerts) = some (w', .ok [])) :
    ∃ gkey repeatInterval, w.ctx.groupKey = some gkey ∧
      (needsUpdate i.sendResolved
        ((w.log.st.lookup (stateKey gkey i.recv)).map MeshEntry.entry)
        (partitionAlertsByState env.partitionClock (a :: alerts)).1.toFinset
        (partitionAlertsByState env.partitionClock (a :: alerts)).2.toFinset repeatInterval
        (w.ctx.now.getD env.dedupNow)).shouldNotify = false := by
  simp only [pipeline, multiStage] at h
  split at h
  · cases h
  · cases h
  · rename_i w₁ alerts₁ hd
    obtain ⟨-, -, -, ⟨err, herr⟩ | ⟨gkey, repeatInterval, hkey, -, -, hw₁, hr⟩⟩ :=
      dedupStage_cases hd
    · cases herr
    refine ⟨gkey, repeatInterval, hkey, ?_⟩
    by_contra hnotify
    rw [if_pos (by simpa using hnotify)] at hr
    obtain rfl := Except.ok.inj hr
    -- the alerts are passed on to the end, or a stage fails
    obtain ⟨-, -, -, err, herr⟩ | ⟨bs, hok, -⟩ := sendAndLog hw₁ h
    · cases herr
    · cases hok

/-! ### The stored entry along a run -/

section
variable [XXHash]

/-- The alerts can be told apart: a list has a label set at most once, and the labels of
an alert can be told from its hash. -/
def Op.Distinct (decode : UInt64 → LabelSet) : Op → Prop
  | .exec _ _ _ alerts =>
    (alerts.map (·.labels)).Nodup ∧ ∀ a ∈ alerts, decode (hashAlert a) = a.labels
  | .gc _ _ => True

instance (decode : UInt64 → LabelSet) : (op : Op) → Decidable (op.Distinct decode)
  | .exec _ _ _ alerts => inferInstanceAs (Decidable
      ((alerts.map (·.labels)).Nodup ∧ ∀ a ∈ alerts, decode (hashAlert a) = a.labels))
  | .gc _ _ => isTrue trivial

variable {decode : UInt64 → LabelSet} {ctx : Context} {env : Env} {flushNow : ℤ}
  {alerts : List Alert}

/-- The same of the copies that a flush passes on. -/
theorem distinct_copies (h : (Op.exec ctx env flushNow alerts).Distinct decode) :
    ((AggrGroup.copies flushNow alerts).1.map (·.labels)).Nodup ∧
      ∀ a ∈ (AggrGroup.copies flushNow alerts).1, decode (hashAlert a) = a.labels := by
  have hlabels (a : Alert) :
      (if a.resolvedAt flushNow then a else { a with endsAt := 0 }).labels = a.labels := by
    split_ifs <;> rfl
  have hhash (a : Alert) :
      hashAlert (if a.resolvedAt flushNow then a else { a with endsAt := 0 }) = hashAlert a := by
    split_ifs <;> rfl
  obtain ⟨hnodup, hdecode⟩ := h
  rw [AggrGroup.copies, List.map_map, List.forall_mem_map]
  refine ⟨?_, fun a ha => ?_⟩
  · exact (List.map_congr_left fun a _ => hlabels a) ▸ hnodup
  · rw [hhash, hlabels]
    exact hdecode a ha

variable [Nflog.Proto] {i : Integration} {gkey : GoString} {s : State}

theorem not_firing_of_resolved (hp : Permitted i gkey s (.exec ctx env flushNow alerts))
    (hd : (Op.exec ctx env flushNow alerts).Distinct decode) {h : UInt64}
    (hres : h ∈ (partitionAlertsByState env.partitionClock
      (AggrGroup.copies flushNow alerts).1).2) :
    h ∉ (partitionAlertsByState env.partitionClock (AggrGroup.copies flushNow alerts).1).1 := by
  obtain ⟨hpart, -⟩ := status_of_permitted hp
  obtain ⟨hnodup, hdecode⟩ := distinct_copies hd
  obtain ⟨a, ha, hend, rfl⟩ := (mem_resolved hpart).mp hres
  intro hfiring
  obtain ⟨b, hb, hend', hhash⟩ := (mem_firing hpart).mp hfiring
  have hlabels : b.labels = a.labels := by rw [← hdecode b hb, hhash, hdecode a ha]
  obtain rfl := List.inj_on_of_nodup_map hnodup hb ha hlabels
  exact hend hend'

theorem notified_next {op : Op} (hp : Permitted i gkey s op) :
    s.notified <+: (nextState i s op).notified := by
  cases op with
  | exec ctx env flushNow alerts =>
    obtain ⟨⟨w, r⟩, hexec⟩ := Option.isSome_iff_exists.mp hp.2.2.2.2.2.2
    simp only [nextState, hexec]
    exact pipeline_records i env _ _ _ _ hexec
  | gc now order => exact List.prefix_refl _

/-- The stored entry lists no alert both as resolved and as firing. -/
def Separate (i : Integration) (gkey : GoString) (s : State) : Prop :=
  ∀ e, s.log.st.lookup (stateKey gkey i.recv) = some e →
    ∀ h ∈ e.entry.resolvedAlerts, h ∉ e.entry.firingAlerts

theorem separate_next {op : Op} (hsep : Separate i gkey s) (ht : Truthful i gkey s)
    (hp : Permitted i gkey s op) (hd : op.Distinct decode) :
    Separate i gkey (nextState i s op) := by
  intro e he
  cases entryStep ht hp with
  | kept hsame _ => exact hsep e (by rw [← hsame]; exact he)
  | written hlookup _ hfiring hresolved _ =>
    obtain rfl := Option.some.inj (hlookup.symm.trans he)
    rw [hfiring, hresolved]
    exact fun h hh => not_firing_of_resolved hp hd hh

/-- The stored entry does not list the alert as firing. -/
def Unlisted (i : Integration) (gkey : GoString) (h : UInt64) (l : Log) : Prop :=
  ∀ e, l.st.lookup (stateKey gkey i.recv) = some e → h ∉ e.entry.firingAlerts

/-- An execution without an error takes a resolved alert off the entry, if it has
something to tell about it. -/
theorem unlisted_of_resolved (ht : Truthful i gkey s) (hsep : Separate i gkey s)
    (hp : Permitted i gkey s (.exec ctx env flushNow alerts))
    (hd : (Op.exec ctx env flushNow alerts).Distinct decode) {w : World} {alerts' : List Alert}
    (hexec : s.exec i ctx env flushNow alerts = some (w, .ok alerts')) {a : Alert}
    (ha : a ∈ (AggrGroup.copies flushNow alerts).1) (hend : a.endsAt ≠ 0)
    (htell : i.sendResolved = true ∨
      (∀ b ∈ (AggrGroup.copies flushNow alerts).1, b.endsAt ≠ 0) ∨ w.notified ≠ s.notified) :
    Unlisted i gkey (hashAlert a) w.log := by
  have hpart := (status_of_permitted hp).1
  have hresolved := (mem_resolved hpart).mpr ⟨a, ha, hend, rfl⟩
  intro e he
  cases executed hexec with
  | failed err hr => cases hr
  | logged gkey' repeatInterval store bs _ hkey hrepeat _ hlog _ _ =>
    obtain rfl : gkey' = gkey := Option.some.inj (hkey.symm.trans hp.1)
    obtain rfl := Option.some.inj ((lookup_of_logged ht hp hrepeat hlog).symm.trans he)
    exact not_firing_of_resolved hp hd hresolved
  | skipped hr hlog _ hnot _ =>
    obtain rfl := Except.ok.inj hr
    rw [hlog] at he
    have hquiet : i.sendResolved = true ∨ (partitionAlertsByState env.partitionClock
        (AggrGroup.copies flushNow alerts).1).1.toFinset = ∅ := by
      obtain hsend | hall | hnotified := htell
      · exact Or.inl hsend
      · refine Or.inr (List.toFinset_eq_empty_iff _ |>.mpr ?_)
        rw [List.eq_nil_iff_forall_not_mem]
        intro h hh
        obtain ⟨b, hb, hfiring, -⟩ := (mem_firing hpart).mp hh
        exact hall b hb hfiring
      · exact absurd hnot hnotified
    rw [State.exec] at hexec
    generalize (AggrGroup.copies flushNow alerts).1 = copies at *
    cases copies with
    | nil => cases ha
    | cons b copies =>
      obtain ⟨gkey', repeatInterval, hkey, hskip⟩ := doNotNotify_of_skipped hexec
      obtain rfl : gkey' = gkey := Option.some.inj (hkey.symm.trans hp.1)
      rw [show s.log.st.lookup (stateKey gkey' i.recv) = some e from he] at hskip
      obtain hin | hempty :=
        listed_of_doNotNotify hskip hquiet (List.mem_toFinset.mpr hresolved)
      · exact hsep e he _ hin
      · simp [hempty]

/-- A successful `Notify` call after these has carried the alert as firing. -/
def Recalled (before : List (List Alert)) (labels : LabelSet) (s : State) : Prop :=
  ∃ calls, s.notified = before ++ calls ∧
    ∃ sent ∈ calls, ∃ b ∈ sent, b.labels = labels ∧ b.endsAt = 0

/-- As long as it has not been sent again, the alert is not listed as firing. -/
theorem recalled_next {op : Op} {before : List (List Alert)} {h : UInt64}
    (ht : Truthful i gkey s) (hp : Permitted i gkey s op) (hd : op.Distinct decode)
    (hbefore : before <+: s.notified)
    (hs : Unlisted i gkey h s.log ∨ Recalled before (decode h) s) :
    Unlisted i gkey h (nextState i s op).log ∨ Recalled before (decode h) (nextState i s op) := by
  obtain ⟨later, hlater⟩ := notified_next hp
  obtain hun | ⟨calls, hcalls, sent, hsent, hcarried⟩ := hs
  · cases hstep : entryStep ht hp with
    | kept hsame _ => exact Or.inl fun e he => hun e (by rw [← hsame]; exact he)
    | @written ctx env flushNow alerts t e hlookup _ hfiring _ hnot =>
      by_cases hh : h ∈ e.entry.firingAlerts
      · rw [hfiring] at hh
        obtain ⟨b, hb, hend, rfl⟩ := (mem_firing (status_of_permitted hp).1).mp hh
        obtain ⟨sent, hsent, hmem⟩ := sent_of_mem hp hb hend
        obtain ⟨earlier, hearlier⟩ := hbefore
        refine Or.inr ⟨earlier ++ _, ?_, sent, List.mem_append_right _ hsent, b, hmem,
          ((distinct_copies hd).2 b hb).symm, hend⟩
        rw [hnot, ← hearlier, List.append_assoc]
      · refine Or.inl fun e' he' => ?_
        obtain rfl := Option.some.inj (hlookup.symm.trans he')
        exact hh
  · exact Or.inr ⟨calls ++ later, by rw [← hlater, hcalls, List.append_assoc], sent,
      List.mem_append_left _ hsent, hcarried⟩

/-- The steps of a run in which the alerts can be told apart. -/
def DistinctStep (i : Integration) (gkey : GoString) (decode : UInt64 → LabelSet) :
    State → Op → State → Prop :=
  Guarded (fun _ op => op.Distinct decode) (Fires (Permitted i gkey) (nextState i))

theorem separate_run {s₀ : State} {ops : List Op}
    (hinit : s₀.log.st.lookup (stateKey gkey i.recv) = none)
    (hrun : Run (DistinctStep i gkey decode) s₀ ops s) :
    Truthful i gkey s ∧ Separate i gkey s := by
  refine hrun.invariant (I := fun s => Truthful i gkey s ∧ Separate i gkey s) ?_
    ⟨fun e he => ?_, fun e he => ?_⟩
  · rintro s op t ⟨ht, hsep⟩ ⟨hd, hp, rfl⟩
    exact ⟨truthful_next ht hp, separate_next hsep ht hp hd⟩
  · cases hinit.symm.trans he
  · cases hinit.symm.trans he

/-- In every run from a log without an entry for the group, an alert that was resolved in
an execution without an error and fires in a later one is carried as firing by a `Notify`
call that succeeds after the first execution and not after the second, if the first one
had something to tell: if the integration sends resolved alerts, or no alert was firing,
or a notification was sent. -/
theorem refired_alert_notified {s₀ s₁ t₁ s₂ t₂ : State} {ops₁ ops₂ : List Op}
    {ctx₁ ctx₂ : Context} {env₁ env₂ : Env} {now₁ now₂ : ℤ} {alerts₁ alerts₂ : List Alert}
    {w₁ w₂ : World} {out₁ out₂ : List Alert} {a b : Alert}
    (hinit : s₀.log.st.lookup (stateKey gkey i.recv) = none)
    (hrun₁ : Run (DistinctStep i gkey decode) s₀ ops₁ s₁)
    (hstep₁ : DistinctStep i gkey decode s₁ (.exec ctx₁ env₁ now₁ alerts₁) t₁)
    (hok₁ : s₁.exec i ctx₁ env₁ now₁ alerts₁ = some (w₁, .ok out₁))
    (ha : a ∈ (AggrGroup.copies now₁ alerts₁).1) (hresolved : a.endsAt ≠ 0)
    (htell : i.sendResolved = true ∨
      (∀ c ∈ (AggrGroup.copies now₁ alerts₁).1, c.endsAt ≠ 0) ∨ t₁.notified ≠ s₁.notified)
    (hrun₂ : Run (DistinctStep i gkey decode) t₁ ops₂ s₂)
    (hstep₂ : DistinctStep i gkey decode s₂ (.exec ctx₂ env₂ now₂ alerts₂) t₂)
    (hok₂ : s₂.exec i ctx₂ env₂ now₂ alerts₂ = some (w₂, .ok out₂))
    (hb : b ∈ (AggrGroup.copies now₂ alerts₂).1) (hfiring : b.endsAt = 0)
    (hlabels : b.labels = a.labels) : Recalled t₁.notified a.labels t₂ := by
  obtain ⟨hd₁, hp₁, hnext₁⟩ := hstep₁
  obtain ⟨hd₂, hp₂, hnext₂⟩ := hstep₂
  have ht₁ : t₁ = ⟨w₁.log, w₁.notified, env₁.mergeNow⟩ := by simp only [hnext₁, nextState, hok₁]
  have ht₂ : t₂ = ⟨w₂.log, w₂.notified, env₂.mergeNow⟩ := by simp only [hnext₂, nextState, hok₂]
  obtain ⟨htruth, hsep⟩ := separate_run hinit hrun₁
  have hdecode : decode (hashAlert a) = a.labels := (distinct_copies hd₁).2 a ha
  have hunlisted : Unlisted i gkey (hashAlert a) t₁.log := by
    rw [ht₁] at htell ⊢
    exact unlisted_of_resolved htruth hsep hp₁ hd₁ hok₁ ha hresolved htell
  have hkept : Truthful i gkey s₂ ∧ t₁.notified <+: s₂.notified ∧
      (Unlisted i gkey (hashAlert a) s₂.log ∨ Recalled t₁.notified a.labels s₂) := by
    refine hrun₂.invariant (I := fun s => Truthful i gkey s ∧ t₁.notified <+: s.notified ∧
      (Unlisted i gkey (hashAlert a) s.log ∨ Recalled t₁.notified a.labels s)) ?_
      ⟨hnext₁ ▸ truthful_next htruth hp₁, List.prefix_refl _, Or.inl hunlisted⟩
    rintro s op t ⟨ht, hbefore, hs⟩ ⟨hd, hp, rfl⟩
    refine ⟨truthful_next ht hp, hbefore.trans (notified_next hp), ?_⟩
    rw [← hdecode] at hs ⊢
    exact recalled_next ht hp hd hbefore hs
  obtain ⟨ht, hbefore, hs⟩ := hkept
  rw [← hdecode] at hs ⊢
  have hend := recalled_next ht hp₂ hd₂ hbefore hs
  rw [← hnext₂] at hend
  -- the second execution leaves the alert in the entry
  obtain hun | hrecalled := hend
  · obtain ⟨e, he, hmem⟩ := firing_logged ht hp₂ hok₂ hb hfiring
    have hhash : hashAlert b = hashAlert a := by rw [hashAlert, hashAlert, hlabels]
    rw [ht₂] at hun
    exact absurd (hhash ▸ hmem) (hun e he)
  · exact hrecalled

end

/-! ### Runs -/

/-- The only `Notify` call succeeds. -/
def tryAt (t : ℤ) : Env where
  partitionClock := fun _ => t + 1
  dedupNow := t + 1
  statusClock := fun _ => t + 1
  events := [.tick .success]
  mutate := id
  logNow := t + 2
  mergeNow := t + 3

def flushAt (t : ℤ) (alerts : List Alert) : Op := .exec (flushContext t) (tryAt t) t alerts

section
variable [XXHash] [Nflog.Proto]

def State.succeeds (i : Integration) (s : State) (t : ℤ) (alerts : List Alert) : Bool :=
  (s.exec i (flushContext t) (tryAt t) t alerts).any fun r => r.2.toBool

theorem exec_of_succeeds {i : Integration} {s : State} {t : ℤ} {alerts : List Alert}
    (h : s.succeeds i t alerts = true) :
    ∃ w out, s.exec i (flushContext t) (tryAt t) t alerts = some (w, .ok out) := by
  obtain ⟨⟨w, r⟩, hexec, hok⟩ := Option.any_eq_true _ _ |>.mp h
  cases r with
  | error err => cases hok
  | ok out => exact ⟨w, out, hexec⟩

/-- After some steps there is a flush at 20 in which the alert is resolved, and one at 30 in
which it fires. Both succeed, and no `Notify` call is made after the first. -/
def Missed (i : Integration) (before : List Op) (labels : LabelSet) (first second : List Alert) :
    Prop :=
  let s := before.foldl (nextState i) ⟨emptyLog, [], 0⟩
  let t := nextState i s (flushAt 20 first)
  Feasible (Permitted i (str "g")) (nextState i) ⟨emptyLog, [], 0⟩
    (before ++ [flushAt 20 first, flushAt 30 second]) ∧
  s.succeeds i 20 first = true ∧ t.succeeds i 30 second = true ∧
  (∃ a ∈ (AggrGroup.copies 20 first).1, a.labels = labels ∧ a.endsAt ≠ 0) ∧
  (∃ a ∈ (AggrGroup.copies 30 second).1, a.labels = labels ∧ a.endsAt = 0) ∧
  (nextState i t (flushAt 30 second)).notified = t.notified

instance (i : Integration) (before : List Op) (labels : LabelSet) (first second : List Alert) :
    Decidable (Missed i before labels first second) := by
  unfold Missed
  infer_instance

end

section
attribute [local instance] fnvXXHash Nflog.zeroProto

/-- The labels of the two alerts, by their hashes. -/
def diskLabels (h : UInt64) : LabelSet :=
  if h = hashAlert (diskFull "a" 0) then (diskFull "a" 0).labels else (diskFull "b" 0).labels

/-- Of two firing alerts one is resolved at 20 and fires again at 30. -/
theorem refired_alert_notified_disk :
    let first := [diskFull "a" 15, diskFull "b" 0]
    let second := [diskFull "a" 0, diskFull "b" 0]
    let s := nextState pager ⟨emptyLog, [], 0⟩ (flushAt 10 second)
    let t := nextState pager s (flushAt 20 first)
    Recalled t.notified (diskFull "a" 15).labels (nextState pager t (flushAt 30 second)) := by
  intro first second s t
  have hstep : DistinctStep pager (str "g") diskLabels ⟨emptyLog, [], 0⟩ (flushAt 10 second) s :=
    ⟨by decide +kernel, by decide +kernel, rfl⟩
  have hstep₁ : DistinctStep pager (str "g") diskLabels s (flushAt 20 first) t :=
    ⟨by decide +kernel, by decide +kernel, rfl⟩
  have hstep₂ : DistinctStep pager (str "g") diskLabels t (flushAt 30 second)
      (nextState pager t (flushAt 30 second)) :=
    ⟨by decide +kernel, by decide +kernel, rfl⟩
  obtain ⟨w₁, out₁, hok₁⟩ :=
    exec_of_succeeds (show s.succeeds pager 20 first = true by decide +kernel)
  obtain ⟨w₂, out₂, hok₂⟩ :=
    exec_of_succeeds (show t.succeeds pager 30 second = true by decide +kernel)
  exact refired_alert_notified rfl (.cons hstep (.nil s)) hstep₁ hok₁
    (show diskFull "a" 15 ∈ (AggrGroup.copies 20 first).1 by decide +kernel) (by decide)
    (Or.inl rfl) (.nil t) hstep₂ hok₂
    (show diskFull "a" 0 ∈ (AggrGroup.copies 30 second).1 by decide +kernel) rfl rfl

def quietPager : Integration := { pager with sendResolved := false }

/-- An alert that fires again is not notified again: if resolved alerts are not sent and
another alert was firing all the time; if a list has the alert twice; or if all alerts
have the same hash. -/
theorem refired_alert_missed :
    Missed quietPager [flushAt 10 [diskFull "a" 0, diskFull "b" 0]] (diskFull "a" 0).labels
        [diskFull "a" 15, diskFull "b" 0] [diskFull "a" 0, diskFull "b" 0] ∧
      Missed pager [] (diskFull "a" 0).labels [diskFull "a" 15, diskFull "a" 0]
        [diskFull "a" 0] ∧
      @Missed ⟨fun _ => 0⟩ _ pager [] (diskFull "a" 0).labels
        [diskFull "a" 15, diskFull "b" 0] [diskFull "a" 0, diskFull "b" 0] := by
  refine ⟨?_, ?_, ?_⟩ <;> decide +kernel

end

end Alertmanager.Notify
