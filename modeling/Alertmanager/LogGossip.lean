import Alertmanager.NotificationLog
import Alertmanager.Runs

/-!
# Gossip of the notification log

Nodes that start from one log write entries of their own and merge the broadcasts of
the others, in any order and with any repetitions. On each node both are writes to a
map in which the younger value wins, although `Log` decides by another rule than
`Merge` whether to write: it gives up before a newer entry, and then broadcasts
nothing. The map is indexed by strings that group key and receiver do not always
determine, so the nodes agree only if no two entries of one time stamp clash there.
-/
namespace Alertmanager.LogGossip

open Nflog (Receiver Entry MeshEntry StoreData Payload Log)

variable {ι : Type*} {st₀ : GoMap GoString MeshEntry}

/-- The nodes and the broadcasts so far. `accepted` records the entries that a call of
`Log` has accepted, `known` those that a node has written or received. -/
structure Cluster (ι : Type*) where
  nodes : ι → Log
  broadcasts : List Payload
  accepted : List MeshEntry
  known : ι → List MeshEntry

/-- The arguments of a call of `Log`, and the readings of the clock. -/
structure LogCall where
  receiver : Receiver
  gkey : GoString
  firing : List UInt64
  resolved : List UInt64
  store : Option StoreData
  expiry : ℤ
  now : ℤ
  mergeNow : ℤ

inductive Op (ι : Type*)
  | log (n : ι) (call : LogCall)
  | merge (n : ι) (p : Payload) (now : ℤ) (order : List GoString)

/-- The entry that a call of `Log` makes. -/
def LogCall.entry (c : LogCall) (l : Log) : MeshEntry :=
  l.newEntry c.receiver c.gkey c.firing c.resolved c.store c.expiry c.now

@[simp] theorem LogCall.key_entry (c : LogCall) (l : Log) :
    (c.entry l).key = Nflog.stateKey c.gkey c.receiver := rfl

@[simp] theorem LogCall.stamp_entry (c : LogCall) (l : Log) : (c.entry l).stamp = c.now := rfl

/-- The entries that a payload is decoded to, in visiting order. -/
def decoded (p : Payload) (order : List GoString) : List MeshEntry :=
  match Nflog.decodeState p with
  | .error _ => []
  | .ok st => order.filterMap st.lookup

section
variable [DecidableEq ι]

/-- A node has made a step: its log after it, the broadcasts, the entries that were
accepted, and those that the node knows from now on. -/
def Cluster.wrote (s : Cluster ι) (n : ι) (l : Log) (bs : List Payload)
    (accepted known : List MeshEntry) : Cluster ι where
  nodes := Function.update s.nodes n l
  broadcasts := s.broadcasts ++ bs
  accepted := s.accepted ++ accepted
  known := Function.update s.known n (s.known n ++ known)

def next [Nflog.Proto] (s : Cluster ι) : Op ι → Cluster ι
  | .log n c =>
    match (s.nodes n).log c.receiver c.gkey c.firing c.resolved c.store c.expiry c.now
      c.mergeNow with
    | .error _ | .ok (_, []) => s
    | .ok (l, b :: bs) => s.wrote n l (b :: bs) [c.entry (s.nodes n)] [c.entry (s.nodes n)]
  | .merge n p now order =>
    let r := (s.nodes n).merge p now order
    s.wrote n r.2.1 r.2.2 [] (decoded p order)

end

/-- What is merged has been broadcast, and no entry has expired when it is merged. -/
def Enabled (s : Cluster ι) : Op ι → Prop
  | .log n c => c.mergeNow ≤ (s.nodes n).expiresAt c.now c.expiry
  | .merge _ p now order => p ∈ s.broadcasts ∧
      (∀ st, Nflog.decodeState p = .ok st → GoMap.Ranges st order) ∧
      ∀ e ∈ decoded p order, now ≤ asTime e.expiresAt

instance (s : Cluster ι) : (op : Op ι) → Decidable (Enabled s op)
  | .log n c => inferInstanceAs (Decidable (c.mergeNow ≤ (s.nodes n).expiresAt c.now c.expiry))
  | .merge _ p now order =>
    have : Decidable (∀ st, Nflog.decodeState p = .ok st → GoMap.Ranges st order) :=
      match hdec : Nflog.decodeState p with
      | .error err => isTrue (by simp)
      | .ok st => decidable_of_iff (GoMap.Ranges st order) (by simp)
    inferInstanceAs (Decidable (_ ∧ _ ∧ _))

/-- Nodes with one log, before they have exchanged anything. -/
def init (st : GoMap GoString MeshEntry) (retention : ι → ℤ) : Cluster ι :=
  ⟨fun n => ⟨st, retention n⟩, [], [], fun _ => []⟩

/-! ### Both operations are writes -/

theorem stateMerge_st {st : GoMap GoString MeshEntry} {e : MeshEntry} {now : ℤ}
    (hlive : now ≤ asTime e.expiresAt) :
    (Nflog.stateMerge st e now).1 = LastWriter.write MeshEntry.stamp st e.key e := by
  rw [Nflog.stateMerge, if_neg (by omega)]

theorem mergeLoop_st (p : Payload) {st : GoMap GoString MeshEntry} {now : ℤ}
    {order : List GoString} {l : Log}
    (hlive : ∀ e ∈ order.filterMap st.lookup, now ≤ asTime e.expiresAt) :
    (Log.mergeLoop p st now order l).1.st =
      LastWriter.writes MeshEntry.stamp MeshEntry.key l.st (order.filterMap st.lookup) := by
  induction order generalizing l with
  | nil => rfl
  | cons k order ih =>
    cases he : st.lookup k with
    | none =>
      simp only [List.filterMap_cons, he] at hlive
      simp only [Log.mergeLoop, List.filterMap_cons, he]
      exact ih hlive
    | some e =>
      simp only [List.filterMap_cons, he] at hlive
      simp only [Log.mergeLoop, List.filterMap_cons, he]
      rw [ih fun e' he' => hlive e' (List.mem_cons_of_mem e he'),
        stateMerge_st (hlive e List.mem_cons_self)]
      rfl

theorem merge_st {l : Log} {p : Payload} {now : ℤ} {order : List GoString}
    (hlive : ∀ e ∈ decoded p order, now ≤ asTime e.expiresAt) :
    (l.merge p now order).2.1.st =
      LastWriter.writes MeshEntry.stamp MeshEntry.key l.st (decoded p order) := by
  cases hdec : Nflog.decodeState p with
  | error err => simp [Log.merge, decoded, hdec, LastWriter.writes]
  | ok st =>
    simp only [decoded, hdec] at hlive
    simp only [Log.merge, decoded, hdec]
    exact mergeLoop_st p hlive

/-- `Merge` passes on the payload it was given. -/
theorem mergeLoop_broadcasts {p b : Payload} {st : GoMap GoString MeshEntry} {now : ℤ}
    {order : List GoString} {l : Log} (h : b ∈ (Log.mergeLoop p st now order l).2) : b = p := by
  induction order generalizing l with
  | nil => simp [Log.mergeLoop] at h
  | cons k order ih =>
    cases he : st.lookup k with
    | none =>
      simp only [Log.mergeLoop, he] at h
      exact ih h
    | some e =>
      simp only [Log.mergeLoop, he, List.mem_append] at h
      obtain h | h := h
      · split_ifs at h
        · exact List.mem_singleton.mp h
        · simp at h
      · exact ih h

theorem merge_broadcasts {l : Log} {p b : Payload} {now : ℤ} {order : List GoString}
    (h : b ∈ (l.merge p now order).2.2) : b = p := by
  cases hdec : Nflog.decodeState p with
  | error err => simp [Log.merge, hdec] at h
  | ok st =>
    simp only [Log.merge, hdec] at h
    exact mergeLoop_broadcasts h

/-! ### What the nodes know -/

/-- Each node has under each key the newest entry of those it knows. -/
structure Gossiped [Nflog.Proto] (st₀ : GoMap GoString MeshEntry) (s : Cluster ι) : Prop where
  newest : ∀ n k, LastWriter.Newest MeshEntry.stamp MeshEntry.key st₀ (· ∈ s.known n) k
    ((s.nodes n).st.lookup k)
  known : ∀ n, ∀ e ∈ s.known n, e ∈ s.accepted
  sent : ∀ p ∈ s.broadcasts, ∃ e ∈ s.accepted, e.marshal = some p
  later : ∀ e ∈ s.accepted, ∀ prev, st₀.lookup e.key = some prev → prev.stamp ≤ e.stamp

theorem gossiped_init [Nflog.Proto] (st₀ : GoMap GoString MeshEntry) (retention : ι → ℤ) :
    Gossiped st₀ (init st₀ retention) where
  newest n k := LastWriter.newest_refl MeshEntry.stamp MeshEntry.key st₀ k
  known := by simp [init]
  sent := by simp [init]
  later := by simp [init]

/-- The node has written or received all entries. -/
def Cluster.Complete (s : Cluster ι) (n : ι) : Prop := ∀ e ∈ s.accepted, e ∈ s.known n

instance (s : Cluster ι) (n : ι) : Decidable (s.Complete n) :=
  inferInstanceAs (Decidable (∀ e ∈ s.accepted, e ∈ s.known n))

theorem Gossiped.newest_accepted [Nflog.Proto] {s : Cluster ι} (hs : Gossiped st₀ s) {n : ι}
    (hn : s.Complete n) (k : GoString) :
    LastWriter.Newest MeshEntry.stamp MeshEntry.key st₀ (· ∈ s.accepted) k
      ((s.nodes n).st.lookup k) := by
  have hC : (· ∈ s.accepted) = (· ∈ s.known n) := by
    funext e
    exact propext ⟨hn e, hs.known n e⟩
  rw [hC]
  exact hs.newest n k

/-! ### Steps and runs -/

section
variable [DecidableEq ι] [Nflog.Proto]

/-- What a step does: nothing, or a node writes the entry that it has accepted, which is
not older than what it had, or the entries of a broadcast. -/
inductive Effect (s : Cluster ι) : Op ι → Cluster ι → Prop
  | refuse {op : Op ι} : Effect s op s
  | accept (n : ι) (c : LogCall) (l : Log) (b : Payload)
      (hb : (c.entry (s.nodes n)).marshal = some b)
      (hst : l.st = LastWriter.writes MeshEntry.stamp MeshEntry.key (s.nodes n).st
        [c.entry (s.nodes n)])
      (hlater : ∀ prev, (s.nodes n).st.lookup (c.entry (s.nodes n)).key = some prev →
        prev.stamp ≤ (c.entry (s.nodes n)).stamp) :
      Effect s (.log n c) (s.wrote n l [b] [c.entry (s.nodes n)] [c.entry (s.nodes n)])
  | receive (n : ι) (p : Payload) (now : ℤ) (order : List GoString) (l : Log) (bs : List Payload)
      (hp : p ∈ s.broadcasts)
      (hst : l.st = LastWriter.writes MeshEntry.stamp MeshEntry.key (s.nodes n).st
        (decoded p order))
      (hbs : ∀ b ∈ bs, b = p) :
      Effect s (.merge n p now order) (s.wrote n l bs [] (decoded p order))

theorem next_effect {s : Cluster ι} {op : Op ι} (h : Enabled s op) : Effect s op (next s op) := by
  cases op with
  | merge n p now order =>
    exact .receive n p now order _ _ h.1 (merge_st h.2.2) fun b hb => merge_broadcasts hb
  | log n c =>
    simp only [next]
    split
    · exact .refuse
    · exact .refuse
    · rename_i l b bs hlog
      have hnewer : ¬ ((s.nodes n).st.lookup (Nflog.stateKey c.gkey c.receiver)).any
          (fun prev => decide (c.now < prev.stamp)) = true := by
        intro hany
        rw [Log.log, if_pos hany] at hlog
        cases hlog
      obtain ⟨-, hnil, -⟩ | ⟨p, hbs, hmarshal, rfl⟩ := Log.log_cases hlog
      · cases hnil
      · obtain ⟨rfl, rfl⟩ := List.cons.inj hbs
        refine .accept n c _ b hmarshal ?_ fun prev hprev => ?_
        · exact stateMerge_st h
        · rw [LogCall.key_entry] at hprev
          rw [hprev] at hnewer
          simpa using hnewer

/-- A node that has written entries, all of them accepted somewhere. -/
theorem Gossiped.wrote {s : Cluster ι} (hs : Gossiped st₀ s) {n : ι} {l : Log} {bs : List Payload}
    {accepted known : List MeshEntry}
    (hst : l.st = LastWriter.writes MeshEntry.stamp MeshEntry.key (s.nodes n).st known)
    (hknown : ∀ e ∈ known, e ∈ s.accepted ++ accepted)
    (hbs : ∀ p ∈ bs, ∃ e ∈ s.accepted ++ accepted, e.marshal = some p)
    (hlater : ∀ e ∈ accepted, ∀ prev, st₀.lookup e.key = some prev → prev.stamp ≤ e.stamp) :
    Gossiped st₀ (s.wrote n l bs accepted known) := by
  refine ⟨fun m k => ?_, fun m e he => ?_, fun p hp => ?_, fun e he => ?_⟩
  · by_cases hm : m = n
    · subst hm
      simp only [Cluster.wrote, Function.update_self, hst]
      exact (hs.newest m k).writes known
    · simp only [Cluster.wrote, Function.update_of_ne hm]
      exact hs.newest m k
  · by_cases hm : m = n
    · subst hm
      simp only [Cluster.wrote, Function.update_self] at he
      obtain he | he := List.mem_append.mp he
      · exact List.mem_append_left _ (hs.known m e he)
      · exact hknown e he
    · simp only [Cluster.wrote, Function.update_of_ne hm] at he
      exact List.mem_append_left _ (hs.known m e he)
  · obtain hp | hp := List.mem_append.mp hp
    · obtain ⟨e, he, hm⟩ := hs.sent p hp
      exact ⟨e, List.mem_append_left _ he, hm⟩
    · exact hbs p hp
  · obtain he | he := List.mem_append.mp he
    · exact hs.later e he
    · exact hlater e he

/-- A broadcast is decoded to nothing but its entry. -/
theorem mem_decoded {e e' : MeshEntry} {p : Payload} {order : List GoString}
    (hp : e.marshal = some p) (he' : e' ∈ decoded p order) : e' = e := by
  cases hdec : Nflog.decodeState p with
  | error err => simp [decoded, hdec] at he'
  | ok st =>
    simp only [decoded, hdec, List.mem_filterMap] at he'
    obtain ⟨k, -, hk⟩ := he'
    rw [Nflog.decodeState_marshal hp hdec, GoMap.lookup_insert_eq] at hk
    split_ifs at hk
    · exact (Option.some.inj hk).symm
    · simp at hk

theorem gossiped_step {s t : Cluster ι} {op : Op ι} (hs : Gossiped st₀ s)
    (h : Fires Enabled next s op t) : Gossiped st₀ t := by
  obtain ⟨hen, rfl⟩ := h
  generalize ht : next s op = t
  have heff := next_effect hen
  rw [ht] at heff
  cases heff with
  | refuse => exact hs
  | accept n c l b hb hst hlater =>
    refine hs.wrote hst (by simp) ?_ ?_
    · intro p hp
      obtain rfl := List.mem_singleton.mp hp
      exact ⟨_, by simp, hb⟩
    · intro e he prev hprev
      obtain rfl := List.mem_singleton.mp he
      -- What the node has under the key now is not older than what it had at first.
      cases hcur : (s.nodes n).st.lookup (c.entry (s.nodes n)).key with
      | none =>
        rw [((hs.newest n _).none hcur).1] at hprev
        cases hprev
      | some cur => exact (((hs.newest n _).newest cur hcur).1 prev hprev).trans (hlater cur hcur)
  | receive n p now order l bs hp hst hbs =>
    obtain ⟨e, he, hmarshal⟩ := hs.sent p hp
    refine hs.wrote hst (fun e' he' => ?_) (fun b hb => ?_) (by simp)
    · rw [mem_decoded hmarshal he']
      exact List.mem_append_left _ he
    · rw [hbs b hb]
      exact ⟨e, List.mem_append_left _ he, hmarshal⟩

theorem Gossiped.run {s : Cluster ι} {retention : ι → ℤ} {ops : List (Op ι)}
    (h : Run (Fires Enabled next) (init st₀ retention) ops s) : Gossiped st₀ s :=
  h.invariant (I := Gossiped st₀) (fun _ _ _ => gossiped_step) (gossiped_init st₀ retention)

theorem stamp_le_step {s t : Cluster ι} {op : Op ι} (h : Fires Enabled next s op t) {n : ι}
    {k : GoString} {prev : MeshEntry} (hprev : (s.nodes n).st.lookup k = some prev) :
    ∃ e, (t.nodes n).st.lookup k = some e ∧ prev.stamp ≤ e.stamp := by
  obtain ⟨hen, rfl⟩ := h
  have hwrote : ∀ {m : ι} {l : Log} {bs : List Payload} {accepted known : List MeshEntry},
      l.st = LastWriter.writes MeshEntry.stamp MeshEntry.key (s.nodes m).st known →
      ∃ e, ((s.wrote m l bs accepted known).nodes n).st.lookup k = some e ∧
        prev.stamp ≤ e.stamp := by
    intro m l bs accepted known hst
    by_cases hm : n = m
    · subst hm
      simp only [Cluster.wrote, Function.update_self, hst]
      exact LastWriter.stamp_le_writes hprev
    · simp only [Cluster.wrote, Function.update_of_ne hm]
      exact ⟨prev, hprev, le_rfl⟩
  have heff := next_effect hen
  generalize next s op = t at heff
  cases heff with
  | refuse => exact ⟨prev, hprev, le_rfl⟩
  | accept n' c l b _ hst _ => exact hwrote hst
  | receive n' p now order l bs _ hst _ => exact hwrote hst

theorem stamp_le_run {s t : Cluster ι} {ops : List (Op ι)} (h : Run (Fires Enabled next) s ops t)
    {n : ι} {k : GoString} {prev : MeshEntry} (hprev : (s.nodes n).st.lookup k = some prev) :
    ∃ e, (t.nodes n).st.lookup k = some e ∧ prev.stamp ≤ e.stamp := by
  refine h.invariant (I := fun s => ∃ e, (s.nodes n).st.lookup k = some e ∧ prev.stamp ≤ e.stamp)
    (fun s op t hs hstep => ?_) ⟨prev, hprev, le_rfl⟩
  obtain ⟨e, he, hle⟩ := hs
  obtain ⟨e', he', hle'⟩ := stamp_le_step hstep he
  exact ⟨e', he', hle.trans hle'⟩

end

/-! ### Entries that clash -/

/-- Every entry of a log is under its own key. -/
def Keyed (st : GoMap GoString MeshEntry) : Prop := ∀ k e, st.lookup k = some e → e.key = k

/-- The entries of the first log and those that were accepted since. -/
def Cluster.Entries (st₀ : GoMap GoString MeshEntry) (s : Cluster ι) (e : MeshEntry) : Prop :=
  e ∈ s.accepted ∨ ∃ k, st₀.lookup k = some e

/-- No two entries with the same group key and receiver have the same time stamp. -/
def Cluster.Distinct (st₀ : GoMap GoString MeshEntry) (s : Cluster ι) : Prop :=
  ∀ a b, s.Entries st₀ a → s.Entries st₀ b → a.entry.groupKey = b.entry.groupKey →
    a.entry.receiver = b.entry.receiver → a.stamp = b.stamp → a = b

theorem keyed_decodeMessages {ws : List Nflog.WireMeshEntry} {st st' : GoMap GoString MeshEntry}
    (hst : Keyed st) (h : Nflog.decodeMessages ws st = .ok st') : Keyed st' := by
  induction ws generalizing st with
  | nil =>
    obtain rfl := Except.ok.inj h
    exact hst
  | cons w ws ih =>
    cases hw : w.toEntry with
    | none => simp [Nflog.decodeMessages, hw] at h
    | some e =>
      simp only [Nflog.decodeMessages, hw] at h
      refine ih (fun k e' hk => ?_) h
      rw [GoMap.lookup_insert_eq] at hk
      split_ifs at hk with heq
      · rw [← Option.some.inj hk, heq]
      · exact hst k e' hk

theorem keyed_decodeState {p : Payload} {st : GoMap GoString MeshEntry}
    (h : Nflog.decodeState p = .ok st) : Keyed st := by
  cases hdec : Nflog.decodeMessages p.messages ∅ with
  | error err => simp [Nflog.decodeState, hdec] at h
  | ok st' =>
    simp only [Nflog.decodeState, hdec] at h
    split_ifs at h
    · obtain rfl := Except.ok.inj h
      exact keyed_decodeMessages (by simp [Keyed]) hdec

/-- Two entries clash: they have one key and one time stamp, but belong to different
groups or receivers. -/
def Clash (a b : MeshEntry) : Prop :=
  a.key = b.key ∧ a.stamp = b.stamp ∧
    (a.entry.groupKey ≠ b.entry.groupKey ∨ a.entry.receiver ≠ b.entry.receiver)

instance (a b : MeshEntry) : Decidable (Clash a b) :=
  inferInstanceAs (Decidable (a.key = b.key ∧ a.stamp = b.stamp ∧
    (a.entry.groupKey ≠ b.entry.groupKey ∨ a.entry.receiver ≠ b.entry.receiver)))

/-- The entry that is written clashes neither with one accepted before nor with the one
that the first log has under its key. -/
def Unclashing (st₀ : GoMap GoString MeshEntry) (s : Cluster ι) : Op ι → Prop
  | .log n c => (∀ e ∈ s.accepted, ¬ Clash e (c.entry (s.nodes n))) ∧
      ∀ e ∈ st₀.lookup (c.entry (s.nodes n)).key, ¬ Clash e (c.entry (s.nodes n))
  | .merge .. => True

instance (st₀ : GoMap GoString MeshEntry) (s : Cluster ι) :
    (op : Op ι) → Decidable (Unclashing st₀ s op)
  | .log n c => inferInstanceAs (Decidable
      ((∀ e ∈ s.accepted, ¬ Clash e (c.entry (s.nodes n))) ∧
        ∀ e ∈ st₀.lookup (c.entry (s.nodes n)).key, ¬ Clash e (c.entry (s.nodes n))))
  | .merge .. => isTrue trivial

theorem Clash.symm {a b : MeshEntry} (h : Clash a b) : Clash b a :=
  ⟨h.1.symm, h.2.1.symm, h.2.2.imp Ne.symm Ne.symm⟩

theorem not_clash_self (a : MeshEntry) : ¬ Clash a a := by
  simp [Clash]

def Cluster.Unclashed (st₀ : GoMap GoString MeshEntry) (s : Cluster ι) : Prop :=
  ∀ a b, s.Entries st₀ a → s.Entries st₀ b → ¬ Clash a b

theorem unclashed_init (hkeyed : Keyed st₀) (retention : ι → ℤ) :
    (init st₀ retention).Unclashed st₀ := by
  rintro a b (ha | ⟨k, ha⟩) (hb | ⟨k', hb⟩) hclash
  · simp [init] at ha
  · simp [init] at ha
  · simp [init] at hb
  · have hk : k = k' := by rw [← hkeyed k a ha, hclash.1, hkeyed k' b hb]
    subst hk
    obtain rfl := Option.some.inj (ha.symm.trans hb)
    exact not_clash_self a hclash

/-- Without clashes the keys tell the entries apart. -/
theorem Cluster.Unclashed.eq {s : Cluster ι} (hs : s.Unclashed st₀) (hdistinct : s.Distinct st₀)
    {a b : MeshEntry} (ha : s.Entries st₀ a) (hb : s.Entries st₀ b) (hkey : a.key = b.key)
    (hstamp : a.stamp = b.stamp) : a = b := by
  have hsame := hs a b ha hb
  simp only [Clash, hkey, hstamp, true_and, not_or, not_not] at hsame
  exact hdistinct a b ha hb hsame.1 hsame.2 hstamp

/-- A node that knows all entries has under each key the latest accepted one, and its
first entry only if none was accepted. -/
theorem latest_of_complete [Nflog.Proto] {s : Cluster ι} (hs : Gossiped st₀ s)
    (hun : s.Unclashed st₀) (hkeyed : Keyed st₀) (hdistinct : s.Distinct st₀) {n : ι}
    (hn : s.Complete n) (k : GoString) :
    ((∀ e ∈ s.accepted, e.key ≠ k) ∧ (s.nodes n).st.lookup k = st₀.lookup k) ∨
      ∃ e ∈ s.accepted, e.key = k ∧ (s.nodes n).st.lookup k = some e ∧
        ∀ e' ∈ s.accepted, e'.key = k → e'.stamp ≤ e.stamp := by
  have hnewest := hs.newest_accepted hn k
  cases hcur : (s.nodes n).st.lookup k with
  | none =>
    obtain ⟨hnone, hother⟩ := hnewest.none hcur
    exact Or.inl ⟨hother, hnone.symm⟩
  | some e =>
    have hmax := (hnewest.newest e hcur).2
    obtain hold | ⟨he, hkey, -⟩ := hnewest.origin e hcur
    · by_cases hsome : ∃ e' ∈ s.accepted, e'.key = k
      · -- An entry that was accepted although the first one is as new is the first one.
        obtain ⟨e', he', hkey⟩ := hsome
        have hstamp : e.stamp = e'.stamp :=
          le_antisymm (hs.later e' he' e (hkey ▸ hold)) (hmax e' he' hkey)
        have hsame : e = e' := hun.eq hdistinct (Or.inr ⟨k, hold⟩) (Or.inl he')
          ((hkeyed k e hold).trans hkey.symm) hstamp
        subst hsame
        exact Or.inr ⟨e, he', hkey, rfl, hmax⟩
      · left
        refine ⟨fun e' he' hkey => hsome ⟨e', he', hkey⟩, hold.symm⟩
    · exact Or.inr ⟨e, he, hkey, rfl, hmax⟩

section
variable [DecidableEq ι] [Nflog.Proto]

theorem unclashed_step (hkeyed : Keyed st₀) {s t : Cluster ι} {op : Op ι}
    (hs : s.Unclashed st₀)
    (h : Guarded (Unclashing st₀) (Fires Enabled next) s op t) : t.Unclashed st₀ := by
  obtain ⟨hguard, hen, rfl⟩ := h
  have heff := next_effect hen
  generalize next s op = t at heff
  cases heff with
  | refuse => exact hs
  | receive n p now order l bs _ _ _ =>
    simpa [Cluster.Unclashed, Cluster.Entries, Cluster.wrote] using hs
  | accept n c l b _ _ _ =>
    have hentry : ∀ {e l bs known}, (s.wrote n l bs [c.entry (s.nodes n)] known).Entries st₀ e →
        s.Entries st₀ e ∨ e = c.entry (s.nodes n) := by
      rintro e l bs known (he | he)
      · obtain he | he := List.mem_append.mp he
        · exact Or.inl (Or.inl he)
        · exact Or.inr (List.mem_singleton.mp he)
      · exact Or.inl (Or.inr he)
    have hnew : ∀ e, s.Entries st₀ e → ¬ Clash e (c.entry (s.nodes n)) := by
      rintro e (he | ⟨k, he⟩) hclash
      · exact hguard.1 e he hclash
      · obtain rfl := hkeyed k e he
        exact hguard.2 e (hclash.1 ▸ he) hclash
    intro a b ha hb hclash
    obtain ha | rfl := hentry ha
    · obtain hb | rfl := hentry hb
      · exact hs a b ha hb hclash
      · exact hnew a ha hclash
    · obtain hb | rfl := hentry hb
      · exact hnew b hb hclash.symm
      · exact not_clash_self _ hclash

/-- Gossip of the notification log converges if no entries clash: nodes that know all
accepted entries have the same log, under each key the accepted entry with the latest
time stamp. In any case no node ever lowers the time stamp under a key. -/
theorem log_gossip_converges (hkeyed : Keyed st₀) {retention : ι → ℤ} {ops : List (Op ι)}
    {s : Cluster ι}
    (h : Run (Guarded (Unclashing st₀) (Fires Enabled next)) (init st₀ retention) ops s)
    (hdistinct : s.Distinct st₀) :
    (∀ n m, s.Complete n → s.Complete m → (s.nodes n).st = (s.nodes m).st) ∧
    (∀ n, s.Complete n → ∀ k,
      ((∀ e ∈ s.accepted, e.key ≠ k) ∧ (s.nodes n).st.lookup k = st₀.lookup k) ∨
        ∃ e ∈ s.accepted, e.key = k ∧ (s.nodes n).st.lookup k = some e ∧
          ∀ e' ∈ s.accepted, e'.key = k → e'.stamp ≤ e.stamp) ∧
    ∀ (t u : Cluster ι) (ops' : List (Op ι)), Run (Fires Enabled next) t ops' u →
      ∀ n k prev, (t.nodes n).st.lookup k = some prev →
        ∃ e, (u.nodes n).st.lookup k = some e ∧ prev.stamp ≤ e.stamp := by
  have hs : Gossiped st₀ s := .run (h.mono fun _ _ _ hstep => hstep.2)
  have hun : s.Unclashed st₀ :=
    h.invariant (I := Cluster.Unclashed st₀) (fun _ _ _ => unclashed_step hkeyed)
      (unclashed_init hkeyed retention)
  refine ⟨fun n m hn hm => ?_, fun n hn k => ?_, fun t u ops' hrun n k prev hprev => ?_⟩
  · refine Finmap.ext_lookup fun k => ?_
    refine (hs.newest_accepted hn k).unique ?_ (hs.newest_accepted hm k)
    intro a b ha hb hkey hstamp
    exact hun.eq hdistinct (Or.inl ha) (Or.inl hb) hkey hstamp
  · exact latest_of_complete hs hun hkeyed hdistinct hn k
  · exact stamp_le_run hrun hprev

end

section
attribute [local instance] Nflog.zeroProto

def webhook (name : String) : Receiver := ⟨str name, str "webhook", 0⟩

/-- A call that logs one firing alert. -/
def logAt (now : ℤ) (gkey name : String) (firing : UInt64) : LogCall :=
  ⟨webhook name, str gkey, [firing], [], none, 0, now, now⟩

/-- The broadcast of a call on a node with a retention of 100. -/
def broadcastOf (c : LogCall) : Payload :=
  ⟨[(c.entry ⟨∅, 100⟩).toWire], true, 1⟩

/-- Both nodes start with the entry that was logged at time 1. -/
def loggedBefore : GoMap GoString MeshEntry :=
  (∅ : GoMap GoString MeshEntry).insert (Nflog.stateKey (str "g") (webhook "r"))
    ((logAt 1 "g" "r" 1).entry ⟨∅, 100⟩)

/-- The nodes log at different times, and each receives the entry of the other. -/
def crossingRun : List (Op Bool) :=
  let key := Nflog.stateKey (str "g") (webhook "r")
  [.log false (logAt 20 "g" "r" 3), .log true (logAt 10 "g" "r" 2),
    .merge true (broadcastOf (logAt 20 "g" "r" 3)) 21 [key],
    .merge false (broadcastOf (logAt 10 "g" "r" 2)) 21 [key]]

theorem log_gossip_converges_crossing :
    let s := crossingRun.foldl next (init loggedBefore fun _ => 100)
    (s.nodes false).st = (s.nodes true).st := by
  intro s
  have hkeyed : Keyed loggedBefore :=
    keyed_decodeState (p := broadcastOf (logAt 1 "g" "r" 1)) rfl
  have hrun : Run (Guarded (Unclashing loggedBefore) (Fires Enabled next))
      (init loggedBefore fun _ => 100) crossingRun s :=
    Run.of_feasible_guarded (by decide +kernel)
  have hdistinct : s.Distinct loggedBefore := by
    have hfirst : ∀ e, (∃ k, loggedBefore.lookup k = some e) →
        e ∈ [(logAt 1 "g" "r" 1).entry ⟨∅, 100⟩] := by
      rintro e ⟨k, hk⟩
      rw [loggedBefore, GoMap.lookup_insert_eq] at hk
      split_ifs at hk
      · simpa using hk.symm
      · simp at hk
    have hall : ∀ a ∈ s.accepted ++ [(logAt 1 "g" "r" 1).entry ⟨∅, 100⟩],
        ∀ b ∈ s.accepted ++ [(logAt 1 "g" "r" 1).entry ⟨∅, 100⟩], a.stamp = b.stamp → a = b := by
      decide +kernel
    intro a b ha hb _ _ hstamp
    exact hall a (List.mem_append.mpr (ha.imp_right (hfirst a)))
      b (List.mem_append.mpr (hb.imp_right (hfirst b))) hstamp
  exact (log_gossip_converges hkeyed hrun hdistinct).1 false true (by decide +kernel)
    (by decide +kernel)

/-- A group of a route without grouping, for a receiver whose name has a colon. -/
def colonCall : LogCall :=
  logAt 10 "\x7b\x7d/\x7bx=\"1\"\x7d:\x7b\x7d" "\x7ba=\"v\"\x7d:n" 1

/-- A group of a route with the same matchers that groups by a label whose name begins
with a brace and a colon. -/
def braceCall : LogCall :=
  logAt 10 "\x7b\x7d/\x7bx=\"1\"\x7d:\x7b\x7d:\x7ba=\"v\"\x7d" "n" 2

/-- The nodes log at the same time, for different groups and receivers. -/
def clashingRun : List (Op Bool) :=
  let key := Nflog.stateKey braceCall.gkey braceCall.receiver
  [.log false colonCall, .log true braceCall, .merge true (broadcastOf colonCall) 11 [key],
    .merge false (broadcastOf braceCall) 11 [key]]

/-- Each node keeps its own entry under the key of both. -/
theorem clashingRun_diverges :
    let s := clashingRun.foldl next (init ∅ fun _ => 100)
    Run (Fires Enabled next) (init ∅ fun _ => 100) clashingRun s ∧ s.Distinct ∅ ∧
    s.Complete false ∧ s.Complete true ∧ (s.nodes false).st ≠ (s.nodes true).st := by
  intro s
  have hdistinct : ∀ a ∈ s.accepted, ∀ b ∈ s.accepted,
      a.entry.groupKey = b.entry.groupKey → a = b := by
    decide +kernel
  refine ⟨Run.of_feasible (by decide +kernel), ?_, by decide +kernel, by decide +kernel,
    by decide +kernel⟩
  intro a b ha hb hgkey _ _
  simp only [Cluster.Entries, Finmap.lookup_empty, reduceCtorEq, exists_false, or_false] at ha hb
  exact hdistinct a ha b hb hgkey

end

end Alertmanager.LogGossip
