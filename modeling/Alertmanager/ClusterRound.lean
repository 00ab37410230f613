import Alertmanager.StagePhases

/-!
# The nodes of a cluster notify for one group

Every node of a cluster has the alerts of a group and runs the stages of an integration for
them: `ClusterWaitStage` until its turn by the position of its name, `DedupStage`,
`RetryStage` and `SetNotifiesStage`. Between the stages time passes, the nodes merge what
the others have logged, and the logs are collected. Messages may be lost, delayed and
repeated, and a node may fail at every stage. Whatever happens, a node that returns without
an error leaves none of its firing alerts unsent: if it has not sent them, another node has.
-/
namespace Alertmanager.ClusterRound

open Notify
open Nflog (Log MeshEntry StoreData stateKey)

/-! ### Waiting for the turn -/

/-- `Peer.Position`: the index of the own name among the sorted names of the members. -/
def position (members : List GoString) (self : GoString) : ℕ :=
  (members.insertionSort (· ≤ ·)).idxOf self

/-- `clusterWait`. -/
def clusterWait (members : List GoString) (self : GoString) (timeout : ℤ) : ℤ :=
  position members self * timeout

/-- The order in which the members are listed does not matter. -/
theorem position_perm {members members' : List GoString} (h : members.Perm members')
    (self : GoString) : position members self = position members' self := by
  have hperm : (members.insertionSort (· ≤ ·)).Perm (members'.insertionSort (· ≤ ·)) :=
    ((List.perm_insertionSort _ _).trans h).trans (List.perm_insertionSort _ _).symm
  unfold position
  rw [hperm.eq_of_pairwise' (List.pairwise_insertionSort _ _) (List.pairwise_insertionSort _ _)]

theorem position_inj {members : List GoString} {self self' : GoString} (hmem : self ∈ members)
    (h : position members self = position members self') : self = self' :=
  (List.idxOf_inj (((List.perm_insertionSort _ _).mem_iff).mpr hmem)).mp h

/-! ### The machine -/

/-- A group, an integration that notifies for it, and the names of the nodes. -/
structure Group (ι : Type*) extends Target where
  name : ι → GoString
  peerTimeout : ℤ

/-- `notified` has the alerts of the `Notify` calls that succeeded, `broadcasts` the messages
with their senders and times, and `merged` whose messages a node has merged. -/
structure State (ι : Type*) where
  time : ℤ
  log : ι → Log
  phase : ι → Phase
  notified : List (ι × List Alert)
  broadcasts : List (ι × ℤ × Nflog.Payload)
  merged : ι → List ι

inductive Op (ι : Type*)
  | tick (d : ℤ)
  | flush (n : ι) (now : ℤ) (members : List GoString) (alerts : List Alert)
  | stage (n : ι) (op : StageOp)
  | merge (n : ι) (b : ι × ℤ × Nflog.Payload) (order : List GoString)
  | gc (n : ι) (order : List GoString)

variable {ι : Type*} {G : Group ι}

section
variable [DecidableEq ι]

def State.enter (s : State ι) (n : ι) (p : Phase) : State ι :=
  { s with phase := Function.update s.phase n p }

/-- A node has made a step of a stage. What it broadcasts it has itself. -/
def State.move (s : State ι) (n : ι) (p : Phase) (out : Output) : State ι :=
  { s.enter n p with
    log := Function.update s.log n out.log
    notified := s.notified ++ out.notified.map fun sent => (n, sent)
    broadcasts := s.broadcasts ++ out.broadcasts.map fun b => (n, s.time, b)
    merged := Function.update s.merged n (out.broadcasts.map (fun _ => n) ++ s.merged n) }

variable [XXHash] [Nflog.Proto]

/-- The steps. What reaches `ClusterWaitStage` are copies that a flush has taken earlier,
those that no earlier stage has muted; without any `MultiStage` returns. -/
inductive Step (G : Group ι) : State ι → Op ι → State ι → Prop
  | tick {s : State ι} (d : ℤ) (hd : 0 ≤ d) : Step G s (.tick d) { s with time := s.time + d }
  | flush {s : State ι} (n : ι) (now : ℤ) (members : List GoString) (alerts : List Alert)
      (hidle : s.phase n = .idle) (hnow : now ≤ s.time) (flushNow : ℤ) (hflush : flushNow ≤ s.time)
      (stored : List Alert) (hcopies : alerts.Sublist (AggrGroup.copies flushNow stored).1)
      (hne : alerts ≠ []) :
      Step G s (.flush n now members alerts) (s.enter n (.waiting (G.context now) alerts
        (s.time + clusterWait members (G.name n) G.peerTimeout)))
  | stage {s : State ι} (n : ι) {op : StageOp} {p : Phase} {out : Output}
      (h : Move G.toTarget s.time (s.log n) op (s.phase n) p out) :
      Step G s (.stage n op) (s.move n p out)
  | merge {s : State ι} (n : ι) (b : ι × ℤ × Nflog.Payload) (hb : b ∈ s.broadcasts)
      (order : List GoString)
      (horder : ∀ st, Nflog.decodeState b.2.2 = .ok st → GoMap.Ranges st order) :
      Step G s (.merge n b order)
        { s with
          log := Function.update s.log n ((s.log n).merge b.2.2 s.time order).2.1
          merged := Function.update s.merged n (b.1 :: s.merged n) }
  | gc {s : State ι} (n : ι) (order : List GoString) :
      Step G s (.gc n order)
        { s with log := Function.update s.log n ((s.log n).gc s.time order).2.1 }

end

/-! ### Runs -/

section
variable [XXHash] [Nflog.Proto] [DecidableEq ι] {s s' : State ι} {op : Op ι}

theorem staged_step (hs : ∀ n, (s.phase n).Staged G.toTarget s.time) (h : Step G s op s') :
    ∀ n, (s'.phase n).Staged G.toTarget s'.time := by
  have henter : ∀ {n : ι} {p : Phase}, p.Staged G.toTarget s.time →
      ∀ m, (Function.update s.phase n p m).Staged G.toTarget s.time := fun hp =>
    (Function.forall_update_iff s.phase fun _ q => q.Staged G.toTarget s.time).mpr
      ⟨hp, fun m _ => hs m⟩
  cases h with
  | tick d hd => exact fun n => (hs n).mono (by simp only; omega)
  | flush n now members alerts hidle hnow flushNow hflush stored hcopies hne =>
    exact henter ⟨⟨now, rfl⟩, (settled_copies hcopies).mono hflush, hne⟩
  | stage n h => exact henter ((h.outcome (hs n)).staged (hs n))
  | merge n b hb order horder => exact hs
  | gc n order => exact hs

/-- An alert with this hash was carried as firing by a `Notify` call, before the round or in
it. -/
def State.Sent (past : List (List Alert)) (s : State ι) (h : UInt64) : Prop :=
  Notify.Sent (past ++ s.notified.map Prod.snd) h

/-- What the nodes and the messages say about sent alerts is true. -/
structure Truthful (G : Group ι) (past : List (List Alert)) (s : State ι) : Prop where
  staged : ∀ n, (s.phase n).Staged G.toTarget s.time
  told : ∀ n, (s.phase n).Told (s.Sent past)
  entry : ∀ n e, (s.log n).st.lookup G.key = some e → ∀ h ∈ e.entry.firingAlerts, s.Sent past h
  message : ∀ b ∈ s.broadcasts, ∃ e : MeshEntry, e.key = G.key ∧ e.marshal = some b.2.2 ∧
    ∀ h ∈ e.entry.firingAlerts, s.Sent past h

theorem Truthful.entry_update {past : List (List Alert)} (hs : Truthful G past s) (n : ι) {l : Log}
    (hl : ∀ e, l.st.lookup G.key = some e → ∀ k ∈ e.entry.firingAlerts, s.Sent past k) :
    ∀ m e, (Function.update s.log n l m).st.lookup G.key = some e →
      ∀ k ∈ e.entry.firingAlerts, s.Sent past k :=
  (Function.forall_update_iff s.log fun _ (l : Log) => ∀ e, l.st.lookup G.key = some e →
    ∀ k ∈ e.entry.firingAlerts, s.Sent past k).mpr ⟨hl, fun m _ => hs.entry m⟩

theorem truthful_step {past : List (List Alert)} (hs : Truthful G past s) (h : Step G s op s') :
    Truthful G past s' := by
  have hstaged := staged_step hs.staged h
  cases h with
  | tick d hd => exact ⟨hstaged, hs.told, hs.entry, hs.message⟩
  | flush n now members alerts hidle hnow flushNow hflush stored hcopies hne =>
    exact ⟨hstaged, (Function.forall_update_iff s.phase fun _ q => q.Told (s.Sent past)).mpr
      ⟨trivial, fun m _ => hs.told m⟩, hs.entry, hs.message⟩
  | @stage n op p out h =>
    obtain ⟨htold, hentry, hmessage⟩ :=
      (h.outcome (hs.staged n)).truthful (hs.told n) (hs.entry n)
    let calls := past ++ (s.notified ++ out.notified.map fun sent => (n, sent)).map Prod.snd
    have hmono : ∀ k, s.Sent past k ∨ Notify.Sent out.notified k → Notify.Sent calls k := by
      rintro k (hk | hk)
      · refine hk.mono ?_
        simp only [calls, List.map_append, ← List.append_assoc]
        exact List.subset_append_left _ _
      · refine hk.mono ?_
        simp only [calls, List.map_append, List.map_map]
        refine List.subset_append_of_subset_right _ (List.subset_append_of_subset_right _ ?_)
        simp [Function.comp_def]
    refine ⟨hstaged, (Function.forall_update_iff s.phase fun _ q => q.Told _).mpr
        ⟨htold.mono hmono, fun m _ => (hs.told m).mono fun k hk => hmono k (Or.inl hk)⟩,
      (Function.forall_update_iff s.log fun _ (l : Log) => ∀ e, l.st.lookup G.key = some e →
        ∀ k ∈ e.entry.firingAlerts, Notify.Sent calls k).mpr
        ⟨fun e he k hk => hmono k (Or.inl (hentry e he k hk)),
          fun m _ e he k hk => hmono k (Or.inl (hs.entry m e he k hk))⟩, fun b hb => ?_⟩
    obtain hb | hb := List.mem_append.mp hb
    · obtain ⟨e, hkey, hmarshal, hfiring⟩ := hs.message b hb
      exact ⟨e, hkey, hmarshal, fun k hk => hmono k (Or.inl (hfiring k hk))⟩
    · obtain ⟨b', hb', rfl⟩ := List.mem_map.mp hb
      obtain ⟨e, hkey, hmarshal, hfiring⟩ := hmessage b' hb'
      exact ⟨e, hkey, hmarshal, fun k hk => hmono k (Or.inl (hfiring k hk))⟩
  | merge n b hb order horder =>
    refine ⟨hstaged, hs.told, hs.entry_update n fun e he => ?_, hs.message⟩
    obtain ⟨e', hkey, hmarshal, hfiring⟩ := hs.message b hb
    obtain hold | ⟨-, hnew⟩ := Log.lookup_merge_cases hmarshal (s.log n) s.time order G.key
    · exact hs.entry n e (hold ▸ he)
    · obtain rfl := Option.some.inj (hnew.symm.trans he)
      exact hfiring
  | gc n order =>
    refine ⟨hstaged, hs.told, hs.entry_update n fun e he => ?_, hs.message⟩
    exact hs.entry n e (Nflog.lookup_of_gcLoop s.time order 0 he)

/-- The state before the nodes run the stages. -/
structure Initial (s : State ι) : Prop where
  idle : ∀ n, s.phase n = .idle
  notified : s.notified = []
  broadcasts : s.broadcasts = []
  merged : ∀ n, s.merged n = []

theorem truthful_run {past : List (List Alert)} {s₀ : State ι} (hinit : Initial s₀)
    (hlogs : ∀ n e, (s₀.log n).st.lookup G.key = some e → ∀ h ∈ e.entry.firingAlerts,
      Notify.Sent past h) {ops : List (Op ι)} (hrun : Run (Step G) s₀ ops s) :
    Truthful G past s := by
  refine hrun.invariant (fun _ _ _ => truthful_step) ⟨fun n => ?_, fun n => ?_, ?_, ?_⟩
  · rw [hinit.idle n]
    trivial
  · rw [hinit.idle n]
    trivial
  · simpa [State.Sent, hinit.notified] using hlogs
  · simp [hinit.broadcasts]

omit [DecidableEq ι] in
theorem Truthful.sent {past : List (List Alert)} (hs : Truthful G past s) {n : ι}
    {alerts rest : List Alert} (hn : s.phase n = .returned alerts (.ok rest)) {a : Alert}
    (ha : a ∈ alerts) (hend : a.endsAt = 0) : s.Sent past (hashAlert a) := by
  have htold := hs.told n
  rw [hn] at htold
  exact htold _ (List.mem_map.mpr ⟨a, List.mem_filter.mpr ⟨ha, decide_eq_true hend⟩, rfl⟩)

/-- The firing alerts of every node that has returned without an error were carried by a
successful `Notify` call of some node, if what the logs said at first was true: whatever was
lost, delayed or repeated, whatever positions the nodes saw and whichever of them failed. -/
theorem notified_of_returned {past : List (List Alert)} {s₀ : State ι} (hinit : Initial s₀)
    (hlogs : ∀ n e, (s₀.log n).st.lookup G.key = some e → ∀ h ∈ e.entry.firingAlerts,
      Notify.Sent past h) {ops : List (Op ι)} (hrun : Run (Step G) s₀ ops s) {n : ι}
    {alerts rest : List Alert} (hn : s.phase n = .returned alerts (.ok rest)) :
    ∀ a ∈ alerts, a.endsAt = 0 → ∃ sent ∈ past ++ s.notified.map Prod.snd, ∃ b ∈ sent,
      b.endsAt = 0 ∧ hashAlert b = hashAlert a :=
  fun _ ha hend => (truthful_run hinit hlogs hrun).sent hn ha hend

end

section
attribute [local instance] fnvXXHash Nflog.zeroProto

/-- Two nodes that send to a pager. -/
def pagerGroup : Group Bool where
  name n := if n then str "b" else str "a"
  integration := pager
  groupKey := str "g"
  repeatInterval := 50
  peerTimeout := 15

def beforeRound : State Bool where
  time := 10
  log _ := emptyLog
  phase _ := .idle
  notified := []
  broadcasts := []
  merged _ := []

def pagedAlerts : List Alert := [diskFull "x" 0, diskFull "y" 5]

/-- The entry that the first node logs at 10, and its message. -/
def pagedEntry : MeshEntry :=
  emptyLog.newEntry pager.recv (str "g") (hashes pagedAlerts).1 (hashes pagedAlerts).2 (some ∅) 100
    10

def pagedMessage : Nflog.Payload := pagedEntry.marshal.getD ⟨[], true, 0⟩

theorem ranges_paged : ∀ st, Nflog.decodeState pagedMessage = .ok st →
    GoMap.Ranges st [pagerGroup.key] := by
  intro st hst
  have hdecoded : st = (Nflog.decodeState pagedMessage).toOption.getD ∅ := by
    rw [hst]
    rfl
  rw [hdecoded]
  decide +kernel

/-- The first node sends and logs; the second waits for 15 and finds the entry. -/
def pagerRound : List (Op Bool) :=
  [.flush false 10 [str "b", str "a"] pagedAlerts, .flush true 10 [str "b", str "a"] pagedAlerts,
    .stage false .dedup, .stage false (.retry [.tick .success] id), .stage false .setNotifies,
    .merge true (false, 10, pagedMessage) [pagerGroup.key], .tick 15, .stage true .dedup]

set_option maxRecDepth 4000 in
/-- The second node returns without sending; the firing alert was sent by the first. -/
theorem paged_by_the_other : ∃ s, Run (Step pagerGroup) beforeRound pagerRound s ∧
    s.phase true = .returned pagedAlerts (.ok []) ∧
    ∃ sent ∈ [] ++ s.notified.map Prod.snd, ∃ b ∈ sent,
      b.endsAt = 0 ∧ hashAlert b = hashAlert (diskFull "x" 0) := by
  have hrun : Run (Step pagerGroup) beforeRound pagerRound _ :=
    .cons (.flush false 10 _ _ rfl le_rfl 10 le_rfl pagedAlerts (.refl _) (by simp [pagedAlerts]))
    (.cons (.flush true 10 _ _ rfl le_rfl 10 le_rfl pagedAlerts (.refl _) (by simp [pagedAlerts]))
    (.cons (.stage false (.dedup (by decide +kernel) rfl))
    (.cons (.stage false (.retry rfl))
    (.cons (.stage false (.setNotifies rfl))
    (.cons (.merge true (false, 10, pagedMessage) (List.mem_singleton.mpr rfl) _ ranges_paged)
    (.cons (.tick 15 (by decide))
    (.cons (.stage true (.dedup (by decide +kernel) rfl)) (.nil _))))))))
  have hn : ∀ n e, (beforeRound.log n).st.lookup pagerGroup.key = some e →
      ∀ h ∈ e.entry.firingAlerts, Notify.Sent [] h := by
    intro n e he
    simp [beforeRound, emptyLog] at he
  exact ⟨_, hrun, rfl, notified_of_returned ⟨fun _ => rfl, rfl, rfl, fun _ => rfl⟩ hn hrun
    (n := true) rfl _ List.mem_cons_self rfl⟩

end

end Alertmanager.ClusterRound
