import Alertmanager.ClusterRound
import Alertmanager.StaggeredTurns

/-!
# One notification in a round

The waits of `ClusterWaitStage` let the nodes take turns in the order of their names. If
they see the same members and flush the same alerts at about the same time, and if the
peer timeout is longer than sending, logging and gossiping together, then at most one
notification is sent: the nodes simulate participants that take turns, in which a logged
entry is an announcement. A node that has merged one finds nothing to send.
-/
namespace Alertmanager.ClusterRound

open Notify
open Nflog (Log MeshEntry stateKey)

variable {ι : Type*} {G : Group ι}

/-- When the time of a phase must be over. -/
def deadline : Phase → Option ℤ
  | .waiting _ _ due | .retrying _ _ due | .logging _ _ due => some due
  | .idle | .canceled | .returned _ _ => none

/-- The nodes are members under different names. They flush between `start` and
`start + spread`; a turn takes no longer than `turn` and a message no longer than `delay`. -/
structure Synchrony (G : Group ι) where
  members : List GoString
  start : ℤ
  spread : ℤ
  turn : ℤ
  delay : ℤ
  firing : Finset UInt64
  resolved : Finset UInt64
  mem_members : ∀ n, G.name n ∈ members
  name_injective : Function.Injective G.name
  spread_nonneg : 0 ≤ spread
  turn_nonneg : 0 ≤ turn
  delay_nonneg : 0 ≤ delay
  fits : spread + turn + delay < G.peerTimeout
  spread_le : spread ≤ G.repeatInterval

def Synchrony.timing (Y : Synchrony G) : Turns.Timing ι where
  rank n := position Y.members (G.name n)
  start := Y.start
  timeout := G.peerTimeout
  spread := Y.spread
  turn := Y.turn
  delay := Y.delay
  rank_injective _ _ h := Y.name_injective (position_inj (Y.mem_members _) h)
  spread_nonneg := Y.spread_nonneg
  turn_nonneg := Y.turn_nonneg
  delay_nonneg := Y.delay_nonneg
  fits := Y.fits

/-- The entry outlasts the round. -/
def Synchrony.Lasting (Y : Synchrony G) (t : ℤ) : Prop :=
  ∀ n, Y.timing.first n + Y.spread + Y.turn < t

section
variable [DecidableEq ι] [XXHash] [Nflog.Proto]

/-- The node can log its alerts, in a message that can be decoded. -/
def logs (T : Target) (t : ℤ) (l : Log) : Phase → Bool
  | .logging ctx alerts _ =>
    match setNotifiesStage T.integration t t ⟨ctx, l, [], []⟩ alerts with
    | some (w, .ok _) => w.broadcasts.all fun p => (Nflog.decodeState p).isOk
    | _ => false
  | _ => false

/-- The steps of a round in time. What is logged can be read by the others and does not
expire in the round. -/
def Timely (Y : Synchrony G) (s : State ι) : Op ι → Prop
  | .tick d =>
    (∀ n, ∀ due ∈ deadline (s.phase n), s.time + d ≤ due + Y.turn) ∧
      ∀ b ∈ s.broadcasts, ∀ n, b.1 ∉ s.merged n → s.time + d ≤ b.2.1 + Y.delay
  | .flush _ _ members alerts =>
    Y.start ≤ s.time ∧ s.time ≤ Y.start + Y.spread ∧ members.Perm Y.members ∧
      (hashes alerts).1.toFinset = Y.firing ∧ (hashes alerts).2.toFinset = Y.resolved
  | .stage n .setNotifies =>
    Y.Lasting ((s.log n).expiresAt s.time (2 * G.repeatInterval)) ∧
      logs G.toTarget s.time (s.log n) (s.phase n) = true
  | .stage _ .cancel | .stage _ .dedup | .stage _ (.retry _ _) | .merge _ _ _ | .gc _ _ => True

end

/-! ### The turns of the nodes -/

/-- The phase as the others see it. -/
def turnOf : Phase → Turns.Phase
  | .idle => .idle
  | .waiting _ _ due => .waiting due
  | .retrying _ _ due => .working due
  | .logging _ _ due => .succeeded due
  | .canceled | .returned _ _ => .over

@[simp] theorem due_turnOf (p : Phase) : (turnOf p).due = deadline p := by cases p <;> rfl

/-- The nodes as participants; `successes` are those whose `RetryStage` has succeeded. -/
def State.turns (s : State ι) (successes : List ι) : Turns.State ι where
  time := s.time
  phase n := turnOf (s.phase n)
  successes := successes
  announced := s.broadcasts.map fun b => (b.1, b.2.1)
  heard := s.merged

section
variable [XXHash]

/-- An entry of this round. -/
structure Fresh (Y : Synchrony G) (e : MeshEntry) : Prop where
  start : Y.start ≤ e.stamp
  firing : e.entry.firingAlerts.toFinset = Y.firing
  resolved : e.entry.resolvedAlerts.toFinset = Y.resolved
  expires : Y.Lasting (asTime e.expiresAt)

/-- The alerts of a phase are those of the round. -/
def Agrees (Y : Synchrony G) : Phase → Prop
  | .waiting ctx alerts _ =>
    (∃ now ≤ Y.start + Y.spread, ctx = G.context now) ∧
      (hashes alerts).1.toFinset = Y.firing ∧ (hashes alerts).2.toFinset = Y.resolved
  | .retrying _ alerts _ | .logging _ alerts _ =>
    (hashes alerts).1.toFinset = Y.firing ∧ (hashes alerts).2.toFinset = Y.resolved
  | .idle | .canceled | .returned _ _ => True

variable [Nflog.Proto]

/-- The node can still come to its decision. -/
def Pending (Y : Synchrony G) (t : ℤ) : Phase → Prop
  | .idle => t ≤ Y.start + Y.spread
  | .waiting _ _ _ => True
  | .retrying _ _ _ | .logging _ _ _ | .canceled | .returned _ _ => False

/-- What the logs have for the group is from before the round or about its alerts, and a
node that has merged a message before its decision has an entry of the round. -/
structure Coherent (Y : Synchrony G) (s : State ι) : Prop where
  staged : ∀ n, (s.phase n).Staged G.toTarget s.time
  agrees : ∀ n, Agrees Y (s.phase n)
  entry : ∀ n e, (s.log n).st.lookup G.key = some e →
    e.stamp ≤ s.time ∧ (e.stamp < Y.start ∨ Fresh Y e)
  message : ∀ b ∈ s.broadcasts, ∃ e : MeshEntry, e.key = G.key ∧ e.marshal = some b.2.2 ∧
    e.stamp ≤ s.time ∧ Fresh Y e ∧ ∃ st, Nflog.decodeState b.2.2 = .ok st
  informed : ∀ n, Pending Y s.time (s.phase n) → s.merged n ≠ [] →
    ∃ e, (s.log n).st.lookup G.key = some e ∧ Fresh Y e

variable {Y : Synchrony G} {s s' : State ι} {op : Op ι} {successes : List ι}

omit [XXHash] in
theorem ok_of_logs {T : Target} {t : ℤ} {l : Log} {ctx : Context} {alerts : List Alert} {due : ℤ}
    {w : World} {r : Except StageError (List Alert)}
    (h : logs T t l (.logging ctx alerts due) = true)
    (hr : setNotifiesStage T.integration t t ⟨ctx, l, [], []⟩ alerts = some (w, r)) :
    (∃ as, r = .ok as) ∧ ∀ p ∈ w.broadcasts, ∃ st, Nflog.decodeState p = .ok st := by
  cases r with
  | error err => simp [logs, hr] at h
  | ok as =>
    refine ⟨⟨as, rfl⟩, fun p hp => ?_⟩
    simp only [logs, hr, List.all_eq_true] at h
    cases hdec : Nflog.decodeState p with
    | error err => simpa [hdec, Except.isOk, Except.toBool] using h p hp
    | ok st => exact ⟨st, rfl⟩

/-- Who passes its alerts on has merged nothing. -/
theorem Coherent.merged_eq_nil (hs : Coherent Y s) {n : ι} {ctx : Context} {alerts : List Alert}
    {due : ℤ} (h : s.phase n = .waiting ctx alerts due) {w : World}
    (hr : dedupStage G.integration (fun _ => s.time) s.time ⟨ctx, s.log n, [], []⟩ alerts =
      some (w, .ok alerts)) : s.merged n = [] := by
  by_contra hmerged
  obtain ⟨e, he, hfresh⟩ := hs.informed n (by rw [h]; trivial) hmerged
  have hstaged := hs.staged n
  have hagrees := hs.agrees n
  rw [h] at hstaged hagrees
  obtain ⟨-, hsettled, hne⟩ := hstaged
  obtain ⟨⟨now, hnow, rfl⟩, hfiring, hresolved⟩ := hagrees
  have hkey : G.groupKey ≠ [] := by
    obtain ⟨-, -, -, ⟨err, herr⟩ | ⟨gkey, -, hkey, -, hne, -⟩⟩ := dedupStage_cases hr
    · cases herr
    · rwa [← Option.some.inj hkey] at hne
  have hstamp : now ≤ e.stamp + G.repeatInterval := by
    have := hfresh.start
    have := Y.spread_le
    omega
  obtain ⟨w', hw'⟩ := sendsNothing_of_lookup hkey he rfl rfl rfl G.integration
    ⟨G.context now, s.log n, [], []⟩ (fun _ => s.time) s.time G.repeatInterval alerts rfl rfl rfl
    rfl (by rw [hsettled.partition, hfiring, hfresh.firing])
    (by rw [hsettled.partition, hresolved, hfresh.resolved]) hstamp
  rw [hr] at hw'
  exact hne (Except.ok.inj (Prod.mk.inj (Option.some.inj hw')).2)

variable [DecidableEq ι]

omit [XXHash] [Nflog.Proto] in
theorem turns_enter (s : State ι) (n : ι) (p : Phase) (successes : List ι) :
    (s.enter n p).turns successes = { s.turns successes with
      phase := Function.update (s.turns successes).phase n (turnOf p) } := by
  simp only [State.turns, State.enter, Turns.State.mk.injEq, true_and, and_true]
  funext m
  exact Function.apply_update (fun _ => turnOf) s.phase n p m

omit [XXHash] [Nflog.Proto] in
theorem turns_move (s : State ι) (n : ι) (p : Phase) (notified : List (List Alert))
    (successes : List ι) :
    (s.move n p ⟨s.log n, notified, []⟩).turns successes = (s.enter n p).turns successes := by
  simp [State.turns, State.move, State.enter]

/-- Every step of the nodes in time is a step of the participants, or not visible to them. -/
theorem simulates (hs : Coherent Y s) (hC : Timely Y s op) (h : Step G s op s')
    (hlen : s.notified.length ≤ successes.length) :
    ∃ successes', s'.notified.length ≤ successes'.length ∧
      (s'.turns successes' = s.turns successes ∨
        Turns.Step Y.timing (s.turns successes) (s'.turns successes')) := by
  cases h with
  | tick d hd =>
    refine ⟨successes, hlen, Or.inr (.tick d hd (fun n due hdue => ?_) fun a ha n hn => ?_)⟩
    · exact hC.1 n due (by simpa [State.turns] using hdue)
    · obtain ⟨b, hb, rfl⟩ := List.mem_map.mp ha
      exact hC.2 b hb n hn
  | flush n now members alerts hidle hnow flushNow hflush stored hcopies hne =>
    obtain ⟨hstart, hspread, hperm, -⟩ := hC
    refine ⟨successes, hlen, Or.inr ?_⟩
    rw [turns_enter]
    have hwait : Turns.Step Y.timing (s.turns successes) _ :=
      .wait n (by simp [State.turns, hidle, turnOf]) hstart hspread
    unfold clusterWait
    rw [position_perm hperm]
    exact hwait
  | @stage n op p out h =>
    have hout := h.outcome (hs.staged n)
    have hturn : (s.turns successes).phase n = turnOf (s.phase n) := rfl
    generalize hq : s.phase n = q at hout hturn
    cases hout with
    | stopped hq hp =>
      obtain ⟨ctx, alerts, due, hq⟩ := hq
      have hover : turnOf p = .over := by
        obtain rfl | ⟨alerts, err, rfl⟩ := hp
        · rfl
        · rfl
      refine ⟨successes, by simpa [State.move] using hlen, Or.inr ?_⟩
      rw [turns_move, turns_enter, hover]
      refine .leave n due (hq.imp ?_ ?_)
      · rintro rfl
        exact hturn
      · rintro rfl
        exact hturn
    | @skipped ctx alerts due hfound =>
      refine ⟨successes, by simpa [State.move] using hlen, Or.inr ?_⟩
      rw [turns_move, turns_enter]
      exact .leave n due (Or.inl hturn)
    | @passed ctx ctx' alerts due w hdue hr hready =>
      refine ⟨successes, by simpa [State.move] using hlen, Or.inr ?_⟩
      rw [turns_move, turns_enter]
      exact .work n due hturn hdue (hs.merged_eq_nil hq hr)
    | @sent events mutate ctx ctx' alerts due notified hready hone hsub hsent =>
      refine ⟨successes ++ [n], ?_, Or.inr ?_⟩
      · simp only [State.move, List.length_append, List.length_map, List.length_singleton]
        omega
      · rw [turns_move, turns_enter]
        exact .succeed n due hturn
    | unlogged hr =>
      obtain ⟨⟨as, hok⟩, -⟩ := ok_of_logs (hq ▸ hC.2) hr
      cases hok
    | kept hnewer =>
      -- Nothing in the log is from the future.
      obtain ⟨prev, hprev, hlt⟩ := hnewer
      have := (hs.entry n prev hprev).1
      omega
    | @logged ctx alerts due w e p hr hfor hmarshal hbs hst =>
      refine ⟨successes, by simpa [State.move] using hlen, Or.inr ?_⟩
      have hannounce : Turns.Step Y.timing (s.turns successes) _ := .announce n due hturn
      have hphase := congrArg Turns.State.phase
        (turns_enter s n (.returned alerts (.ok alerts)) successes)
      convert hannounce using 1
      simp only [State.turns, State.move, List.map_append, List.map_cons, List.map_nil,
        List.cons_append, List.nil_append, Turns.State.mk.injEq, and_true]
      exact ⟨rfl, hphase⟩
  | merge n b hb order horder =>
    exact ⟨successes, hlen, Or.inr (.hear n (b.1, b.2.1) (List.mem_map_of_mem hb))⟩
  | gc n order => exact ⟨successes, hlen, Or.inl rfl⟩

omit [XXHash] [Nflog.Proto] [DecidableEq ι] in
theorem Pending.earlier {t t' : ℤ} (ht : t ≤ t') {p : Phase} (h : Pending Y t' p) :
    Pending Y t p := by
  cases p with
  | idle => exact ht.trans h
  | waiting => trivial
  | retrying | logging | canceled | returned => exact h.elim

omit [XXHash] [Nflog.Proto] [DecidableEq ι] in
theorem lt_of_pending (hturns : Turns.Inv Y.timing (s.turns successes)) {n : ι}
    (hn : Pending Y s.time (s.phase n)) {t : ℤ} (ht : Y.Lasting t) : s.time < t := by
  have hlast := ht n
  cases hphase : s.phase n with
  | idle =>
    rw [hphase] at hn
    have hle : s.time ≤ Y.start + Y.spread := hn
    have hstart : Y.start ≤ Y.timing.first n := Y.timing.start_le_first n
    have hturn := Y.turn_nonneg
    omega
  | waiting ctx alerts due =>
    obtain ⟨-, hdue, htime⟩ := hturns.window n due (by simp [State.turns, hphase, deadline])
    have hdue : due ≤ Y.timing.first n + Y.spread := hdue
    have htime : s.time ≤ due + Y.turn := htime
    omega
  | retrying | logging | canceled | returned =>
    rw [hphase] at hn
    exact hn.elim

omit [DecidableEq ι] in
/-- After a step of a stage the alerts are still those of the round, and the node has come to
its decision. -/
theorem agrees_outcome {t : ℤ} {l : Log} {o : StageOp} {p p' : Phase} {out : Output}
    (hp : Agrees Y p) (h : Outcome G.toTarget t l o p p' out) :
    Agrees Y p' ∧ ¬Pending Y t p' := by
  cases h with
  | stopped _ hp' =>
    obtain rfl | ⟨alerts, err, rfl⟩ := hp'
    · exact ⟨trivial, id⟩
    · exact ⟨trivial, id⟩
  | passed => exact ⟨hp.2, id⟩
  | sent => exact ⟨hp, id⟩
  | skipped | unlogged | kept | logged => exact ⟨trivial, id⟩

/-- A log whose entry is old or of the round may take the place of another. -/
theorem Coherent.entry_update (hs : Coherent Y s) (n : ι) {l : Log}
    (hl : ∀ e, l.st.lookup G.key = some e →
      e.stamp ≤ s.time ∧ (e.stamp < Y.start ∨ Fresh Y e)) :
    ∀ m e, (Function.update s.log n l m).st.lookup G.key = some e →
      e.stamp ≤ s.time ∧ (e.stamp < Y.start ∨ Fresh Y e) :=
  (Function.forall_update_iff s.log fun _ (l : Log) => ∀ e, l.st.lookup G.key = some e →
    e.stamp ≤ s.time ∧ (e.stamp < Y.start ∨ Fresh Y e)).mpr ⟨hl, fun m _ => hs.entry m⟩

theorem Coherent.move (hs : Coherent Y s) {n : ι} {p : Phase} {out : Output}
    (hstaged : p.Staged G.toTarget s.time) (hagrees : Agrees Y p) (hp : ¬Pending Y s.time p)
    (hlog : ∀ e, out.log.st.lookup G.key = some e →
      e.stamp ≤ s.time ∧ (e.stamp < Y.start ∨ Fresh Y e))
    (hout : ∀ b ∈ out.broadcasts, ∃ e : MeshEntry, e.key = G.key ∧ e.marshal = some b ∧
      e.stamp ≤ s.time ∧ Fresh Y e ∧ ∃ st, Nflog.decodeState b = .ok st) :
    Coherent Y (s.move n p out) := by
  refine ⟨(Function.forall_update_iff s.phase fun _ q => q.Staged G.toTarget s.time).mpr
      ⟨hstaged, fun m _ => hs.staged m⟩,
    (Function.forall_update_iff s.phase fun _ q => Agrees Y q).mpr
      ⟨hagrees, fun m _ => hs.agrees m⟩,
    hs.entry_update n hlog, fun b hb => ?_, fun m hm hmerged => ?_⟩
  · obtain hb | hb := List.mem_append.mp hb
    · exact hs.message b hb
    · obtain ⟨b', hb', rfl⟩ := List.mem_map.mp hb
      exact hout b' hb'
  · simp only [State.move, State.enter, Function.update_apply] at hm hmerged ⊢
    split_ifs at hm hmerged ⊢
    · exact absurd hm hp
    · exact hs.informed m hm hmerged

omit [XXHash] [DecidableEq ι] in
/-- An entry of the round takes the place of every older one. -/
theorem lookup_merge_fresh {l : Log} {t : ℤ} (hl : ∀ prev, l.st.lookup G.key = some prev →
      prev.stamp < Y.start ∨ Fresh Y prev) {e : MeshEntry} {p : Nflog.Payload}
    (hkey : e.key = G.key) (hmarshal : e.marshal = some p) (hfresh : Fresh Y e)
    (hdec : ∃ st, Nflog.decodeState p = .ok st) {order : List GoString}
    (horder : ∀ st, Nflog.decodeState p = .ok st → GoMap.Ranges st order)
    (ht : t ≤ asTime e.expiresAt) :
    ∃ e', (l.merge p t order).2.1.st.lookup G.key = some e' ∧ Fresh Y e' := by
  obtain ⟨st, hst⟩ := hdec
  by_cases hold : ∃ prev, l.st.lookup G.key = some prev ∧ Fresh Y prev
  · obtain ⟨prev, hprev, hfresh'⟩ := hold
    obtain hsame | ⟨-, hnew⟩ := Log.lookup_merge_cases hmarshal l t order G.key
    · exact ⟨prev, hsame.trans hprev, hfresh'⟩
    · exact ⟨e, hnew, hfresh⟩
  · refine ⟨e, ?_, hfresh⟩
    rw [← hkey]
    refine Log.lookup_merge_marshal hmarshal hst (horder st hst) ht fun prev hprev => ?_
    rw [hkey] at hprev
    obtain hlt | hfresh' := hl prev hprev
    · exact hlt.trans_le hfresh.start
    · exact absurd ⟨prev, hprev, hfresh'⟩ hold

theorem coherent_step (hs : Coherent Y s) (hturns : Turns.Inv Y.timing (s.turns successes))
    (hC : Timely Y s op) (h : Step G s op s') : Coherent Y s' := by
  have hstaged := staged_step hs.staged h
  cases h with
  | tick d hd =>
    refine ⟨hstaged, hs.agrees, fun n e he => ?_, fun b hb => ?_, fun n hn => hs.informed n ?_⟩
    · obtain ⟨hle, hrest⟩ := hs.entry n e he
      exact ⟨hle.trans (by simp only; omega), hrest⟩
    · obtain ⟨e, hkey, hmarshal, hle, hrest⟩ := hs.message b hb
      exact ⟨e, hkey, hmarshal, hle.trans (by simp only; omega), hrest⟩
    · exact hn.earlier (by simp only; omega)
  | flush n now members alerts hidle hnow flushNow hflush stored hcopies hne =>
    obtain ⟨-, hspread, -, hfiring, hresolved⟩ := hC
    refine ⟨hstaged, (Function.forall_update_iff s.phase fun _ q => Agrees Y q).mpr
      ⟨⟨⟨now, hnow.trans hspread, rfl⟩, hfiring, hresolved⟩, fun m _ => hs.agrees m⟩, hs.entry,
      hs.message, fun m hm => hs.informed m ?_⟩
    simp only [State.enter, Function.update_apply] at hm
    split_ifs at hm with hmn
    · rw [hmn, hidle]
      exact hspread
    · exact hm
  | @stage n op p out h =>
    have hout := h.outcome (hs.staged n)
    obtain ⟨hagrees', hpending⟩ := agrees_outcome (hs.agrees n) hout
    suffices h : (∀ e, out.log.st.lookup G.key = some e →
          e.stamp ≤ s.time ∧ (e.stamp < Y.start ∨ Fresh Y e)) ∧
        ∀ b ∈ out.broadcasts, ∃ e : MeshEntry, e.key = G.key ∧ e.marshal = some b ∧
          e.stamp ≤ s.time ∧ Fresh Y e ∧ ∃ st, Nflog.decodeState b = .ok st from
      hs.move (hout.staged (hs.staged n)) hagrees' hpending h.1 h.2
    have hagrees := hs.agrees n
    generalize hq : s.phase n = q at hout hagrees
    cases hout with
    | stopped | skipped | passed | sent | unlogged | kept => exact ⟨hs.entry n, by simp⟩
    | @logged ctx alerts due w e p hr hfor hmarshal hbs hst =>
      obtain ⟨hlasting, hlogs⟩ := hC
      obtain ⟨-, hdec⟩ := ok_of_logs (hq ▸ hlogs) hr
      have hfresh : Fresh Y e := by
        refine ⟨?_, by rw [hfor.firing, hagrees.1], by rw [hfor.resolved, hagrees.2],
          hfor.expiresAt ▸ hlasting⟩
        have hdue := hturns.begun n due (Or.inr (by simp [State.turns, hq, turnOf]))
        have hfirst := (hturns.window n due (by simp [State.turns, hq, deadline])).1
        have hstart := Y.timing.start_le_first n
        rw [hfor.stamp]
        exact hstart.trans (hfirst.trans hdue)
      refine ⟨fun e' he' => ?_, fun b hb => ?_⟩
      · rw [hst] at he'
        obtain hold | ⟨-, hnew⟩ := Nflog.lookup_stateMerge_cases (s.log n).st e s.time G.key
        · exact hs.entry n e' (hold ▸ he')
        · obtain rfl := Option.some.inj (hnew.symm.trans he')
          exact ⟨hfor.stamp.le, Or.inr hfresh⟩
      · obtain rfl := List.mem_singleton.mp hb
        exact ⟨e, hfor.key, hmarshal, hfor.stamp.le, hfresh, hdec _ (hbs ▸ hb)⟩
  | merge n b hb order horder =>
    obtain ⟨e, hkey, hmarshal, hle, hfresh, hdec⟩ := hs.message b hb
    refine ⟨hstaged, hs.agrees, ?_, hs.message, fun m hm hmerged => ?_⟩
    · refine hs.entry_update n fun e' he' => ?_
      obtain hold | ⟨-, hnew⟩ := Log.lookup_merge_cases hmarshal (s.log n) s.time order G.key
      · exact hs.entry n e' (hold ▸ he')
      · obtain rfl := Option.some.inj (hnew.symm.trans he')
        exact ⟨hle, Or.inr hfresh⟩
    · simp only [Function.update_apply] at hmerged ⊢
      split_ifs at hmerged ⊢ with hmn
      · subst hmn
        exact lookup_merge_fresh (fun prev h => (hs.entry m prev h).2) hkey hmarshal hfresh hdec
          horder (lt_of_pending hturns hm hfresh.expires).le
      · exact hs.informed m hm hmerged
  | gc n order =>
    refine ⟨hstaged, hs.agrees, ?_, hs.message, fun m hm hmerged => ?_⟩
    · refine hs.entry_update n fun e' he' => ?_
      exact hs.entry n e' (Nflog.lookup_of_gcLoop s.time order 0 he')
    · obtain ⟨e, he, hfresh⟩ := hs.informed m hm hmerged
      simp only [Function.update_apply]
      split_ifs with hmn
      · subst hmn
        exact ⟨e, Nflog.lookup_gcLoop (lt_of_pending hturns hm hfresh.expires) order he 0, hfresh⟩
      · exact ⟨e, he, hfresh⟩

theorem at_most_one_notification {s₀ : State ι} (hinit : Initial s₀)
    (hlogs : ∀ n e, (s₀.log n).st.lookup G.key = some e →
      e.stamp ≤ s₀.time ∧ e.stamp < Y.start) {ops : List (Op ι)}
    (hrun : Run (Guarded (Timely Y) (Step G)) s₀ ops s) : s.notified.length ≤ 1 := by
  have hinv : Coherent Y s ∧ ∃ successes, s.notified.length ≤ successes.length ∧
      Turns.Inv Y.timing (s.turns successes) := by
    refine hrun.invariant (I := fun s => Coherent Y s ∧ ∃ successes,
      s.notified.length ≤ successes.length ∧ Turns.Inv Y.timing (s.turns successes)) ?_ ?_
    · rintro s op s' ⟨hs, successes, hlen, hturns⟩ ⟨hC, hstep⟩
      obtain ⟨successes', hlen', hsame | hstep'⟩ := simulates hs hC hstep hlen
      · exact ⟨coherent_step hs hturns hC hstep, successes', hlen', hsame ▸ hturns⟩
      · exact ⟨coherent_step hs hturns hC hstep, successes', hlen', Turns.inv_step hturns hstep'⟩
    · refine ⟨⟨fun n => ?_, fun n => ?_, fun n e he => ?_, ?_, fun n _ hn => ?_⟩, [], ?_, ?_⟩
      · rw [hinit.idle n]
        trivial
      · rw [hinit.idle n]
        trivial
      · exact (hlogs n e he).imp_right Or.inl
      · simp [hinit.broadcasts]
      · exact absurd (hinit.merged n) hn
      · simp [hinit.notified]
      · refine Turns.inv_initial ⟨fun n => ?_, rfl, ?_⟩
        · simp [State.turns, hinit.idle n, turnOf]
        · simp [State.turns, hinit.broadcasts]
  obtain ⟨-, successes, hlen, hturns⟩ := hinv
  exact hlen.trans hturns.once

/-- In a round in time at most one notification is sent, by whichever node; and exactly one
if the logs had no entry for the group, once a node that had a firing alert has returned
without an error. -/
theorem one_notification {s₀ : State ι} (hinit : Initial s₀)
    (hlogs : ∀ n e, (s₀.log n).st.lookup G.key = some e →
      e.stamp ≤ s₀.time ∧ e.stamp < Y.start) {ops : List (Op ι)}
    (hrun : Run (Guarded (Timely Y) (Step G)) s₀ ops s) :
    s.notified.length ≤ 1 ∧
      ((∀ n, (s₀.log n).st.lookup G.key = none) → ∀ n alerts rest,
        s.phase n = .returned alerts (.ok rest) → (∃ a ∈ alerts, a.endsAt = 0) →
        s.notified.length = 1) := by
  have hle := at_most_one_notification hinit hlogs hrun
  refine ⟨hle, fun hnone n alerts rest hn ⟨a, ha, hend⟩ => ?_⟩
  have htruth : Truthful G [] s := by
    refine truthful_run hinit (fun n e he => ?_) (hrun.mono fun _ _ _ h => h.2)
    rw [hnone n] at he
    cases he
  obtain ⟨sent, hsent, -⟩ := htruth.sent hn ha hend
  have hpos : 0 < s.notified.length := by
    rw [List.nil_append] at hsent
    simpa using List.length_pos_of_mem hsent
  omega

end

section
attribute [local instance] fnvXXHash Nflog.zeroProto

/-- The two nodes flush at 10, and need no longer than 5 for a turn and 3 for a message. -/
def pagerSynchrony : Synchrony pagerGroup where
  members := [str "a", str "b"]
  start := 10
  spread := 1
  turn := 5
  delay := 3
  firing := (hashes pagedAlerts).1.toFinset
  resolved := (hashes pagedAlerts).2.toFinset
  mem_members := by decide
  name_injective := by decide
  spread_nonneg := by decide
  turn_nonneg := by decide
  delay_nonneg := by decide
  fits := by decide
  spread_le := by decide

theorem lasting_paged : pagerSynchrony.Lasting 110 := by
  unfold Synchrony.Lasting
  decide +kernel

set_option maxRecDepth 4000 in
/-- The round of the two nodes is in time, and only the first sends. -/
theorem paged_once : ∃ s,
    Run (Guarded (Timely pagerSynchrony) (Step pagerGroup)) beforeRound pagerRound s ∧
    s.notified.length = 1 := by
  have hrun : Run (Guarded (Timely pagerSynchrony) (Step pagerGroup)) beforeRound pagerRound _ :=
    .cons ⟨⟨le_rfl, by decide, .swap _ _ _, rfl, rfl⟩,
      .flush false 10 _ _ rfl le_rfl 10 le_rfl pagedAlerts (.refl _) (by simp [pagedAlerts])⟩
    (.cons ⟨⟨le_rfl, by decide, .swap _ _ _, rfl, rfl⟩,
      .flush true 10 _ _ rfl le_rfl 10 le_rfl pagedAlerts (.refl _) (by simp [pagedAlerts])⟩
    (.cons ⟨trivial, .stage false (.dedup (by decide +kernel) rfl)⟩
    (.cons ⟨trivial, .stage false (.retry rfl)⟩
    (.cons ⟨⟨lasting_paged, by decide +kernel⟩, .stage false (.setNotifies rfl)⟩
    (.cons ⟨trivial,
      .merge true (false, 10, pagedMessage) (List.mem_singleton.mpr rfl) _ ranges_paged⟩
    (.cons ⟨by unfold Timely; decide +kernel, .tick 15 (by decide)⟩
    (.cons ⟨trivial, .stage true (.dedup (by decide +kernel) rfl)⟩ (.nil _))))))))
  have hlogs : ∀ n e, (beforeRound.log n).st.lookup pagerGroup.key = some e →
      e.stamp ≤ beforeRound.time ∧ e.stamp < pagerSynchrony.start := by
    intro n e he
    simp [beforeRound, emptyLog] at he
  obtain ⟨-, hone⟩ := one_notification ⟨fun _ => rfl, rfl, rfl, fun _ => rfl⟩ hlogs hrun
  exact ⟨_, hrun, hone (fun _ => rfl) true pagedAlerts [] rfl ⟨_, List.mem_cons_self, rfl⟩⟩

end

end Alertmanager.ClusterRound
