import Alertmanager.AggrGroups
import Alertmanager.Runs

/-!
# Flushing an aggregation group

`MultiStage` and `FanoutStage` of `notify/notify.go` over any other stages, and the
life of one aggregation group: alerts are inserted while a flush lists the store,
passes copies to the pipeline and, when the pipeline returns without error, deletes
the resolved ones that were not modified since.

A `MultiStage` stops as soon as a stage has left no alerts, and returns without error
then. So a flush may delete an alert that no integration has seen: what holds is that
no stage that was executed has failed, and that the integrations were all executed
unless a stage before them left no alerts.
-/
namespace Alertmanager

/-! ### Pipelines -/

/-- A stage. What a stage other than the two that combine stages does with its alerts
is left open; its error is a list that is empty for nil. -/
inductive Stage (ε : Type)
  | leaf (exec : List Alert → List Alert × List ε)
  | multi (stages : List (Stage ε))
  | fanout (stages : List (Stage ε))

/-- A pipeline that ends with the integrations of a receiver. -/
def Stage.toIntegrations {ε : Type} (before integrations : List (Stage ε)) : Stage ε :=
  .multi (before ++ [.fanout integrations])

/-- A call of `Exec` that has returned. -/
structure Return (ε : Type) where
  stage : Stage ε
  alerts : List Alert
  out : List Alert
  errs : List ε

section
variable {ε : Type}

mutual

/-- `Stage.Exec`: the alerts and the error it returns and the calls it has made. -/
inductive Exec : Stage ε → List Alert → List Alert → List ε → List (Return ε) → Prop
  | leaf (f : List Alert → List Alert × List ε) (alerts : List Alert) :
      Exec (.leaf f) alerts (f alerts).1 (f alerts).2
        [⟨.leaf f, alerts, (f alerts).1, (f alerts).2⟩]
  | multi {stages : List (Stage ε)} {alerts out : List Alert} {errs : List ε}
      {calls : List (Return ε)} :
      ExecEach stages alerts out errs calls →
      Exec (.multi stages) alerts out errs (calls ++ [⟨.multi stages, alerts, out, errs⟩])
  | fanout {stages order : List (Stage ε)} {alerts : List Alert} {errs : List ε}
      {calls : List (Return ε)} :
      order.Perm stages → ExecAll order alerts errs calls →
      Exec (.fanout stages) alerts alerts errs (calls ++ [⟨.fanout stages, alerts, alerts, errs⟩])

/-- The loop of `MultiStage.Exec`. -/
inductive ExecEach : List (Stage ε) → List Alert → List Alert → List ε → List (Return ε) → Prop
  | done (alerts : List Alert) : ExecEach [] alerts alerts [] []
  | empty (s : Stage ε) (ss : List (Stage ε)) : ExecEach (s :: ss) [] [] [] []
  | failed {s : Stage ε} {ss : List (Stage ε)} {alerts out : List Alert} {errs : List ε}
      {calls : List (Return ε)} :
      alerts ≠ [] → Exec s alerts out errs calls → errs ≠ [] →
      ExecEach (s :: ss) alerts [] errs calls
  | next {s : Stage ε} {ss : List (Stage ε)} {alerts mid out : List Alert} {errs : List ε}
      {calls calls' : List (Return ε)} :
      alerts ≠ [] → Exec s alerts mid [] calls → ExecEach ss mid out errs calls' →
      ExecEach (s :: ss) alerts out errs (calls ++ calls')

/-- The branches of `FanoutStage.Exec` in the order in which they join their errors. -/
inductive ExecAll : List (Stage ε) → List Alert → List ε → List (Return ε) → Prop
  | nil (alerts : List Alert) : ExecAll [] alerts [] []
  | cons {s : Stage ε} {ss : List (Stage ε)} {alerts out : List Alert} {errs errs' : List ε}
      {calls calls' : List (Return ε)} :
      Exec s alerts out errs calls → ExecAll ss alerts errs' calls' →
      ExecAll (s :: ss) alerts (errs ++ errs') (calls ++ calls')

end

/-- The call itself is among those that have returned. -/
theorem Exec.self_mem {s : Stage ε} {alerts out : List Alert} {errs : List ε}
    {calls : List (Return ε)} (h : Exec s alerts out errs calls) :
    ⟨s, alerts, out, errs⟩ ∈ calls := by
  cases h with
  | leaf => exact List.mem_singleton_self _
  | multi | fanout => exact List.mem_append_right _ (List.mem_singleton_self _)

/-- What holds of the calls inside and of the call itself holds of all. -/
theorem forall_append_self {P : Return ε → Prop} {calls : List (Return ε)} {r : Return ε}
    (hcalls : ∀ x ∈ calls, P x) (hr : P r) : ∀ x ∈ calls ++ [r], P x := by
  intro x hx
  obtain hx | hx := List.mem_append.mp hx
  · exact hcalls x hx
  · rw [List.mem_singleton.mp hx]
    exact hr

mutual

/-- An error travels up: if a stage returns none, no call inside it has returned one. -/
theorem Exec.clean {s : Stage ε} {alerts out : List Alert} {errs : List ε}
    {calls : List (Return ε)} : Exec s alerts out errs calls → errs = [] →
    ∀ r ∈ calls, r.errs = []
  | .leaf f alerts, herr => by
    intro r hr
    rw [List.mem_singleton.mp hr]
    exact herr
  | .multi h, herr => forall_append_self (h.clean herr) herr
  | .fanout _ h, herr => forall_append_self (h.clean herr) herr

theorem ExecEach.clean {ss : List (Stage ε)} {alerts out : List Alert} {errs : List ε}
    {calls : List (Return ε)} : ExecEach ss alerts out errs calls → errs = [] →
    ∀ r ∈ calls, r.errs = []
  | .done _, _ => by simp
  | .empty _ _, _ => by simp
  | .failed _ _ hne, herr => absurd herr hne
  | .next _ h hrest, herr => by
    intro r hr
    obtain hr | hr := List.mem_append.mp hr
    · exact h.clean rfl r hr
    · exact hrest.clean herr r hr

theorem ExecAll.clean {ss : List (Stage ε)} {alerts : List Alert} {errs : List ε}
    {calls : List (Return ε)} : ExecAll ss alerts errs calls → errs = [] →
    ∀ r ∈ calls, r.errs = []
  | .nil _, _ => by simp
  | .cons h hrest, herr => by
    obtain ⟨herr, herr'⟩ := List.append_eq_nil_iff.mp herr
    intro r hr
    obtain hr | hr := List.mem_append.mp hr
    · exact h.clean herr r hr
    · exact hrest.clean herr' r hr

end

theorem ExecAll.mem {ss : List (Stage ε)} {alerts : List Alert} {errs : List ε}
    {calls : List (Return ε)} (h : ExecAll ss alerts errs calls) {s : Stage ε} (hs : s ∈ ss) :
    ∃ out errs, ⟨s, alerts, out, errs⟩ ∈ calls := by
  induction ss generalizing errs calls with
  | nil => cases hs
  | cons s' ss ih =>
    cases h with
    | cons hfirst hrest =>
      obtain rfl | hs := List.mem_cons.mp hs
      · exact ⟨_, _, List.mem_append_left _ hfirst.self_mem⟩
      · obtain ⟨out, errs, hmem⟩ := ih hrest hs
        exact ⟨out, errs, List.mem_append_right _ hmem⟩

/-- The fan-out at the end is executed unless a stage before it leaves no alerts. -/
theorem ExecEach.reaches {before integrations : List (Stage ε)} {alerts out : List Alert}
    {calls : List (Return ε)}
    (h : ExecEach (before ++ [.fanout integrations]) alerts out [] calls) (hne : alerts ≠ []) :
    (∃ r ∈ calls, r.stage ∈ before ∧ r.out = []) ∨
      ∃ mid, ∀ i ∈ integrations, ∃ out errs, ⟨i, mid, out, errs⟩ ∈ calls := by
  induction before generalizing alerts calls with
  | nil =>
    cases h with
    | empty => exact absurd rfl hne
    | failed _ _ herr => exact absurd rfl herr
    | next _ hfanout _ =>
      cases hfanout with
      | fanout hperm hall =>
        refine Or.inr ⟨alerts, fun i hi => ?_⟩
        obtain ⟨out, errs, hmem⟩ := hall.mem (hperm.mem_iff.mpr hi)
        exact ⟨out, errs, List.mem_append_left _ (List.mem_append_left _ hmem)⟩
  | cons s before ih =>
    cases h with
    | empty => exact absurd rfl hne
    | failed _ _ herr => exact absurd rfl herr
    | @next _ _ _ mid _ _ _ _ _ hfirst hrest =>
      by_cases hmid : mid = []
      · subst hmid
        exact Or.inl ⟨_, List.mem_append_left _ hfirst.self_mem, List.mem_cons_self, rfl⟩
      · obtain ⟨r, hr, hstage, hout⟩ | ⟨mid, hall⟩ := ih hrest hmid
        · exact Or.inl ⟨r, List.mem_append_right _ hr, List.mem_cons_of_mem _ hstage, hout⟩
        · refine Or.inr ⟨mid, fun i hi => ?_⟩
          obtain ⟨out, errs, hmem⟩ := hall i hi
          exact ⟨out, errs, List.mem_append_right _ hmem⟩

theorem Exec.reaches {before integrations : List (Stage ε)} {alerts out : List Alert}
    {calls : List (Return ε)}
    (h : Exec (.toIntegrations before integrations) alerts out [] calls) (hne : alerts ≠ []) :
    (∃ r ∈ calls, r.stage ∈ before ∧ r.out = []) ∨
      ∃ mid, ∀ i ∈ integrations, ∃ out, ⟨i, mid, out, []⟩ ∈ calls := by
  have hclean := h.clean rfl
  cases h with
  | multi heach =>
    obtain ⟨r, hr, hstage, hout⟩ | ⟨mid, hall⟩ := heach.reaches hne
    · exact Or.inl ⟨r, List.mem_append_left _ hr, hstage, hout⟩
    · refine Or.inr ⟨mid, fun i hi => ?_⟩
      obtain ⟨out', errs, hmem⟩ := hall i hi
      have herrs : errs = [] := hclean _ (List.mem_append_left _ hmem)
      exact ⟨out', List.mem_append_left _ (herrs ▸ hmem)⟩

end

/-! ### The life of a group -/

namespace GroupFlush

/-- The group with the histories of its last flush: its clock reading, the alerts it has
passed to the pipeline, the calls that have returned, and the versions inserted since it
listed the store. `inserted` are all versions so far. -/
structure State (ε : Type) where
  ag : AggrGroup
  now : ℤ
  flushed : List Alert
  returned : List (Return ε)
  inserted : List Alert
  since : List Alert

/-- A version is inserted; the loop of the group is started, its timer fires, the flush
lists the store, the pipeline returns, the resolved alerts are deleted, and the loop
looks at the store again; or its context is done. -/
inductive Op (ε : Type)
  | insert (a : Alert)
  | start
  | tick
  | list (now : ℤ) (order : List Fingerprint)
  | notified (out : List Alert) (errs : List ε) (calls : List (Return ε))
  | delete
  | check
  | done

section
variable {ε : Type}

def State.setPC (s : State ε) (pc : RunPC) : State ε := { s with ag := { s.ag with pc := pc } }

def State.stored (s : State ε) (f : Fingerprint) : Option Alert := s.ag.alerts.alerts.lookup f

variable [LabelHash]

def next (s : State ε) : Op ε → State ε
  | .insert a =>
    match s.ag.insert a with
    | some ag => { s with ag := ag, inserted := s.inserted ++ [a], since := s.since ++ [a] }
    | none => s
  | .start => { s with ag := s.ag.started }
  | .tick => s.setPC (if s.ag.alerts.empty then .checking else .listing)
  | .list now order =>
    let r := AggrGroup.copies now (s.ag.alerts.list order)
    { s.setPC (.notifying now r.1 r.2) with
      now := now, flushed := r.1, returned := [], since := [] }
  | .notified _ errs calls =>
    match s.ag.pc with
    | .notifying now _ resolved =>
      { s.setPC (if errs.isEmpty then .deleting now resolved else .checking) with
        returned := calls }
    | _ => s
  | .delete =>
    match s.ag.pc with
    | .deleting _ resolved =>
      { s with ag := { s.ag with
          alerts := s.ag.alerts.deleteIfNotModified resolved true
          pc := .checking } }
    | _ => s
  | .check => s.setPC (if s.ag.alerts.destroyed then .finished else .waiting)
  | .done => s.setPC .finished

/-- When a step is possible for a group with this pipeline. -/
def Enabled (pipeline : Stage ε) (s : State ε) : Op ε → Prop
  | .insert _ => True
  | .start => s.ag.pc = .idle ∧ s.ag.running = false
  | .tick | .done => s.ag.pc = .waiting
  | .list _ order => s.ag.pc = .listing ∧ GoMap.Ranges s.ag.alerts.alerts order
  | .notified out errs calls =>
    ∃ now alerts resolved, s.ag.pc = .notifying now alerts resolved ∧
      Exec pipeline alerts out errs calls
  | .delete => s.ag.pc.isDeleting = true
  | .check => s.ag.pc = .checking

/-- The inserted version is a new one: of its alert no other version has its timestamp. -/
def NewVersion (s : State ε) : Op ε → Prop
  | .insert a => ∀ b ∈ s.inserted, fingerprint b.labels = fingerprint a.labels →
      b.updatedAt ≠ a.updatedAt
  | _ => True

/-- `newAggrGroup` has just made the group. -/
def init [Regexp] (labels : LabelSet) (r : Route) : State ε :=
  ⟨.newAggrGroup labels r, 0, [], [], [], []⟩

/-- The group is well formed, of one alert the versions have different timestamps, and
while a flush is under way its resolved alerts are among those it has passed on and were
not inserted since. When it comes to the deletion, the pipeline has returned no error. -/
structure Inv (pipeline : Stage ε) (s : State ε) : Prop where
  ok : s.ag.Ok (· ∈ s.inserted)
  versions : ∀ a ∈ s.inserted, ∀ b ∈ s.inserted, fingerprint a.labels = fingerprint b.labels →
    a.updatedAt = b.updatedAt → a = b
  marked : ∀ now a, s.ag.pc.Marked now a → now = s.now ∧ a ∈ s.flushed ∧ a ∉ s.since
  notifying : ∀ now alerts resolved, s.ag.pc = .notifying now alerts resolved →
    alerts = s.flushed
  deleting : ∀ now resolved, s.ag.pc = .deleting now resolved →
    ∃ out, Exec pipeline s.flushed out [] s.returned

variable {pipeline : Stage ε} {s : State ε} {op : Op ε}

theorem inv_init [Regexp] (labels : LabelSet) (r : Route) :
    Inv pipeline (init labels r : State ε) where
  ok := .newAggrGroup labels r
  versions a h := by cases h
  marked now a h := h.elim
  notifying now alerts resolved h := by cases h
  deleting now resolved h := by cases h

omit [LabelHash] in
theorem mem_flushed {now : ℤ} {alerts : List Alert} {a : Alert}
    (h : a ∈ (AggrGroup.copies now alerts).2) : a ∈ (AggrGroup.copies now alerts).1 := by
  obtain ⟨ha, hres⟩ := List.mem_filter.mp h
  exact List.mem_map.mpr ⟨a, ha, if_pos hres⟩

/-- The group is not between the listing and the deletion of a flush. -/
theorem Inv.outside (h : Inv pipeline s) (ag : AggrGroup) (hok : ag.Ok (· ∈ s.inserted))
    (hn : ag.pc.isNotifying = false) (hd : ag.pc.isDeleting = false) (calls : List (Return ε)) :
    Inv pipeline { s with ag := ag, returned := calls } where
  ok := hok
  versions := h.versions
  marked now a ha := by
    cases hpc : ag.pc <;> simp_all [RunPC.Marked, RunPC.isNotifying, RunPC.isDeleting]
  notifying now alerts resolved heq := by simp_all [RunPC.isNotifying]
  deleting now resolved heq := by simp_all [RunPC.isDeleting]

theorem Inv.setPC (h : Inv pipeline s) {pc : RunPC} (hn : pc.isNotifying = false)
    (hd : pc.isDeleting = false) : Inv pipeline (s.setPC pc) := by
  refine h.outside { s.ag with pc := pc } (h.ok.touch rfl fun now a ha => ?_) hn hd s.returned
  cases pc <;> simp_all [RunPC.Marked, RunPC.isNotifying, RunPC.isDeleting]

theorem inv_insert (h : Inv pipeline s) {a : Alert} (hnew : NewVersion s (.insert a)) :
    Inv pipeline (next s (.insert a)) := by
  cases hd : s.ag.alerts.destroyed with
  | true =>
    simp only [next, AggrGroup.insert_of_destroyed hd]
    exact h
  | false =>
    simp only [next, AggrGroup.insert_of_live hd h.ok.noLimit]
    refine ⟨?_, ?_, ?_, h.notifying, h.deleting⟩
    · exact (h.ok.mono fun b hb => List.mem_append_left _ hb).withAlert hd
        (List.mem_append_right _ (List.mem_singleton_self a))
    · intro b hb c hc hfp hupd
      simp only [List.mem_append, List.mem_singleton] at hb hc
      obtain hb | rfl := hb
      · obtain hc | rfl := hc
        · exact h.versions b hb c hc hfp hupd
        · exact absurd hupd (hnew b hb hfp)
      · obtain hc | rfl := hc
        · exact absurd hupd.symm (hnew c hc hfp.symm)
        · rfl
    · intro now b hb
      obtain ⟨hnow, hflushed, hsince⟩ := h.marked now b hb
      refine ⟨hnow, hflushed, fun hmem => ?_⟩
      obtain hmem | hmem := List.mem_append.mp hmem
      · exact hsince hmem
      · obtain rfl := List.mem_singleton.mp hmem
        exact hnew b (h.ok.marked now b hb).1 rfl rfl

theorem inv_next (h : Inv pipeline s) (he : Enabled pipeline s op) (hnew : NewVersion s op) :
    Inv pipeline (next s op) := by
  cases op with
  | insert a => exact inv_insert h hnew
  | start => exact h.outside s.ag.started (h.ok.touch rfl fun _ _ ha => ha.elim) rfl rfl s.returned
  | tick | check =>
    simp only [next]
    split_ifs <;> exact h.setPC rfl rfl
  | done => exact h.setPC rfl rfl
  | list now order =>
    refine ⟨h.ok.touch rfl ?_, h.versions, ?_, ?_, fun _ _ heq => (by cases heq)⟩
    · rintro now' a ⟨rfl, ha⟩
      exact Or.inr (AggrGroup.mem_copies ha)
    · rintro now' a ⟨rfl, ha⟩
      exact ⟨rfl, mem_flushed ha, by simp [next]⟩
    · intro now' alerts resolved heq
      cases heq
      rfl
  | notified out errs calls =>
    obtain ⟨now, alerts, resolved, hpc, hexec⟩ := he
    obtain rfl := h.notifying now alerts resolved hpc
    simp only [next, hpc]
    cases errs with
    | cons e es =>
      exact h.outside { s.ag with pc := .checking } (h.ok.touch rfl fun _ _ ha => ha.elim) rfl
        rfl calls
    | nil =>
      refine ⟨h.ok.touch rfl ?_, h.versions, ?_, fun _ _ _ heq => (by cases heq), ?_⟩
      · intro now' a ha
        rw [hpc]
        exact Or.inl ha
      · intro now' a ha
        exact h.marked now' a (by rw [hpc]; exact ha)
      · exact fun _ _ _ => ⟨out, hexec⟩
  | delete =>
    cases hpc : s.ag.pc with
    | deleting now resolved =>
      simp only [next, hpc]
      exact h.outside _ (h.ok.deleteIfNotModified resolved) rfl rfl s.returned
    | _ => simp [Enabled, hpc, RunPC.isDeleting] at he

/-- The stored version of an alert is removed only by the deletion of a flush, and a
version with its timestamp was taken as resolved. -/
theorem delete_of_removed (h : Inv pipeline s) {f : Fingerprint} {b : Alert}
    (hb : s.stored f = some b) (hgone : (next s op).stored f = none) :
    ∃ now resolved, op = .delete ∧ s.ag.pc = .deleting now resolved ∧
      ∃ a ∈ resolved, fingerprint a.labels = f ∧ a.updatedAt = b.updatedAt := by
  have hkept : s.stored f ≠ none := by simp [hb]
  cases op with
  | insert a =>
    cases hd : s.ag.alerts.destroyed with
    | true =>
      simp only [next, AggrGroup.insert_of_destroyed hd] at hgone
      exact absurd hgone hkept
    | false =>
      simp only [next, AggrGroup.insert_of_live hd h.ok.noLimit, State.stored,
        AggrGroup.withAlert, GoMap.lookup_insert_eq] at hgone
      split_ifs at hgone
      exact absurd hgone hkept
  | delete =>
    cases hpc : s.ag.pc with
    | deleting now resolved =>
      simp only [next, hpc, State.stored, AlertStore.deleteIfNotModified] at hgone
      obtain heq | ⟨-, a, ha, hfp, other, hother, hupd⟩ :=
        AlertStore.lookup_deleteUnmodified resolved s.ag.alerts.alerts f
      · exact absurd (heq.symm.trans hgone) hkept
      · obtain rfl : b = other := Option.some.inj (hb.symm.trans hother)
        exact ⟨now, resolved, rfl, rfl, a, ha, hfp, hupd⟩
    | _ =>
      simp only [next, hpc] at hgone
      exact absurd hgone hkept
  | notified =>
    simp only [next] at hgone
    split at hgone <;> exact absurd hgone hkept
  | start | tick | list | check | done => exact absurd hgone hkept

theorem empty_of_destroyed (h : Inv pipeline s) (he : Enabled pipeline s op)
    (hnew : NewVersion s op) (hd : (next s op).ag.alerts.destroyed = true) (f : Fingerprint) :
    (next s op).stored f = none :=
  (inv_next h he hnew).ok.empty hd f

/-- In a group whose pipeline ends in a fan-out, a version is removed only by a flush
that has passed this version on and took it as resolved by its own clock reading, and it
was not inserted since the flush listed the store. No stage that was executed has
returned an error, and all integrations were executed unless a stage before the fan-out
has left no alerts. The group is marked as destroyed only when it is empty. -/
theorem removed_after_notification [Regexp] {labels : LabelSet} {r : Route}
    {before integrations : List (Stage ε)} {ops : List (Op ε)}
    (hrun : Run (Guarded NewVersion (Fires (Enabled (.toIntegrations before integrations)) next))
      (init labels r) ops s)
    (he : Enabled (.toIntegrations before integrations) s op) (hnew : NewVersion s op) :
    (∀ f b, s.stored f = some b → (next s op).stored f = none →
      b ∈ s.flushed ∧ b.resolvedAt s.now = true ∧ b ∉ s.since ∧
      (∀ x ∈ s.returned, x.errs = []) ∧
      ((∃ x ∈ s.returned, x.stage ∈ before ∧ x.out = []) ∨
        ∃ mid, ∀ i ∈ integrations, ∃ out, ⟨i, mid, out, []⟩ ∈ s.returned)) ∧
    (s.ag.alerts.destroyed = false → (next s op).ag.alerts.destroyed = true →
      ∀ f, (next s op).stored f = none) := by
  have h : Inv (.toIntegrations before integrations) s := hrun.invariant
    (fun s op t hs hstep => by
      obtain ⟨hnew, he, rfl⟩ := hstep
      exact inv_next hs he hnew)
    (inv_init labels r)
  refine ⟨fun f b hb hgone => ?_, fun _ hd => empty_of_destroyed h he hnew hd⟩
  obtain ⟨now, resolved, -, hpc, a, ha, hfp, hupd⟩ := delete_of_removed h hb hgone
  have hmarked : s.ag.pc.Marked now a := by
    rw [hpc]
    exact ⟨rfl, ha⟩
  obtain ⟨hin, hres⟩ := h.ok.marked now a hmarked
  obtain ⟨hfb, hinb⟩ := h.ok.known f b hb
  obtain rfl : a = b := h.versions a hin b hinb (hfp.trans hfb) hupd
  obtain ⟨rfl, hflushed, hsince⟩ := h.marked now a hmarked
  obtain ⟨out, hexec⟩ := h.deleting _ resolved hpc
  exact ⟨hflushed, hres, hsince, hexec.clean rfl, hexec.reaches (List.ne_nil_of_mem hflushed)⟩

end

section
attribute [local instance] noRegexp fnvLabelHash

def flushRoute : Route := .node defaultRouteOpts [] false [] 0

def expired : Alert where
  labels := ∅
  annotations := ∅
  startsAt := 1
  endsAt := 10
  generatorURL := []
  updatedAt := 2
  timeout := false

/-- A stage that passes its alerts on. -/
def passing : Stage GoString := .leaf fun alerts => (alerts, [])

/-- A stage that mutes all alerts. -/
def muting : Stage GoString := .leaf fun _ => ([], [])

/-- An integration that cannot be reached. -/
def unreachable : Stage GoString := .leaf fun alerts => (alerts, [str "unreachable"])

/-- The steps of a group with one alert up to the flush. -/
def flushSteps : List (Op GoString) :=
  [.insert expired, .start, .tick, .list 20 [fingerprint ∅]]

def flushing : State GoString := flushSteps.foldl next (init ∅ flushRoute)

theorem flushing_run (pipeline : Stage GoString) :
    Run (Guarded NewVersion (Fires (Enabled pipeline) next)) (init ∅ flushRoute) flushSteps
      flushing := by
  refine .cons ⟨by simp [NewVersion, init], trivial, rfl⟩ ?_
  refine .cons ⟨trivial, ⟨rfl, rfl⟩, rfl⟩ ?_
  refine .cons ⟨trivial, rfl, rfl⟩ ?_
  exact .cons ⟨trivial, ⟨by decide +kernel, by decide +kernel⟩, rfl⟩ (.nil _)

/-- The group when its pipeline has returned without error. -/
def notifiedRun (out : List Alert) (calls : List (Return GoString)) : List (Op GoString) :=
  flushSteps ++ [.notified out [] calls]

theorem notified_run {pipeline : Stage GoString} {out : List Alert}
    {calls : List (Return GoString)} (h : Exec pipeline [expired] out [] calls) :
    Run (Guarded NewVersion (Fires (Enabled pipeline) next)) (init ∅ flushRoute)
      (notifiedRun out calls) (next flushing (.notified out [] calls)) :=
  (flushing_run pipeline).append
    (.cons ⟨trivial, ⟨20, [expired], [expired], by decide +kernel, h⟩, rfl⟩ (.nil _))

def passingCalls : List (Return GoString) :=
  [⟨passing, [expired], [expired], []⟩, ⟨passing, [expired], [expired], []⟩,
    ⟨.fanout [passing], [expired], [expired], []⟩,
    ⟨.toIntegrations [passing] [passing], [expired], [expired], []⟩]

theorem passing_exec :
    Exec (.toIntegrations [passing] [passing]) [expired] [expired] [] passingCalls := by
  have hpass : Exec passing [expired] [expired] [] (passingCalls.take 1) := .leaf _ _
  have hall : ExecAll [passing] [expired] [] (passingCalls.take 1) := .cons hpass (.nil _)
  have hfanout : Exec (.fanout [passing]) [expired] [expired] []
      ((passingCalls.drop 1).take 2) := .fanout (.refl _) hall
  have heach : ExecEach ([passing] ++ [.fanout [passing]]) [expired] [expired] []
      (passingCalls.take 3) := .next (by simp) hpass (.next (by simp) hfanout (.done _))
  exact .multi heach

theorem removed_after_notification_passing :
    let s := next flushing (.notified [expired] [] passingCalls)
    (s.stored (fingerprint ∅) = some expired ∧ (next s .delete).stored (fingerprint ∅) = none) ∧
      expired ∈ s.flushed ∧ expired.resolvedAt s.now = true ∧
      ∀ x ∈ s.returned, x.errs = [] := by
  intro s
  have hstored : s.stored (fingerprint ∅) = some expired := by decide +kernel
  have hgone : (next s .delete).stored (fingerprint ∅) = none := by decide +kernel
  have hdelete : Enabled (.toIntegrations [passing] [passing]) s .delete :=
    show s.ag.pc.isDeleting = true by decide +kernel
  have hremoved :=
    (removed_after_notification (notified_run passing_exec) hdelete trivial).1 _ _ hstored hgone
  exact ⟨⟨hstored, hgone⟩, hremoved.1, hremoved.2.1, hremoved.2.2.2.1⟩

def mutingCalls : List (Return GoString) :=
  [⟨muting, [expired], [], []⟩, ⟨.toIntegrations [muting] [unreachable], [expired], [], []⟩]

/-- When a stage mutes all alerts, the flush removes a resolved one although the only
integration was never executed. -/
theorem muted_alert_removed_unseen :
    let pipeline : Stage GoString := .toIntegrations [muting] [unreachable]
    let s := next flushing (.notified [] [] mutingCalls)
    Run (Guarded NewVersion (Fires (Enabled pipeline) next)) (init ∅ flushRoute)
        (notifiedRun [] mutingCalls) s ∧
      Enabled pipeline s .delete ∧ s.stored (fingerprint ∅) = some expired ∧
      (next s .delete).stored (fingerprint ∅) = none ∧
      ∀ x ∈ s.returned, x.stage ≠ unreachable := by
  have hmute : Exec muting [expired] [] [] (mutingCalls.take 1) := .leaf _ _
  have heach : ExecEach ([muting] ++ [.fanout [unreachable]]) [expired] [] []
      (mutingCalls.take 1) := .next (by simp) hmute (.empty _ _)
  intro pipeline s
  have hdelete : s.ag.pc.isDeleting = true := by decide +kernel
  refine ⟨notified_run (.multi heach), hdelete, by decide +kernel, by decide +kernel, ?_⟩
  intro x hx
  have hx' : x ∈ mutingCalls := hx
  simp only [mutingCalls, List.mem_cons, List.not_mem_nil, or_false] at hx'
  obtain rfl | rfl := hx'
  · intro heq
    have hout := congrFun (Stage.leaf.inj heq) []
    cases hout
  · intro heq
    cases heq

end

end GroupFlush

end Alertmanager
