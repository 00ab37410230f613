import Alertmanager.ConfigReferences

/-!
# The muted mark of a group

The stages for the active and the mute time intervals of a route leave a mark with each
aggregation group, which the API shows. They come after the inhibition in the pipeline,
and a pipeline ends as soon as it is left without alerts; so an execution whose alerts
are all inhibited leaves the mark of an earlier one. The mark therefore follows the
flush time of the last execution that reached the two stages.
-/
namespace Alertmanager.GroupMuting

variable {τ : Type}

/-! ### The group marker -/

/-- `groupMarker`: the names under the route ID and the group key. -/
abbrev GroupMarker := GoMap (GoString × GoString) (List GoString)

namespace GroupMarker

/-- `Muted`. -/
def muted (m : GroupMarker) (routeID groupKey : GoString) : List GoString × Bool :=
  match m.lookup (routeID, groupKey) with
  | none => ([], false)
  | some mutedBy => (mutedBy, decide (0 < mutedBy.length))

/-- `SetMuted`. -/
def setMuted (m : GroupMarker) (routeID groupKey : GoString) (names : List GoString) :
    GroupMarker :=
  m.insert (routeID, groupKey) names

/-- `DeleteByGroupKey`. -/
def deleteByGroupKey (m : GroupMarker) (routeID groupKey : GoString) : GroupMarker :=
  m.erase (routeID, groupKey)

theorem muted_setMuted (m : GroupMarker) (r g r' g' : GoString) (names : List GoString) :
    ((m.setMuted r g names).muted r' g').2 =
      if (r', g') = (r, g) then decide (names ≠ []) else (m.muted r' g').2 := by
  rw [muted, setMuted, GoMap.lookup_insert_eq]
  split_ifs with hkey
  · simp [List.length_pos_iff]
  · rfl

theorem muted_deleteByGroupKey (m : GroupMarker) (r g r' g' : GoString) :
    ((m.deleteByGroupKey r g).muted r' g').2 =
      if (r', g') = (r, g) then false else (m.muted r' g').2 := by
  rw [muted, deleteByGroupKey, GoMap.lookup_erase_eq]
  split_ifs with hkey
  · rfl
  · rfl

end GroupMarker

/-! ### The pipeline of a receiver -/

/-- `Intervener`. -/
structure Intervener (τ : Type) where
  containsTime : τ → ℤ → Bool
  intervals : GoMap GoString (List τ)

/-- `Intervener.Mutes`. -/
def Intervener.mutes (iv : Intervener τ) (names : List GoString) (now : ℤ) :
    Except GoString (Bool × List GoString) :=
  intervenerMutes iv.containsTime iv.intervals now [] names

/-- The values of the context that the stages read. -/
structure Context where
  routeID : Option GoString
  groupKey : Option GoString
  muteTimeIntervalNames : Option (List GoString)
  activeTimeIntervalNames : Option (List GoString)
  now : Option ℤ

/-- A stage works on the group marker; it returns the alerts for the next one, or an
error. -/
abbrev Stage := GroupMarker → List Alert → GroupMarker × Except GoString (List Alert)

/-- `MultiStage.Exec`. -/
def multiStage : List Stage → Stage
  | [], m, alerts => (m, .ok alerts)
  | _ :: _, m, [] => (m, .ok [])
  | s :: ss, m, a :: alerts =>
    match s m (a :: alerts) with
    | (m', .error err) => (m', .error err)
    | (m', .ok alerts') => multiStage ss m' alerts'

/-- `ClusterGossipSettleStage.Exec`, where `ready` is what `WaitReady` returns. -/
def gossipSettleStage (ready : Except GoString Unit) : Stage := fun m alerts =>
  match ready with
  | .error err => (m, .error err)
  | .ok () => (m, .ok alerts)

/-- `MuteStage.Exec`. -/
def muteStage (mutes : LabelSet → Bool) : Stage := fun m alerts =>
  (m, .ok (alerts.filter fun a => !mutes a.labels))

/-- `TimeActiveStage.Exec`. -/
def timeActiveStage (iv : Intervener τ) (ctx : Context) : Stage := fun m alerts =>
  match ctx.routeID, ctx.groupKey with
  | none, _ => (m, .error (str "route ID missing"))
  | some _, none => (m, .error (str "group key missing"))
  | some routeID, some gkey =>
    match ctx.activeTimeIntervalNames with
    | none => (m.setMuted routeID gkey [], .ok alerts)
    | some [] => (m.setMuted routeID gkey [], .ok alerts)
    | some (name :: names) =>
      match ctx.now with
      | none => (m.setMuted routeID gkey [], .error (str "missing now timestamp"))
      | some now =>
        match iv.mutes (name :: names) now with
        | .error err => (m, .error err)
        | .ok (true, _) => (m.setMuted routeID gkey [], .ok alerts)
        | .ok (false, _) => (m.setMuted routeID gkey (name :: names), .ok [])

/-- `TimeMuteStage.Exec`. -/
def timeMuteStage (iv : Intervener τ) (ctx : Context) : Stage := fun m alerts =>
  match ctx.routeID, ctx.groupKey with
  | none, _ => (m, .error (str "route ID missing"))
  | some _, none => (m, .error (str "group key missing"))
  | some routeID, some gkey =>
    match ctx.muteTimeIntervalNames with
    | none => (m.setMuted routeID gkey [], .ok alerts)
    | some names =>
      match ctx.now with
      | none => (m.setMuted routeID gkey [], .error (str "missing now timestamp"))
      | some now =>
        if names = [] then (m.setMuted routeID gkey [], .ok alerts)
        else
          match iv.mutes names now with
          | .error err => (m, .error err)
          | .ok (muted, mutedBy) =>
            (m.setMuted routeID gkey mutedBy, .ok (if muted then [] else alerts))

/-- One flush of a group: when it happens, its alerts, what the cluster and the muters say,
and what becomes of the alerts that are handed to the receiver. -/
structure Execution where
  now : ℤ
  alerts : List Alert
  ready : Except GoString Unit
  inhibited : LabelSet → Bool
  silenced : LabelSet → Bool
  receiver : List Alert → Except GoString (List Alert)

/-- The context of a flush. -/
def Execution.context (e : Execution) (opts : RouteOpts) (routeID groupKey : GoString) :
    Context where
  routeID := some routeID
  groupKey := some groupKey
  muteTimeIntervalNames := some opts.muteTimeIntervals
  activeTimeIntervalNames := some opts.activeTimeIntervals
  now := some e.now

/-- The stages of `PipelineBuilder.New`, executed for one flush. -/
def Execution.exec (e : Execution) (iv : Intervener τ) (opts : RouteOpts)
    (routeID groupKey : GoString) (m : GroupMarker) : GroupMarker × Except GoString (List Alert) :=
  let ctx := e.context opts routeID groupKey
  multiStage
    [gossipSettleStage e.ready, muteStage e.inhibited, timeActiveStage iv ctx,
      timeMuteStage iv ctx, muteStage e.silenced, fun m alerts => (m, e.receiver alerts)]
    m e.alerts

/-! ### What an execution does to the mark -/

/-- The time lies in an interval of that name. -/
def Intervener.Contains (iv : Intervener τ) (name : GoString) (t : ℤ) : Prop :=
  ∃ ti ∈ (iv.intervals.lookup name).getD [], iv.containsTime ti t = true

/-- The route has active intervals none of which contains the time, or a mute interval
that contains it. -/
def Intervener.Muting (iv : Intervener τ) (opts : RouteOpts) (t : ℤ) : Prop :=
  (opts.activeTimeIntervals ≠ [] ∧ ∀ name ∈ opts.activeTimeIntervals, ¬iv.Contains name t) ∨
    ∃ name ∈ opts.muteTimeIntervals, iv.Contains name t

instance decidableContains (iv : Intervener τ) (name : GoString) (t : ℤ) :
    Decidable (iv.Contains name t) :=
  inferInstanceAs (Decidable (∃ ti ∈ _, _))

instance decidableMuting (iv : Intervener τ) (opts : RouteOpts) (t : ℤ) :
    Decidable (iv.Muting opts t) :=
  inferInstanceAs (Decidable ((_ ∧ ∀ name ∈ _, _) ∨ ∃ name ∈ _, _))

/-- The names of the route are defined. -/
structure Intervener.Defines (iv : Intervener τ) (opts : RouteOpts) : Prop where
  mute : ∀ name ∈ opts.muteTimeIntervals, name ∈ iv.intervals
  active : ∀ name ∈ opts.activeTimeIntervals, name ∈ iv.intervals

variable {iv : Intervener τ} {opts : RouteOpts} {names : List GoString}

theorem intervenerMutes_spec (now : ℤ) (hnames : ∀ name ∈ names, name ∈ iv.intervals)
    (found : List GoString) :
    ∃ found', intervenerMutes iv.containsTime iv.intervals now found names =
        .ok (decide (found' ≠ []), found') ∧
      (found' ≠ [] ↔ found ≠ [] ∨ ∃ name ∈ names, iv.Contains name now) := by
  induction names generalizing found with
  | nil => exact ⟨found, rfl, by simp⟩
  | cons name names ih =>
    obtain ⟨interval, hinterval⟩ := Finmap.mem_iff.mp (hnames name List.mem_cons_self)
    have htail := ih (fun n hn => hnames n (List.mem_cons_of_mem _ hn))
    obtain ⟨found', hrun, hfound'⟩ :=
      htail (found ++ (interval.filter (iv.containsTime · now)).map fun _ => name)
    have hcontains : iv.Contains name now ↔
        (interval.filter (iv.containsTime · now)).map (fun _ => name) ≠ [] := by
      simp [Intervener.Contains, hinterval, List.filter_eq_nil_iff]
    refine ⟨found', by simpa only [intervenerMutes, hinterval] using hrun, ?_⟩
    rw [hfound', List.exists_mem_cons_iff, hcontains, ne_eq, List.append_eq_nil_iff, not_and_or,
      or_assoc]

theorem mutes_spec (now : ℤ) (hnames : ∀ name ∈ names, name ∈ iv.intervals) :
    ∃ found, iv.mutes names now = .ok (decide (found ≠ []), found) ∧
      (found ≠ [] ↔ ∃ name ∈ names, iv.Contains name now) := by
  obtain ⟨found, hmutes, hfound⟩ := intervenerMutes_spec now hnames []
  exact ⟨found, hmutes, by simpa using hfound⟩

section
variable {e : Execution} {routeID groupKey : GoString} (m : GroupMarker) (alerts : List Alert)

theorem timeActiveStage_of_active (hdef : iv.Defines opts)
    (h : opts.activeTimeIntervals = [] ∨
      ∃ name ∈ opts.activeTimeIntervals, iv.Contains name e.now) :
    timeActiveStage iv (e.context opts routeID groupKey) m alerts =
      (m.setMuted routeID groupKey [], .ok alerts) := by
  obtain ⟨found, hmutes, hfound⟩ := mutes_spec e.now hdef.active
  simp only [timeActiveStage, Execution.context]
  cases hnames : opts.activeTimeIntervals with
  | nil => rfl
  | cons name names =>
    have hne : found ≠ [] := hfound.mpr (h.resolve_left (by simp [hnames]))
    rw [hnames] at hmutes
    simp [hmutes, hne]

theorem timeActiveStage_of_inactive (hdef : iv.Defines opts)
    (hactive : opts.activeTimeIntervals ≠ [])
    (h : ∀ name ∈ opts.activeTimeIntervals, ¬iv.Contains name e.now) :
    timeActiveStage iv (e.context opts routeID groupKey) m alerts =
      (m.setMuted routeID groupKey opts.activeTimeIntervals, .ok []) := by
  obtain ⟨found, hmutes, hfound⟩ := mutes_spec e.now hdef.active
  have hnone : found = [] := by
    by_contra hne
    obtain ⟨name, hname, hcontains⟩ := hfound.mp hne
    exact h name hname hcontains
  simp only [timeActiveStage, Execution.context]
  cases hnames : opts.activeTimeIntervals with
  | nil => exact absurd hnames hactive
  | cons name names =>
    rw [hnames] at hmutes
    simp [hmutes, hnone]

theorem timeMuteStage_spec (hdef : iv.Defines opts) :
    ∃ found, timeMuteStage iv (e.context opts routeID groupKey) m alerts =
        (m.setMuted routeID groupKey found, .ok (if found ≠ [] then [] else alerts)) ∧
      (found ≠ [] ↔ ∃ name ∈ opts.muteTimeIntervals, iv.Contains name e.now) := by
  obtain ⟨found, hmutes, hfound⟩ := mutes_spec e.now hdef.mute
  refine ⟨found, ?_, hfound⟩
  simp only [timeMuteStage, Execution.context]
  by_cases hnames : opts.muteTimeIntervals = []
  · have hnone : found = [] := by
      by_contra hne
      obtain ⟨name, hname, -⟩ := hfound.mp hne
      simp [hnames] at hname
    simp [hnames, hnone]
  · simp [hnames, hmutes]

/-! Whether the two stages are reached, and what the pipeline does then. -/

/-- The peers have settled and some alert is not inhibited. -/
def Execution.reaches (e : Execution) : Bool :=
  e.ready.isOk && e.alerts.any fun a => !e.inhibited a.labels

theorem Execution.reaches_iff : e.reaches = true ↔
    e.ready = .ok () ∧ ∃ a ∈ e.alerts, e.inhibited a.labels = false := by
  have hready : e.ready.isOk = true ↔ e.ready = .ok () := by
    cases e.ready <;> simp [Except.isOk, Except.toBool]
  simp [Execution.reaches, hready]

theorem multiStage_cons (s : Stage) (ss : List Stage) (m : GroupMarker) {alerts : List Alert}
    (h : alerts ≠ []) : multiStage (s :: ss) m alerts =
      match s m alerts with
      | (m', .error err) => (m', .error err)
      | (m', .ok alerts') => multiStage ss m' alerts' := by
  cases alerts with
  | nil => exact absurd rfl h
  | cons a alerts => rfl

theorem multiStage_nil (ss : List Stage) (m : GroupMarker) : multiStage ss m [] = (m, .ok []) := by
  cases ss <;> rfl

/-- What every stage preserves of the marker the pipeline does. -/
theorem multiStage_invariant {P : GroupMarker → Prop} {ss : List Stage}
    (h : ∀ s ∈ ss, ∀ m alerts, P m → P (s m alerts).1) {m : GroupMarker} (hm : P m)
    (alerts : List Alert) : P (multiStage ss m alerts).1 := by
  induction ss generalizing m alerts with
  | nil => exact hm
  | cons s ss ih =>
    cases alerts with
    | nil => exact hm
    | cons a alerts =>
      have hs := h s List.mem_cons_self m (a :: alerts) hm
      rw [multiStage_cons s ss m (List.cons_ne_nil a alerts)]
      rcases hrun : s m (a :: alerts) with ⟨m', err | alerts'⟩
      · simpa [hrun] using hs
      · rw [hrun] at hs
        exact ih (fun s' hs' => h s' (List.mem_cons_of_mem _ hs')) hs alerts'

theorem multiStage_marker {ss : List Stage} (h : ∀ s ∈ ss, ∀ m alerts, (s m alerts).1 = m)
    (m : GroupMarker) (alerts : List Alert) : (multiStage ss m alerts).1 = m := by
  refine multiStage_invariant (P := (· = m)) (fun s hs m' alerts' hm' => ?_) rfl alerts
  rw [h s hs, hm']

/-- An execution leaves the marks of other groups. -/
theorem muted_exec_of_ne {r g : GoString} (hne : (r, g) ≠ (routeID, groupKey)) :
    ((e.exec iv opts routeID groupKey m).1.muted r g).2 = (m.muted r g).2 := by
  have hset : ∀ (m' : GroupMarker) names, (m'.muted r g).2 = (m.muted r g).2 →
      ((m'.setMuted routeID groupKey names).muted r g).2 = (m.muted r g).2 := by
    intro m' names hm'
    rw [GroupMarker.muted_setMuted, if_neg hne, hm']
  refine multiStage_invariant (P := fun m' => (m'.muted r g).2 = (m.muted r g).2) ?_ rfl _
  simp only [List.forall_mem_cons, List.not_mem_nil, false_imp_iff, implies_true, and_true]
  refine ⟨?_, ?_, ?_, ?_, ?_, ?_⟩ <;> intro m' alerts' hm'
  · cases hready : e.ready <;> simpa [gossipSettleStage, hready] using hm'
  · exact hm'
  · simp only [timeActiveStage, Execution.context]
    cases opts.activeTimeIntervals with
    | nil => exact hset m' _ hm'
    | cons name names =>
      simp only
      rcases iv.mutes (name :: names) e.now with err | ⟨_ | _, -⟩
      · exact hm'
      · exact hset m' _ hm'
      · exact hset m' _ hm'
  · simp only [timeMuteStage, Execution.context]
    split_ifs
    · exact hset m' _ hm'
    · split
      · exact hm'
      · exact hset m' _ hm'
  · exact hm'
  · exact hm'

/-- The stages of a pipeline from the two on. -/
def Execution.timeStages (e : Execution) (iv : Intervener τ) (opts : RouteOpts)
    (routeID groupKey : GoString) : List Stage :=
  [timeActiveStage iv (e.context opts routeID groupKey),
    timeMuteStage iv (e.context opts routeID groupKey), muteStage e.silenced,
    fun m alerts => (m, e.receiver alerts)]

theorem exec_of_not_reaches (h : ¬e.reaches = true) :
    (e.exec iv opts routeID groupKey m).1 = m := by
  unfold Execution.exec
  by_cases hnil : e.alerts = []
  · rw [hnil]
    rfl
  · rw [multiStage_cons _ _ m hnil]
    cases hready : e.ready with
    | error err => rfl
    | ok u =>
      have hfilter : (e.alerts.filter fun a => !e.inhibited a.labels) = [] := by
        rw [List.filter_eq_nil_iff]
        intro a ha hpass
        exact h (Execution.reaches_iff.mpr ⟨hready, a, ha, by simpa using hpass⟩)
      simp only [gossipSettleStage]
      rw [multiStage_cons _ _ m hnil]
      simp only [muteStage, hfilter]
      rfl

theorem exec_of_reaches (h : e.reaches = true) : ∃ passing, passing ≠ [] ∧
    e.exec iv opts routeID groupKey m =
      multiStage (e.timeStages iv opts routeID groupKey) m passing := by
  obtain ⟨hready, a, ha, hpass⟩ := Execution.reaches_iff.mp h
  have hnil : e.alerts ≠ [] := List.ne_nil_of_mem ha
  refine ⟨e.alerts.filter fun a => !e.inhibited a.labels, ?_, ?_⟩
  · exact List.ne_nil_of_mem (List.mem_filter.mpr ⟨ha, by simp [hpass]⟩)
  · unfold Execution.exec
    rw [multiStage_cons _ _ m hnil]
    simp only [gossipSettleStage, hready]
    rw [multiStage_cons _ _ m hnil]
    rfl

/-- The two stages mark the group with the names that mute the route, or with none, and let
no alerts pass or all of them. -/
theorem timeStages_eq (hdef : iv.Defines opts) (h : alerts ≠ []) (ss : List Stage) :
    ∃ mutedBy, multiStage (timeActiveStage iv (e.context opts routeID groupKey) ::
        timeMuteStage iv (e.context opts routeID groupKey) :: ss) m alerts =
      multiStage ss (m.setMuted routeID groupKey mutedBy)
        (if iv.Muting opts e.now then [] else alerts) ∧
      (mutedBy ≠ [] ↔ iv.Muting opts e.now) := by
  rw [multiStage_cons _ _ m h]
  by_cases hinactive : opts.activeTimeIntervals ≠ [] ∧
      ∀ name ∈ opts.activeTimeIntervals, ¬iv.Contains name e.now
  · have hmuting : iv.Muting opts e.now := Or.inl hinactive
    rw [timeActiveStage_of_inactive m alerts hdef hinactive.1 hinactive.2, if_pos hmuting]
    refine ⟨opts.activeTimeIntervals, ?_, iff_of_true hinactive.1 hmuting⟩
    simp only [multiStage_nil]
  · have hactive : opts.activeTimeIntervals = [] ∨
        ∃ name ∈ opts.activeTimeIntervals, iv.Contains name e.now := by
      by_contra hno
      push Not at hno
      exact hinactive hno
    obtain ⟨found, hmute, hfound⟩ : ∃ found,
        timeMuteStage iv (e.context opts routeID groupKey) (m.setMuted routeID groupKey []) alerts =
          _ ∧ _ := timeMuteStage_spec _ alerts hdef
    have hmuting : found ≠ [] ↔ iv.Muting opts e.now := by
      rw [hfound, Intervener.Muting, or_iff_right hinactive]
    have hmark : (m.setMuted routeID groupKey []).setMuted routeID groupKey found =
        m.setMuted routeID groupKey found := Finmap.insert_insert m
    refine ⟨found, ?_, hmuting⟩
    rw [timeActiveStage_of_active m alerts hdef hactive]
    simp only
    rw [multiStage_cons _ _ _ h, hmute, hmark]
    simp only [hmuting]

theorem timeStages_marker (hdef : iv.Defines opts) (h : alerts ≠ []) :
    ∃ mutedBy, (multiStage (e.timeStages iv opts routeID groupKey) m alerts).1 =
        m.setMuted routeID groupKey mutedBy ∧ (mutedBy ≠ [] ↔ iv.Muting opts e.now) := by
  obtain ⟨mutedBy, hrun, hmuting⟩ := timeStages_eq m alerts hdef h
    [muteStage e.silenced, fun m alerts => (m, e.receiver alerts)]
  refine ⟨mutedBy, ?_, hmuting⟩
  rw [Execution.timeStages, hrun, multiStage_marker (by simp [muteStage])]

end

/-! ### Runs -/

/-- What happens to the markers of the groups: a flush of a group goes through its
pipeline, or the dispatcher removes the group. -/
inductive Event
  | flush (routeID groupKey : GoString) (e : Execution)
  | remove (routeID groupKey : GoString)

/-- The marker after an event, where `route` gives the options of a route. -/
def apply (iv : Intervener τ) (route : GoString → RouteOpts) (m : GroupMarker) :
    Event → GroupMarker
  | .flush routeID groupKey e => (e.exec iv (route routeID) routeID groupKey m).1
  | .remove routeID groupKey => m.deleteByGroupKey routeID groupKey

def run (iv : Intervener τ) (route : GoString → RouteOpts) (m : GroupMarker)
    (events : List Event) : GroupMarker :=
  events.foldl (apply iv route) m

/-- The flush time of the last execution for the group that reached the two stages, since
the group was created. -/
def lastReached (routeID groupKey : GoString) (events : List Event) : Option ℤ :=
  events.foldl
    (fun last ev =>
      match ev with
      | .flush r g e => if (routeID, groupKey) = (r, g) ∧ e.reaches then some e.now else last
      | .remove r g => if (routeID, groupKey) = (r, g) then none else last)
    none

section
variable {route : GoString → RouteOpts} {routeID groupKey : GoString}

/-- What one event does to the mark of a group. -/
theorem muted_apply (hdef : iv.Defines (route routeID)) (m : GroupMarker) (ev : Event) :
    ((apply iv route m ev).muted routeID groupKey).2 = true ↔
      match ev with
      | .flush r g e =>
        if (routeID, groupKey) = (r, g) ∧ e.reaches then iv.Muting (route routeID) e.now
        else (m.muted routeID groupKey).2 = true
      | .remove r g =>
        if (routeID, groupKey) = (r, g) then False else (m.muted routeID groupKey).2 = true := by
  cases ev with
  | remove r g =>
    simp only [apply, GroupMarker.muted_deleteByGroupKey]
    split_ifs <;> simp
  | flush r g e =>
    simp only [apply]
    by_cases hkey : (routeID, groupKey) = (r, g)
    · obtain ⟨rfl, rfl⟩ := Prod.mk.inj hkey
      by_cases hreach : e.reaches = true
      · obtain ⟨passing, hne, hexec⟩ := exec_of_reaches m hreach
        obtain ⟨mutedBy, hmarker, hmuting⟩ := timeStages_marker m passing hdef hne
        rw [hexec, hmarker, GroupMarker.muted_setMuted, if_pos rfl, if_pos ⟨rfl, hreach⟩,
          decide_eq_true_iff, hmuting]
      · rw [exec_of_not_reaches m hreach, if_neg fun h => hreach h.2]
    · rw [muted_exec_of_ne m hkey, if_neg fun h => hkey h.1]

/-- The mark of a group says whether its route was muted at the last flush that reached
the two stages. -/
theorem muted_run (hdef : iv.Defines (route routeID)) (events : List Event) :
    ((run iv route ∅ events).muted routeID groupKey).2 = true ↔
      ∃ t ∈ lastReached routeID groupKey events, iv.Muting (route routeID) t := by
  induction events using List.reverseRecOn with
  | nil => simp [run, lastReached, GroupMarker.muted]
  | append_singleton events ev ih =>
    have hrun : run iv route ∅ (events ++ [ev]) = apply iv route (run iv route ∅ events) ev := by
      simp [run]
    rw [hrun, muted_apply hdef]
    unfold lastReached at ih ⊢
    rw [List.foldl_append, List.foldl_cons, List.foldl_nil]
    cases ev with
    | flush r g e =>
      simp only
      split_ifs
      · simp
      · exact ih
    | remove r g =>
      simp only
      split_ifs
      · simp
      · exact ih

theorem lastReached_flush (events : List Event) {e : Execution} (h : e.reaches = true) :
    lastReached routeID groupKey (events ++ [.flush routeID groupKey e]) = some e.now := by
  simp [lastReached, h]

/-- A flush that returns no error, with an alert that is not inhibited, reaches the two
stages. -/
theorem reaches_of_ok {opts : RouteOpts} {m : GroupMarker} {e : Execution}
    (hok : (e.exec iv opts routeID groupKey m).2.isOk = true)
    (hpass : ∃ a ∈ e.alerts, e.inhibited a.labels = false) : e.reaches = true := by
  refine Execution.reaches_iff.mpr ⟨?_, hpass⟩
  obtain ⟨a, ha, -⟩ := hpass
  rw [Execution.exec, multiStage_cons _ _ m (List.ne_nil_of_mem ha)] at hok
  cases hready : e.ready with
  | error err => simp [gossipSettleStage, hready, Except.isOk, Except.toBool] at hok
  | ok u => rfl

/-- After a flush of a group, its mark is right if and only if its route is muted now just
when it was at the last flush that reached the two stages; no such flush counts as not
muted. In particular the mark is right after a flush that returns no error and finds an
alert that is not inhibited. -/
theorem mark_follows_intervals_iff (hdef : iv.Defines (route routeID)) (events : List Event)
    (e : Execution) :
    let before := run iv route ∅ events
    let after := run iv route ∅ (events ++ [.flush routeID groupKey e])
    let last := lastReached routeID groupKey (events ++ [.flush routeID groupKey e])
    (((after.muted routeID groupKey).2 = true ↔ iv.Muting (route routeID) e.now) ↔
        ((∃ t ∈ last, iv.Muting (route routeID) t) ↔ iv.Muting (route routeID) e.now)) ∧
      ((e.exec iv (route routeID) routeID groupKey before).2.isOk = true →
        (∃ a ∈ e.alerts, e.inhibited a.labels = false) →
        ((after.muted routeID groupKey).2 = true ↔ iv.Muting (route routeID) e.now)) := by
  intro before after last
  have hafter : (after.muted routeID groupKey).2 = true ↔
      ∃ t ∈ last, iv.Muting (route routeID) t := muted_run hdef _
  refine ⟨by rw [hafter], fun hok hpass => ?_⟩
  have hlast : last = some e.now := lastReached_flush events (reaches_of_ok hok hpass)
  rw [hafter, hlast]
  simp

end

/-- An intervener with one interval, from 100 up to 200. -/
def nightIntervener : Intervener (ℤ × ℤ) where
  containsTime := fun range t => range.1 ≤ t && t < range.2
  intervals := (∅ : GoMap GoString (List (ℤ × ℤ))).insert (str "night") [(100, 200)]

def nightOpts : RouteOpts := { defaultRouteOpts with muteTimeIntervals := [str "night"] }

theorem night_defined : nightIntervener.Defines nightOpts := by
  constructor
  · intro name hname
    obtain rfl : name = str "night" := by simpa [nightOpts] using hname
    exact Finmap.mem_insert.mpr (Or.inl rfl)
  · intro name hname
    simp [nightOpts, defaultRouteOpts] at hname

/-- A flush of one alert at the given time, which may be inhibited. -/
def flushAt (now : ℤ) (inhibited : Bool) : Execution where
  now := now
  alerts := [⟨∅, ∅, 0, 0, [], 0, false⟩]
  ready := .ok ()
  inhibited := fun _ => inhibited
  silenced := fun _ => false
  receiver := .ok

/-- The mark of the night is gone after a flush in the day. -/
theorem mark_follows_intervals_night :
    let events := [Event.flush (str "r") (str "g") (flushAt 150 false)]
    let flushed := Event.flush (str "r") (str "g") (flushAt 250 false)
    let route := fun _ : GoString => nightOpts
    ((run nightIntervener route ∅ events).muted (str "r") (str "g")).2 = true ∧
      (((run nightIntervener route ∅ (events ++ [flushed])).muted (str "r") (str "g")).2 = true ↔
        nightIntervener.Muting nightOpts 250) := by
  refine ⟨by decide +kernel, ?_⟩
  exact (mark_follows_intervals_iff night_defined _ (flushAt 250 false)).2 (by decide +kernel)
    ⟨_, List.mem_singleton_self _, rfl⟩

/-- But it stays when the alert is inhibited by then. -/
theorem inhibited_flush_keeps_mark :
    let events := [Event.flush (str "r") (str "g") (flushAt 150 false)]
    let flushed := Event.flush (str "r") (str "g") (flushAt 250 true)
    let before := run nightIntervener (fun _ => nightOpts) ∅ events
    let after := run nightIntervener (fun _ => nightOpts) ∅ (events ++ [flushed])
    nightIntervener.Defines nightOpts ∧
      ((flushAt 250 true).exec nightIntervener nightOpts (str "r") (str "g") before).2.isOk = true ∧
      (after.muted (str "r") (str "g")).2 = true ∧ ¬nightIntervener.Muting nightOpts 250 :=
  ⟨night_defined, by decide +kernel, by decide +kernel, by decide +kernel⟩

end Alertmanager.GroupMuting
