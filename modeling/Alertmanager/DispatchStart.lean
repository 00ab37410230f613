import Alertmanager.DispatchSafety
import Alertmanager.RouteConfig

/-!
# Every aggregation group is started once

A group that is created around the start of the dispatcher may be started by the
call that created it, by the sweep of the start timer, or by both. The flag of the
group makes sure that only one of them starts its loop. That one of them does is
seen from the order of the steps: a call stores its group before it reads the state
of the dispatcher, and the timer sets the state before it ranges over the maps. So a
group that is stored when the state changes is still ahead of the sweep, and the
creator of any later group reads the new state.
-/
namespace Alertmanager

section
variable [Regexp] [LabelHash] {m m' : Memory} {act : Memory.Action}

/-- What an action does to the loop of a group. -/
theorem Memory.Effect.running (h : Memory.Effect m act m') (p : ℕ) :
    ((m'.heap p).running = (m.heap p).running ∧ (m'.heap p).starts = (m.heap p).starts) ∨
      (act = .start p ∧ (m.heap p).running = false ∧ (m'.heap p).running = true ∧
        (m'.heap p).starts = (m.heap p).starts + 1) ∨
      (p = m.alloc ∧ (m'.heap p).running = false ∧ (m'.heap p).starts = 0) := by
  cases h with
  | silent | publish | unpublish => exact Or.inl ⟨rfl, rfl⟩
  | @insert q | @flush q =>
    refine Or.inl ?_
    rw [Memory.heap_setGroup]
    split_ifs with hq
    · subst hq
      exact ⟨rfl, rfl⟩
    · exact ⟨rfl, rfl⟩
  | @touch q ag _ _ _ _ _ hrunning hstarts =>
    refine Or.inl ?_
    rw [Memory.heap_setGroup]
    split_ifs with hq
    · subst hq
      exact ⟨hrunning, hstarts⟩
    · exact ⟨rfl, rfl⟩
  | @start q _ hrunning =>
    rw [Memory.heap_setGroup]
    split_ifs with hq
    · subst hq
      exact Or.inr (Or.inl ⟨rfl, hrunning, rfl, rfl⟩)
    · exact Or.inl ⟨rfl, rfl⟩
  | create r =>
    rw [Memory.heap_create]
    split_ifs with hq
    · rw [AggrGroup.first_eq]
      exact Or.inr (Or.inr ⟨hq, rfl, rfl⟩)
    · exact Or.inl ⟨rfl, rfl⟩

end

namespace Dispatcher

/-- The group that the call has stored in the map. -/
def CallPC.published : CallPC → Option ℕ
  | cancelOld ag _ | countLen ag | countNum ag | loadState ag | runAG ag => some ag
  | _ => none

/-- The group that the call has created, until it returns. -/
def CallPC.own (pc : CallPC) : Option ℕ := pc.created.orElse fun _ => pc.published

/-- The group is still to be started by the sweep of the start timer. -/
def TimerPC.Ahead (i : ℕ) (k : Fingerprint) (p : ℕ) : TimerPC → Prop
  | sweeping j todo picked => p ∈ picked ∨ i = j ∧ k ∈ todo ∨ j < i
  | waiting | finished => False

section
variable [Regexp] [LabelHash] {root : Route} {n : ℕ} {S : Finset LabelSet} {s : State} {op : Op}
  {w : ℕ} {a : Alert} {route : Route} {pc : CallPC} {rest : List Route} {i p : ℕ}
  {k : Fingerprint}

/-- No call that created the group is under way. -/
def Returned (s : State) (p : ℕ) : Prop :=
  ∀ w a route pc rest, s.workers w = .busy a route pc rest → pc.own ≠ some p

/-! ### No group is started twice, and none too early -/

/-- A loop was started once if the flag of the group is set, else never. Nothing is
running or about to be started while the dispatcher waits. -/
structure StartInv (s : State) : Prop where
  starts : ∀ p, (s.shared.mem.heap p).starts = if (s.shared.mem.heap p).running then 1 else 0
  timer : s.shared.state = .waitingToStart → s.timer = .waiting
  running : s.shared.state = .waitingToStart → ∀ p, (s.shared.mem.heap p).running = false
  call : s.shared.state = .waitingToStart →
    ∀ w a route pc rest, s.workers w = .busy a route pc rest → ∀ p, pc ≠ .runAG p

/-- How a step changes the state of the dispatcher and the start timer. -/
inductive TimerStep (root : Route) (s : State) (op : Op) : Prop
  | same : (next root s op).shared.state = s.shared.state → (next root s op).timer = s.timer →
      TimerStep root s op
  | fired : op = .startTimer → s.shared.state = .waitingToStart →
      (next root s op).shared.state = .running → (next root s op).shared.mem = s.shared.mem →
      (next root s op).timer = .sweeping 0 (s.shared.mem.groups 0).keys [] → TimerStep root s op
  | tooLate : s.shared.state ≠ .waitingToStart →
      (next root s op).shared.state = s.shared.state → s.timer = .waiting →
      (next root s op).timer = .finished → TimerStep root s op
  | read (j : ℕ) (todo : Finset Fingerprint) (picked : List ℕ) (key : Fingerprint) :
      (next root s op).shared = s.shared → s.timer = .sweeping j todo picked →
      (next root s op).timer =
        .sweeping j (todo.erase key) ((s.shared.mem.load j key).toList ++ picked) →
      TimerStep root s op
  | started (j : ℕ) (todo : Finset Fingerprint) (picked : List ℕ) (p : ℕ) :
      (next root s op).shared = { s.shared with mem := startGroup s.shared.mem p } →
      s.timer = .sweeping j todo picked →
      (next root s op).timer = .sweeping j todo (picked.erase p) → TimerStep root s op
  | nextRoute (j : ℕ) : (next root s op).shared = s.shared → s.timer = .sweeping j ∅ [] →
      (next root s op).timer =
        (if j < root.idx then .sweeping (j + 1) (s.shared.mem.groups (j + 1)).keys []
        else .finished) →
      TimerStep root s op
  | stopped : op = .stop → (next root s op).shared.state = .stopped →
      (next root s op).timer = s.timer → TimerStep root s op

theorem groupAlert_state (a : Alert) (route : Route) (limit : ℤ) (sh : Shared) (pc : CallPC) :
    (groupAlert a route limit sh pc).1.state = sh.state := by
  cases pc with
  | create | compareAndSwap | loadState =>
    simp only [groupAlert]
    split_ifs <;> rfl
  | load | insertLoaded | loadOrStore | insertExisting =>
    simp only [groupAlert]
    split <;> rfl
  | cancelOld | countLen | countNum | runAG | returned => rfl

omit [Regexp] in
theorem doMaintenance_state (sh : Shared) (pc : MaintenancePC) :
    (doMaintenance sh pc).1.state = sh.state := by
  cases pc with
  | deleting =>
    simp only [doMaintenance]
    split_ifs <;> rfl
  | _ => rfl

theorem timerStep (root : Route) (he : Enabled n S s op) : TimerStep root s op := by
  cases op with
  | deliver | tick | list | check | done => exact .same rfl rfl
  | receive | notified | delete | visit =>
    refine .same ?_ ?_ <;> · simp only [next]; split <;> rfl
  | call w limit =>
    cases hw : s.workers w with
    | idle => simp [Enabled, hw, Worker.isIdle] at he
    | busy a route pc rest =>
      by_cases hret : ∃ outcome, pc = .returned outcome
      · obtain ⟨outcome, rfl⟩ := hret
        refine .same ?_ ?_ <;> rw [next_returned hw]
      · have hnext : next root s (.call w limit) = _ :=
          next_call hw fun o ho => hret ⟨o, ho⟩
        refine .same ?_ ?_
        · rw [hnext]
          exact groupAlert_state a route limit s.shared pc
        · rw [hnext]
  | maintain t => exact .same (doMaintenance_state s.shared (s.maintenance t)) rfl
  | startTimer =>
    by_cases hstate : s.shared.state = .waitingToStart
    · refine .fired rfl hstate ?_ ?_ ?_ <;> simp only [next, if_pos hstate]
    · refine .tooLate hstate ?_ he ?_ <;> simp only [next, if_neg hstate]
  | sweep key =>
    cases htimer : s.timer with
    | sweeping j todo picked =>
      refine .read j todo picked key ?_ htimer ?_ <;> simp only [next, htimer]
    | _ => simp [Enabled, htimer, TimerPC.isSweeping] at he
  | sweepStart p =>
    cases htimer : s.timer with
    | sweeping j todo picked =>
      refine .started j todo picked p ?_ htimer ?_ <;> simp only [next, htimer, State.setMem]
    | _ => simp [Enabled, htimer, TimerPC.picked] at he
  | sweepNext =>
    cases htimer : s.timer with
    | sweeping j todo picked =>
      obtain ⟨rfl, rfl⟩ : todo = ∅ ∧ picked = [] := by
        simpa [Enabled, htimer, TimerPC.rangeDone] using he
      refine .nextRoute j ?_ htimer ?_ <;> simp only [next, htimer]
    | _ => simp [Enabled, htimer, TimerPC.rangeDone] at he
  | stop => exact .stopped rfl rfl rfl

theorem waiting_before (h : StartInv s) (he : Enabled n S s op)
    (hwait : (next root s op).shared.state = .waitingToStart) :
    s.shared.state = .waitingToStart ∧ (next root s op).timer = s.timer := by
  cases timerStep root he with
  | same hstate htimer => exact ⟨hstate.symm.trans hwait, htimer⟩
  | fired _ _ hstate => cases hstate.symm.trans hwait
  | tooLate hnot hstate => exact absurd (hstate.symm.trans hwait) hnot
  | read j todo picked key hshared htimer | nextRoute j hshared htimer =>
    rw [hshared] at hwait
    cases htimer.symm.trans (h.timer hwait)
  | started j todo picked p hshared htimer =>
    rw [hshared] at hwait
    cases htimer.symm.trans (h.timer hwait)
  | stopped _ hstate => cases hstate.symm.trans hwait

/-- A call goes on to start its group only when it has read that the dispatcher runs. -/
theorem state_of_runAG {limit : ℤ} {sh : Shared} (hpc : ∀ outcome, pc ≠ .returned outcome)
    (h : (groupAlert a route limit sh pc).2 = .runAG p) : sh.state = .running := by
  cases pc with
  | loadState ag =>
    simp only [groupAlert] at h
    split_ifs at h with hrun
    exact hrun
  | returned outcome => exact absurd rfl (hpc outcome)
  | create el =>
    simp only [groupAlert] at h
    split_ifs at h
    cases el <;> cases h
  | compareAndSwap ag el retries =>
    simp only [groupAlert, retry] at h
    split_ifs at h
  | insertExisting ag el retries =>
    simp only [groupAlert, retry] at h
    split at h
    · cases h
    · split_ifs at h
  | load | insertLoaded | loadOrStore =>
    simp only [groupAlert] at h
    split at h <;> cases h
  | cancelOld | countLen | countNum | runAG => cases h

omit [LabelHash] in
theorem startInv_init : StartInv (init : State) where
  starts p := rfl
  timer _ := rfl
  running _ _ := rfl
  call _ w a route pc rest h := by cases h

theorem startInv_next (hinv : Inv S s) (h : StartInv s) (he : Enabled n S s op) :
    StartInv (next root s op) := by
  obtain ⟨act, heffect, hby⟩ := next_effect root hinv he
  refine ⟨fun p => ?_, fun hwait => ?_, fun hwait p => ?_, fun hwait w a route pc rest hw p => ?_⟩
  · have hold := h.starts p
    obtain ⟨hrun, hstarts⟩ | ⟨-, hidle, hrun, hstarts⟩ | ⟨-, hrun, hstarts⟩ := heffect.running p
    · rw [hstarts, hrun]
      exact hold
    · rw [hidle] at hold
      simp [hstarts, hrun, hold]
    · simp [hstarts, hrun]
  · obtain ⟨hwait, htimer⟩ := waiting_before h he hwait
    exact htimer.trans (h.timer hwait)
  · obtain ⟨hwait, -⟩ := waiting_before h he hwait
    obtain ⟨hrun, -⟩ | ⟨rfl, -⟩ | ⟨-, hrun, -⟩ := heffect.running p
    · exact hrun.trans (h.running hwait p)
    · obtain ⟨w, limit, a, route, rest, -, hw⟩ | ⟨-, hp⟩ := hby
      · exact absurd rfl (h.call hwait w a route _ rest hw p)
      · rw [h.timer hwait] at hp
        cases hp
    · exact hrun
  · obtain ⟨hwait, -⟩ := waiting_before h he hwait
    cases became hw with
    | stayed _ hold => exact h.call hwait w a route pc rest hold p
    | received _ _ _ _ hpc | nextRoute _ _ _ _ _ hpc =>
      rw [hpc]
      simp
    | stepped limit pc' _ _ hret _ hpc =>
      intro hrun
      cases (state_of_runAG hret (hpc.symm.trans hrun)).symm.trans hwait

/-! ### No group is left out -/

/-- The busy workers are those of the dispatcher, and the maps in use are those of the
routes of the tree. -/
structure RoutesInv (root : Route) (n : ℕ) (s : State) : Prop where
  worker : ∀ w a route pc rest, s.workers w = .busy a route pc rest → w < n
  call : ∀ w a route pc rest, s.workers w = .busy a route pc rest →
    ∀ r ∈ route :: rest, r.idx ≤ root.idx
  load : ∀ i k p, s.shared.mem.load i k = some p → i ≤ root.idx

omit [LabelHash] in
theorem routesInv_init : RoutesInv root n (init : State) where
  worker w a route pc rest h := by cases h
  call w a route pc rest h := by cases h
  load i k p h := by simp [init, Memory.load] at h

theorem routesInv_next (hroot : root.Within root.idx) (hinv : Inv S s) (h : RoutesInv root n s)
    (he : Enabled n S s op) : RoutesInv root n (next root s op) where
  worker w a route pc rest hw := by
    cases became hw with
    | received chan hop =>
      subst hop
      exact he.1
    | stayed _ hold | nextRoute _ _ _ _ hold | stepped _ _ _ hold => exact h.worker w _ _ _ _ hold
  call w a route pc rest hw := by
    cases became hw with
    | stayed _ hold => exact h.call w a route pc rest hold
    | received chan _ _ hnodes _ => exact hnodes ▸ hroot.matchNodes a.labels
    | nextRoute limit route' outcome _ hold _ =>
      exact fun r hr => h.call w a route' _ _ hold r (List.mem_cons_of_mem _ hr)
    | stepped limit pc' _ hold => exact h.call w a route pc' rest hold
  load i k p hload := by
    obtain ⟨act, heffect, hby⟩ := next_effect root hinv he
    obtain hold | ⟨rfl, hidx, -⟩ := heffect.load_or_publish hload
    · exact h.load i k p hold
    · obtain ⟨w, limit, a, route, pc, rest, -, hw, hp⟩ := hby
      rw [← hidx, ((hinv.call w a route pc rest hw).fresh hp).idx]
      exact h.call w a route pc rest hw route List.mem_cons_self

/-- The dispatcher has not been stopped, and when it runs, every group in a map is
running, or the call that stored it will still look at the state, or it is ahead of
the sweep. -/
structure SweepInv (s : State) : Prop where
  state : s.shared.state = .waitingToStart ∨ s.shared.state = .running ∧ s.timer ≠ .waiting
  group : s.shared.state = .running → ∀ i k p, s.shared.mem.load i k = some p →
    s.shared.mem.destroyed p = false →
    (s.shared.mem.heap p).running = true ∨
      (∃ w a route pc rest, s.workers w = .busy a route pc rest ∧ pc.published = some p) ∨
      s.timer.Ahead i k p

omit [LabelHash] in
theorem sweepInv_init : SweepInv (init : State) where
  state := Or.inl rfl
  group h := by cases h

/-- The step that stores a group leaves its call with the group still to be started. -/
theorem published_of_load {limit : ℤ} {sh : Shared} {Q : Alert → Prop} (hm : sh.mem.WellFormed Q)
    (hfresh : Fresh sh.mem a route p) (hpc : pc.created = some p)
    (hload : (groupAlert a route limit sh pc).1.mem.load i k = some p) :
    (groupAlert a route limit sh pc).2.published = some p := by
  have hnot : sh.mem.load i k ≠ some p := fun h => hfresh.unmapped (hm.isMapped h)
  cases pc with
  | compareAndSwap ag el retries =>
    obtain rfl := Option.some.inj hpc
    by_cases hel : sh.mem.load route.idx (groupKey a route) = some el
    · simp [groupAlert, hel, CallPC.published]
    · simp only [groupAlert, if_neg hel] at hload
      exact absurd hload hnot
  | loadOrStore ag retries =>
    obtain rfl := Option.some.inj hpc
    cases hel : sh.mem.load route.idx (groupKey a route) with
    | none => simp [groupAlert, hel, CallPC.published]
    | some el =>
      simp only [groupAlert, hel] at hload
      exact absurd hload hnot
  | insertExisting ag el retries =>
    simp only [groupAlert] at hload
    split at hload <;> exact absurd hload hnot
  | _ => cases hpc

/-- A call keeps the group it has stored until it has started it. -/
theorem published_step {limit : ℤ} {sh : Shared} (hstate : sh.state = .running)
    (hpc : pc.published = some p) :
    (groupAlert a route limit sh pc).2.published = some p ∨
      ((groupAlert a route limit sh pc).1.mem.heap p).running = true := by
  cases pc with
  | cancelOld ag el | countLen ag | countNum ag => exact Or.inl hpc
  | loadState ag =>
    simp only [groupAlert, if_pos hstate]
    exact Or.inl hpc
  | runAG ag =>
    obtain rfl := Option.some.inj hpc
    refine Or.inr ?_
    simp only [groupAlert, startGroup]
    split_ifs with hrun
    · exact hrun
    · simp [AggrGroup.started]
  | _ => cases hpc

theorem published_next (hstate : s.shared.state = .running) (he : Enabled n S s op)
    (hw : s.workers w = .busy a route pc rest) (hpc : pc.published = some p) :
    ((next root s op).shared.mem.heap p).running = true ∨
      ∃ w a route pc rest, (next root s op).workers w = .busy a route pc rest ∧
        pc.published = some p := by
  by_cases hcall : ∃ limit, op = .call w limit
  · obtain ⟨limit, rfl⟩ := hcall
    have hnext : next root s (.call w limit) = _ := next_call hw (by
      rintro outcome rfl
      cases hpc)
    have hstep : (groupAlert a route limit s.shared pc).2.published = some p ∨
        ((groupAlert a route limit s.shared pc).1.mem.heap p).running = true :=
      published_step hstate hpc
    rw [hnext]
    obtain hpub | hstarted := hstep
    · exact Or.inr ⟨w, a, route, _, rest, by simp, hpub⟩
    · exact Or.inl hstarted
  · exact Or.inr ⟨w, a, route, pc, rest,
      busy_stays he hw fun limit hlimit => hcall ⟨limit, hlimit⟩, hpc⟩

omit [Regexp] [LabelHash] in
theorem mem_keys_of_load {m : Memory} (h : m.load i k = some p) : k ∈ (m.groups i).keys := by
  rw [Finmap.mem_keys, ← Finmap.lookup_isSome]
  exact Option.isSome_iff_exists.mpr ⟨p, h⟩

/-- A group ahead of the sweep stays ahead of it until the sweep starts it. -/
theorem ahead_next (hstart : StartInv s) (hroutes : RoutesInv root n s) (he : Enabled n S s op)
    (hload : s.shared.mem.load i k = some p) (h : s.timer.Ahead i k p) :
    (next root s op).timer.Ahead i k p ∨ ((next root s op).shared.mem.heap p).running = true := by
  cases timerStep root he with
  | same _ htimer | stopped _ _ htimer => exact Or.inl (htimer ▸ h)
  | fired _ hwait =>
    rw [hstart.timer hwait] at h
    exact h.elim
  | tooLate _ _ hwait =>
    rw [hwait] at h
    exact h.elim
  | read j todo picked key _ hold hnew =>
    rw [hold] at h
    rw [hnew]
    refine Or.inl ?_
    obtain hp | ⟨rfl, hk⟩ | hlt := h
    · exact Or.inl (List.mem_append_right _ hp)
    · by_cases hkey : k = key
      · subst hkey
        exact Or.inl (List.mem_append_left _ (by simp [hload]))
      · exact Or.inr (Or.inl ⟨rfl, Finset.mem_erase.mpr ⟨hkey, hk⟩⟩)
    · exact Or.inr (Or.inr hlt)
  | started j todo picked q hshared hold hnew =>
    rw [hold] at h
    rw [hnew, hshared]
    by_cases hpq : p = q
    · subst hpq
      refine Or.inr ?_
      simp only [startGroup]
      split_ifs with hrun
      · exact hrun
      · simp [AggrGroup.started]
    · refine Or.inl ?_
      obtain hp | hahead := h
      · exact Or.inl ((List.mem_erase_of_ne hpq).mpr hp)
      · exact Or.inr hahead
  | nextRoute j _ hold hnew =>
    rw [hold] at h
    obtain hp | ⟨-, hk⟩ | hlt := h
    · cases hp
    · simp at hk
    · have hle := hroutes.load i k p hload
      rw [hnew, if_pos (by omega)]
      refine Or.inl ?_
      obtain rfl | hne := eq_or_ne i (j + 1)
      · exact Or.inr (Or.inl ⟨rfl, mem_keys_of_load hload⟩)
      · exact Or.inr (Or.inr (by omega))

theorem sweepInv_next (hinv : Inv S s) (hstart : StartInv s) (hroutes : RoutesInv root n s)
    (h : SweepInv s) (he : Enabled n S s op) (hop : op ≠ .stop) :
    SweepInv (next root s op) where
  state := by
    have hsweeping {j todo picked} (htimer : s.timer = .sweeping j todo picked) :
        s.shared.state = .running := by
      obtain hwait | ⟨hrun, -⟩ := h.state
      · cases htimer.symm.trans (hstart.timer hwait)
      · exact hrun
    cases timerStep root he with
    | same hstate htimer =>
      rw [hstate, htimer]
      exact h.state
    | fired _ _ hstate _ htimer => exact Or.inr ⟨hstate, by simp [htimer]⟩
    | tooLate hnot _ hwait =>
      obtain hwait' | ⟨-, hnot'⟩ := h.state
      · exact absurd hwait' hnot
      · exact absurd hwait hnot'
    | read j todo picked key hshared hold hnew =>
      exact Or.inr ⟨by rw [hshared, hsweeping hold], by simp [hnew]⟩
    | started j todo picked q hshared hold hnew =>
      exact Or.inr ⟨by rw [hshared, hsweeping hold], by simp [hnew]⟩
    | nextRoute j hshared hold hnew =>
      refine Or.inr ⟨by rw [hshared, hsweeping hold], ?_⟩
      rw [hnew]
      split_ifs <;> simp
    | stopped hstop => exact absurd hstop hop
  group hrun i k p hload hlive := by
    by_cases hfired : s.shared.state = .waitingToStart
    · -- The state has just been set: the sweep has all groups before it.
      cases timerStep root he with
      | fired _ _ _ hmem htimer =>
        rw [hmem] at hload
        rw [htimer]
        refine Or.inr (Or.inr ?_)
        obtain rfl | hpos := Nat.eq_zero_or_pos i
        · exact Or.inr (Or.inl ⟨rfl, mem_keys_of_load hload⟩)
        · exact Or.inr (Or.inr hpos)
      | same hstate => cases (hstate.trans hfired).symm.trans hrun
      | tooLate hnot => exact absurd hfired hnot
      | read j todo picked key _ hold | started j todo picked q _ hold | nextRoute j _ hold =>
        cases hold.symm.trans (hstart.timer hfired)
      | stopped hstop => exact absurd hstop hop
    · have hrunning : s.shared.state = .running := (h.state.resolve_left hfired).1
      obtain ⟨act, heffect, hby⟩ := next_effect root hinv he
      obtain hold | ⟨rfl, -, -⟩ := heffect.load_or_publish hload
      · obtain ⟨hlt, -, -⟩ := hinv.mem.mapped _ _ _ hold
        have hlive' : s.shared.mem.destroyed p = false := by
          cases hd : s.shared.mem.destroyed p with
          | false => rfl
          | true => cases (heffect.destroyed hlt hd).symm.trans hlive
        obtain hrun' | ⟨w, a, route, pc, rest, hw, hpc⟩ | hahead :=
          h.group hrunning i k p hold hlive'
        · obtain ⟨heq, -⟩ | ⟨-, -, heq, -⟩ | ⟨halloc, -⟩ := heffect.running p
          · exact Or.inl (heq.trans hrun')
          · exact Or.inl heq
          · omega
        · obtain hstarted | hpub := published_next hrunning he hw hpc
          · exact Or.inl hstarted
          · exact Or.inr (Or.inl hpub)
        · obtain hahead | hstarted := ahead_next hstart hroutes he hold hahead
          · exact Or.inr (Or.inr hahead)
          · exact Or.inl hstarted
      · obtain ⟨w, limit, a, route, pc, rest, rfl, hw, hp⟩ := hby
        have hnext : next root s (.call w limit) = _ := next_call hw (by
          rintro outcome rfl
          cases hp)
        rw [hnext] at hload
        have hpub := published_of_load hinv.mem ((hinv.call w a route pc rest hw).fresh hp) hp hload
        refine Or.inr (Or.inl ⟨w, a, route, _, rest, ?_, hpub⟩)
        rw [hnext]
        simp

section
variable {ops : List Op} (hrun : Run (Fires (Enabled n S) (next root)) init ops s)
include hrun

theorem startInv_run : StartInv s := by
  have hend := hrun.invariant (I := fun s => Inv S s ∧ StartInv s)
    (fun s op t hs hstep => by
      obtain ⟨he, rfl⟩ := hstep
      exact ⟨inv_next hs.1 he, startInv_next hs.1 hs.2 he⟩)
    ⟨inv_init, startInv_init⟩
  exact hend.2

theorem routesInv_run (hroot : root.Within root.idx) : RoutesInv root n s := by
  have hend := hrun.invariant (I := fun s => Inv S s ∧ RoutesInv root n s)
    (fun s op t hs hstep => by
      obtain ⟨he, rfl⟩ := hstep
      exact ⟨inv_next hs.1 he, routesInv_next hroot hs.1 hs.2 he⟩)
    ⟨inv_init, routesInv_init⟩
  exact hend.2

theorem sweepInv_run (hroot : root.Within root.idx) (hstop : Op.stop ∉ ops) : SweepInv s := by
  have hgoes : Run (Guarded (fun _ op => op ≠ .stop) (Fires (Enabled n S) (next root)))
      init ops s := hrun.guarded fun op hop heq => hstop (heq ▸ hop)
  have hend := hgoes.invariant
    (I := fun s => Inv S s ∧ StartInv s ∧ RoutesInv root n s ∧ SweepInv s)
    (fun s op t hs hstep => by
      obtain ⟨hop, he, rfl⟩ := hstep
      obtain ⟨hinv, hstart, hroutes, hsweep⟩ := hs
      exact ⟨inv_next hinv he, startInv_next hinv hstart he,
        routesInv_next hroot hinv hroutes he, sweepInv_next hinv hstart hroutes hsweep he hop⟩)
    ⟨inv_init, startInv_init, routesInv_init, sweepInv_init⟩
  exact hend.2.2.2

end

/-- The loop of a group is started at most once, and not before the state of the
dispatcher was set to running. Unless the dispatcher is stopped, the state is running
whenever a loop has been started, and once the sweep of the start timer is over, every
live group in a map whose creating call has returned has been started. -/
theorem groups_started_once {ways : List ℕ → Way} {cr : RouteConfig} {c : ℕ}
    (hroot : newRoute ways [] none 0 cr = some (root, c)) {ops : List Op}
    (hrun : Run (Fires (Enabled n S) (next root)) init ops s) :
    (∀ p, (s.shared.mem.heap p).starts ≤ 1) ∧
    (∀ p, 0 < (s.shared.mem.heap p).starts → s.shared.state ≠ .waitingToStart) ∧
    (Op.stop ∉ ops →
      (∀ p, 0 < (s.shared.mem.heap p).starts → s.shared.state = .running) ∧
      (s.timer = .finished → ∀ i k p, s.shared.mem.load i k = some p →
        s.shared.mem.destroyed p = false → Returned s p → (s.shared.mem.heap p).starts = 1)) := by
  have hstart := startInv_run hrun
  have hwaiting : ∀ p, 0 < (s.shared.mem.heap p).starts → s.shared.state ≠ .waitingToStart := by
    intro p hp hwait
    rw [hstart.starts p, hstart.running hwait p] at hp
    simp at hp
  refine ⟨fun p => ?_, hwaiting, fun hstop => ?_⟩
  · rw [hstart.starts p]
    split_ifs <;> omega
  · have hsweep := sweepInv_run hrun (newRoute_within hroot).2.2 hstop
    refine ⟨fun p hp => (hsweep.state.resolve_left (hwaiting p hp)).1, ?_⟩
    intro htimer i k p hload hlive hreturned
    have hrunning : s.shared.state = .running := by
      obtain hwait | ⟨hrunning, -⟩ := hsweep.state
      · cases htimer.symm.trans (hstart.timer hwait)
      · exact hrunning
    obtain hrun | ⟨w, a, route, pc, rest, hw, hpc⟩ | hahead :=
      hsweep.group hrunning i k p hload hlive
    · simp [hstart.starts p, hrun]
    · refine absurd ?_ (hreturned w a route pc rest hw)
      cases pc <;> first | exact hpc | cases hpc
    · rw [htimer] at hahead
      exact hahead.elim

end

section
attribute [local instance] noRegexp fnvLabelHash

/-- The configuration with nothing but a root. -/
def rootConfig : RouteConfig :=
  .node ⟨[], none, false, ∅, ∅, [], [], [], false, none, none, none, ∅⟩ []

/-- A call stores a group and returns before the start timer fires; the sweep starts the
group. -/
def startRun : List Op :=
  [.deliver (nodeDown 0 2), .receive 0] ++ List.replicate 6 (.call 0 0) ++
    [.startTimer, .sweep (fingerprint ∅), .sweepStart 0, .sweepNext]

theorem groups_started_once_before_timer :
    let s := startRun.foldl (next singleRoute) init
    s.timer = .finished ∧ (s.shared.mem.heap 0).starts = 1 := by
  intro s
  have hroot : newRoute (fun _ => ⟨[], [], id⟩) [] none 0 rootConfig = some (singleRoute, 1) := rfl
  have hrun : Run (Fires (Enabled 1 {nodeLabels}) (next singleRoute)) init startRun s :=
    Run.of_feasible (by decide +kernel)
  have hreturned : Returned s 0 := by
    intro w a route pc rest hw
    have hlt := (routesInv_run hrun (newRoute_within hroot).2.2).worker w a route pc rest hw
    obtain rfl : w = 0 := by omega
    cases hw
    decide
  refine ⟨by decide +kernel, ?_⟩
  exact ((groups_started_once hroot hrun).2.2 (by simp [startRun])).2 (by decide +kernel) 0
    (fingerprint ∅) 0 (by decide +kernel) (by decide +kernel) hreturned

end

end Dispatcher

end Alertmanager
