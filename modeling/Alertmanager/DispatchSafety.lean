import Alertmanager.Dispatcher

/-!
# No alert is lost by the dispatcher

A group leaves its map only after its store was destroyed, and a store is destroyed
only when it is empty. What makes this hold in every interleaving is said once for
each position of a call of `groupAlert`: the group it has created is known to no one
else, the group it found is still in the map unless it was destroyed, and the group
it is about to swap out was destroyed. Every action on the memory keeps these facts
for all other calls, because a live group stays in its map and a group nobody has
seen is not touched.
-/
namespace Alertmanager.Dispatcher

/-- The alert has been put into a group stored in the map. -/
def CallPC.succeeded : CallPC → Bool
  | cancelOld .. | countLen _ | countNum _ | loadState _ | runAG _ | returned .inserted => true
  | _ => false

/-- The group that only this call knows. -/
def CallPC.created : CallPC → Option ℕ
  | compareAndSwap ag _ _ | loadOrStore ag _ | insertExisting ag _ _ => some ag
  | _ => none

/-- The group of the map that the call is about to insert into. -/
def CallPC.found : CallPC → Option ℕ
  | insertLoaded el | insertExisting _ el _ => some el
  | _ => none

section
variable [Regexp] [LabelHash] {m m' : Memory} {act : Memory.Action} {a : Alert} {route : Route}
  {p : ℕ} {Q : Alert → Prop}

/-! ### What a call knows about the groups it holds -/

/-- A group that was in the map under the key of the alert. -/
structure Found (m : Memory) (a : Alert) (route : Route) (p : ℕ) : Prop where
  lt : p < m.alloc
  idx : (m.heap p).route = route.idx
  key : fingerprint (m.heap p).labels = groupKey a route
  mapped : m.destroyed p = false → m.Mapped p

/-- A group that was in a map. -/
structure Seen (m : Memory) (p : ℕ) : Prop where
  lt : p < m.alloc
  mapped : m.destroyed p = false → m.Mapped p

/-- A group with the alert alone that nobody else has seen. -/
structure Fresh (m : Memory) (a : Alert) (route : Route) (p : ℕ) : Prop where
  lt : p < m.alloc
  eq : m.heap p = .first a route
  unmapped : ¬ m.Mapped p

structure Gone (m : Memory) (p : ℕ) : Prop where
  lt : p < m.alloc
  destroyed : m.destroyed p = true

/-- What holds at each position of a call. -/
def CallOk (m : Memory) (a : Alert) (route : Route) : CallPC → Prop
  | .load | .create none | .returned _ => True
  | .insertLoaded el => Found m a route el
  | .create (some el) => Gone m el
  | .compareAndSwap ag el _ => Fresh m a route ag ∧ Gone m el
  | .loadOrStore ag _ => Fresh m a route ag
  | .insertExisting ag el _ => Fresh m a route ag ∧ Found m a route el
  | .cancelOld ag el => Found m a route ag ∧ Gone m el
  | .countLen ag | .countNum ag | .loadState ag | .runAG ag => Found m a route ag

/-- The version `a` is stored in the group of its labels for the route. -/
def Holds (m : Memory) (a : Alert) (route : Route) : Prop :=
  ∃ p, m.load route.idx (groupKey a route) = some p ∧
    m.stored p (fingerprint a.labels) = some a

theorem Fresh.idx (h : Fresh m a route p) : (m.heap p).route = route.idx := by
  rw [h.eq, AggrGroup.first_eq]
  rfl

theorem Fresh.key (h : Fresh m a route p) :
    fingerprint (m.heap p).labels = groupKey a route := by
  rw [h.eq, AggrGroup.first_eq]
  rfl

theorem Fresh.live (h : Fresh m a route p) : m.destroyed p = false := by
  rw [Memory.destroyed, h.eq, AggrGroup.first_eq]
  rfl

/-- The alert is the only one in the new group. -/
theorem Fresh.stored (h : Fresh m a route p) (f : Fingerprint) :
    m.stored p f = if f = fingerprint a.labels then some a else none := by
  rw [Memory.stored, h.eq, AggrGroup.first_eq]
  simp only [AggrGroup.withAlert, AggrGroup.newAggrGroup, AlertStore.new, GoMap.lookup_insert_eq,
    Finmap.lookup_empty]

theorem Fresh.not_exposed (h : Fresh m a route p) : ¬ m.Exposed p := by
  rintro (hd | hpc | hm)
  · rw [h.live] at hd
    cases hd
  · rw [h.eq, AggrGroup.first_eq] at hpc
    exact hpc rfl
  · exact h.unmapped hm

theorem Found.seen (hf : Found m a route p) : Seen m p := ⟨hf.lt, hf.mapped⟩

omit [Regexp] in
theorem Seen.exposed (hs : Seen m p) : m.Exposed p := by
  cases hd : m.destroyed p with
  | true => exact Or.inl hd
  | false => exact Or.inr (Or.inr (hs.mapped hd))

theorem Seen.effect (hs : Seen m p) (h : Memory.Effect m act m') : Seen m' p := by
  obtain ⟨hr, hl⟩ := h.home hs.lt
  refine ⟨hs.lt.trans_le h.alloc_le, fun hlive => ?_⟩
  have hlive' : m.destroyed p = false := by
    cases hd : m.destroyed p with
    | false => rfl
    | true =>
      rw [h.destroyed hs.lt hd] at hlive
      cases hlive
  rw [Memory.Mapped, hr, hl]
  exact h.load (hs.mapped hlive') hlive'

theorem Found.effect (hf : Found m a route p) (h : Memory.Effect m act m') :
    Found m' a route p := by
  obtain ⟨hr, hl⟩ := h.home hf.lt
  exact ⟨hf.lt.trans_le h.alloc_le, hr.trans hf.idx, by rw [hl, hf.key],
    (hf.seen.effect h).mapped⟩

theorem Gone.effect (hg : Gone m p) (h : Memory.Effect m act m') : Gone m' p :=
  ⟨hg.lt.trans_le h.alloc_le, h.destroyed hg.lt hg.destroyed⟩

theorem Fresh.effect (hf : Fresh m a route p) (h : Memory.Effect m act m')
    (hact : act ≠ .publish p) : Fresh m' a route p := by
  obtain ⟨heq, hnot⟩ := h.hidden hf.lt hf.not_exposed hact
  exact ⟨hf.lt.trans_le h.alloc_le, heq.trans hf.eq, hnot⟩

/-- An action that does not publish the group of a call keeps what the call knows. -/
theorem CallOk.effect {pc : CallPC} (hpc : CallOk m a route pc) (h : Memory.Effect m act m')
    (hact : ∀ p, pc.created = some p → act ≠ .publish p) : CallOk m' a route pc := by
  cases pc with
  | load | returned _ => trivial
  | insertLoaded _ | countLen _ | countNum _ | loadState _ | runAG _ => exact Found.effect hpc h
  | create el =>
    cases el with
    | none => trivial
    | some el => exact Gone.effect hpc h
  | compareAndSwap ag el _ => exact ⟨hpc.1.effect h (hact ag rfl), hpc.2.effect h⟩
  | loadOrStore ag _ => exact Fresh.effect hpc h (hact ag rfl)
  | insertExisting ag el _ => exact ⟨hpc.1.effect h (hact ag rfl), hpc.2.effect h⟩
  | cancelOld ag el => exact ⟨hpc.1.effect h, hpc.2.effect h⟩

theorem CallOk.fresh {pc : CallPC} (hpc : CallOk m a route pc) (hp : pc.created = some p) :
    Fresh m a route p := by
  cases pc with
  | compareAndSwap ag el _ | insertExisting ag el _ =>
    obtain rfl := Option.some.inj hp
    exact hpc.1
  | loadOrStore ag _ =>
    obtain rfl := Option.some.inj hp
    exact hpc
  | _ => cases hp

theorem CallOk.isFound {pc : CallPC} (hpc : CallOk m a route pc) (hp : pc.found = some p) :
    Found m a route p := by
  cases pc with
  | insertLoaded el =>
    obtain rfl := Option.some.inj hp
    exact hpc
  | insertExisting ag el _ =>
    obtain rfl := Option.some.inj hp
    exact hpc.2
  | _ => cases hp

theorem callOk_retry {retries : ℕ} {again : ℕ → CallPC}
    (h : ∀ n, CallOk m a route (again n)) : CallOk m a route (retry retries again) := by
  unfold retry
  split_ifs
  · trivial
  · exact h _

omit [Regexp] in
theorem seen_of_load {i : ℕ} {k : Fingerprint} (hm : m.WellFormed Q) (hload : m.load i k = some p) :
    Seen m p :=
  ⟨(hm.mapped _ _ _ hload).1, fun _ => hm.isMapped hload⟩

theorem found_of_load (hm : m.WellFormed Q)
    (hload : m.load route.idx (groupKey a route) = some p) : Found m a route p := by
  obtain ⟨hlt, hr, hl⟩ := hm.mapped _ _ _ hload
  exact ⟨hlt, hr, hl, fun _ => hm.isMapped hload⟩

/-! ### One step of a call -/

/-- The actions of a call at a position: it inserts its own alert into the group it
has found, and it publishes the group it has created. -/
def ByCall (a : Alert) (pc : CallPC) : Memory.Action → Prop
  | .silent | .touch _ => True
  | .insert p b => b = a ∧ pc.found = some p
  | .create b => b = a
  | .publish p => pc.created = some p
  | .start p => pc = .runAG p
  | .flush .. | .unpublish _ => False

/-- Starting a group that others can see does nothing when it is running. -/
theorem startGroup_effect (hp : m.Exposed p) :
    ∃ act, Memory.Effect m act (startGroup m p) ∧ (act = .silent ∨ act = .start p) := by
  cases hrun : (m.heap p).running with
  | true => exact ⟨.silent, by simpa [startGroup, hrun] using .silent m, Or.inl rfl⟩
  | false => exact ⟨.start p, by simpa [startGroup, hrun] using .start hp hrun, Or.inr rfl⟩

/-- What a step of a call does. -/
structure CallStep (m m' : Memory) (a : Alert) (route : Route) (pc pc' : CallPC)
    (act : Memory.Action) : Prop where
  effect : Memory.Effect m act m'
  byCall : ByCall a pc act
  ok : CallOk m' a route pc'
  created : ∀ p, pc'.created = some p → pc.created = some p ∨ p = m.alloc
  holds : pc'.succeeded = true → pc.succeeded = false → Holds m' a route

variable {pc pc' : CallPC}

theorem CallStep.silent (hok : CallOk m a route pc')
    (hcreated : ∀ p, pc'.created = some p → pc.created = some p)
    (hs : pc'.succeeded = true → pc.succeeded = true) :
    CallStep m m a route pc pc' .silent where
  effect := .silent m
  byCall := trivial
  ok := hok
  created p hp := Or.inl (hcreated p hp)
  holds h h' := by
    rw [hs h] at h'
    cases h'

/-- A round of the loop that ends without a group keeps the one the call has created,
or gives up. -/
theorem CallStep.retried {retries : ℕ} {again : ℕ → CallPC}
    (hok : ∀ n, CallOk m a route (again n)) (hcreated : ∀ n, (again n).created = pc.created)
    (hs : ∀ n, (again n).succeeded = false) :
    CallStep m m a route pc (retry retries again) .silent := by
  refine .silent (callOk_retry hok) ?_ ?_
  · intro p hp
    unfold retry at hp
    split_ifs at hp
    · cases hp
    · rwa [hcreated] at hp
  · intro h
    unfold retry at h
    split_ifs at h
    · cases h
    · rw [hs] at h
      cases h

theorem CallStep.insert (hf : Found m a route p) (hpc : pc.found = some p)
    (hlive : m.destroyed p = false) :
    CallStep m (m.setGroup p ((m.heap p).withAlert a)) a route pc (.returned .inserted)
      (.insert p a) where
  effect := .insert hlive (hf.mapped hlive)
  byCall := ⟨rfl, hpc⟩
  ok := trivial
  created p hp := by cases hp
  holds _ _ := by
    refine ⟨p, ?_, ?_⟩
    · rw [← hf.idx, ← hf.key]
      exact hf.mapped hlive
    · simp [Memory.stored, AggrGroup.withAlert]

/-- The insertion into a group found in the map, and what follows when the group
turns out to be destroyed. -/
theorem CallStep.insertFound (pc : CallPC) (hm : m.WellFormed Q) (hf : Found m a route p)
    (hpc : pc.found = some p) :
    (∃ ag, (m.heap p).insert a = some ag ∧
      CallStep m (m.setGroup p ag) a route pc (.returned .inserted) (.insert p a)) ∨
    (m.heap p).insert a = none ∧ Gone m p := by
  cases hd : m.destroyed p with
  | true => exact Or.inr ⟨AggrGroup.insert_of_destroyed hd a, hf.lt, hd⟩
  | false =>
    exact Or.inl ⟨_, AggrGroup.insert_of_live hd (hm.group p).noLimit a, .insert hf hpc hd⟩

theorem CallStep.publish (hf : Fresh m a route p) (hpc : pc.created = some p)
    (hpc' : pc'.created = none)
    (hold : ∀ q, m.load route.idx (groupKey a route) = some q → m.destroyed q = true)
    (hok : ∀ m', Memory.Effect m (.publish p) m' → Found m' a route p → CallOk m' a route pc') :
    CallStep m (m.store route.idx (groupKey a route) p) a route pc pc' (.publish p) := by
  have heffect : Memory.Effect m (.publish p) (m.store route.idx (groupKey a route) p) := by
    have h : Memory.Effect m (.publish p)
        (m.store (m.heap p).route (fingerprint (m.heap p).labels) p) :=
      .publish hf.lt hf.live (by rw [hf.idx, hf.key]; exact hold)
    rwa [hf.idx, hf.key] at h
  have hload : (m.store route.idx (groupKey a route) p).load route.idx (groupKey a route) =
      some p := by simp
  have hfound : Found (m.store route.idx (groupKey a route) p) a route p := by
    refine ⟨hf.lt, hf.idx, hf.key, fun _ => ?_⟩
    rw [Memory.Mapped, Memory.heap_store, hf.idx, hf.key]
    exact hload
  refine ⟨heffect, hpc, hok _ heffect hfound, ?_, fun _ _ => ⟨p, hload, ?_⟩⟩
  · intro q hq
    rw [hpc'] at hq
    cases hq
  · exact (hf.stored (fingerprint a.labels)).trans (if_pos rfl)

theorem fresh_create (hm : m.WellFormed Q) (a : Alert) (route : Route) :
    Fresh (m.create (.first a route)) a route m.alloc := by
  refine ⟨Nat.lt_succ_self _, by simp, fun hmap => ?_⟩
  rw [Memory.Mapped, Memory.load_create] at hmap
  exact absurd (hm.mapped _ _ _ hmap).1 (lt_irrefl _)

/-- Every step of a call is one action and keeps what the call knows. -/
theorem groupAlert_step (hm : m.WellFormed Q) (limit : ℤ) {sh : Shared} (hsh : sh.mem = m)
    (hpc : CallOk m a route pc) :
    ∃ act, CallStep m (groupAlert a route limit sh pc).1.mem a route pc
      (groupAlert a route limit sh pc).2 act := by
  subst hsh
  cases pc with
  | load =>
    cases hload : sh.mem.load route.idx (groupKey a route) with
    | none =>
      simp only [groupAlert, hload]
      exact ⟨_, .silent trivial (by simp [CallPC.created]) (by simp [CallPC.succeeded])⟩
    | some el =>
      simp only [groupAlert, hload]
      exact ⟨_, .silent (found_of_load hm hload) (by simp [CallPC.created])
        (by simp [CallPC.succeeded])⟩
  | insertLoaded el =>
    obtain ⟨ag, hins, hstep⟩ | ⟨hins, hgone⟩ := CallStep.insertFound (.insertLoaded el) hm hpc rfl
    · simp only [groupAlert, hins]
      exact ⟨_, hstep⟩
    · simp only [groupAlert, hins]
      exact ⟨_, .silent hgone (by simp [CallPC.created]) (by simp [CallPC.succeeded])⟩
  | create el =>
    by_cases hlim : 0 < limit ∧ limit ≤ sh.aggrGroupsNum
    · simp only [groupAlert, if_pos hlim]
      exact ⟨_, .silent trivial (by simp [CallPC.created]) (by simp [CallPC.succeeded])⟩
    · simp only [groupAlert, if_neg hlim]
      have heffect : Memory.Effect sh.mem (.create a) (sh.mem.create (.first a route)) :=
        .create route
      have hfresh := fresh_create hm a route
      cases el with
      | none =>
        exact ⟨_, heffect, rfl, hfresh, by simp [CallPC.created],
          by simp [CallPC.succeeded]⟩
      | some el =>
        exact ⟨_, heffect, rfl, ⟨hfresh, Gone.effect hpc heffect⟩, by simp [CallPC.created],
          by simp [CallPC.succeeded]⟩
  | compareAndSwap ag el retries =>
    obtain ⟨hfresh, hgone⟩ := hpc
    by_cases hload : sh.mem.load route.idx (groupKey a route) = some el
    · simp only [groupAlert, if_pos hload]
      refine ⟨_, .publish hfresh rfl rfl (fun q hq => ?_) fun m' he hfound =>
        ⟨hfound, hgone.effect he⟩⟩
      obtain rfl : el = q := Option.some.inj (hload.symm.trans hq)
      exact hgone.destroyed
    · simp only [groupAlert, if_neg hload]
      exact ⟨_, .retried (fun _ => hfresh) (fun _ => rfl) fun _ => rfl⟩
  | loadOrStore ag retries =>
    cases hload : sh.mem.load route.idx (groupKey a route) with
    | none =>
      simp only [groupAlert, hload]
      exact ⟨_, .publish hpc rfl rfl (by simp [hload]) fun _ _ hfound => hfound⟩
    | some el =>
      simp only [groupAlert, hload]
      exact ⟨_, .silent ⟨hpc, found_of_load hm hload⟩ (by simp [CallPC.created])
        (by simp [CallPC.succeeded])⟩
  | insertExisting ag el retries =>
    obtain ⟨hfresh, hfound⟩ := hpc
    obtain ⟨ag', hins, hstep⟩ | ⟨hins, hgone⟩ :=
      CallStep.insertFound (.insertExisting ag el retries) hm hfound rfl
    · simp only [groupAlert, hins]
      exact ⟨_, hstep⟩
    · simp only [groupAlert, hins]
      exact ⟨_, .retried (fun _ => ⟨hfresh, hgone⟩) (fun _ => rfl) fun _ => rfl⟩
  | cancelOld ag el =>
    obtain ⟨hfound, hgone⟩ := hpc
    have heffect : Memory.Effect sh.mem (.touch el)
        (sh.mem.setGroup el { sh.mem.heap el with cancelled := true }) :=
      .touch (Or.inl hgone.destroyed) rfl rfl rfl (fun _ _ h => Or.inl h) rfl rfl
    exact ⟨_, heffect, trivial, hfound.effect heffect, by simp [groupAlert, CallPC.created],
      by simp [CallPC.succeeded]⟩
  | countLen ag | countNum ag =>
    exact ⟨_, .silent hpc (by simp [groupAlert, CallPC.created]) (by simp [CallPC.succeeded])⟩
  | loadState ag =>
    by_cases hrun : sh.state = .running
    · simp only [groupAlert, if_pos hrun]
      exact ⟨_, .silent hpc (by simp [CallPC.created]) (by simp [CallPC.succeeded])⟩
    · simp only [groupAlert, if_neg hrun]
      exact ⟨_, .silent trivial (by simp [CallPC.created]) (by simp [CallPC.succeeded])⟩
  | runAG ag =>
    obtain ⟨act, heffect, hact⟩ := startGroup_effect (Found.seen hpc).exposed
    refine ⟨act, heffect, ?_, trivial, by simp [groupAlert, CallPC.created],
      by simp [CallPC.succeeded]⟩
    obtain rfl | rfl := hact
    · trivial
    · exact rfl
  | returned outcome => exact ⟨_, .silent trivial (by simp [groupAlert]) (by simp [groupAlert])⟩

end

/-! ### The invariant of the machine -/

theorem routeAlert_eq_busy [Regexp] {a b : Alert} {routes rest : List Route} {route : Route}
    {pc : CallPC}
    (h : routeAlert a routes = .busy b route pc rest) :
    b = a ∧ routes = route :: rest ∧ pc = .load := by
  cases routes with
  | nil => cases h
  | cons r rs =>
    simp only [routeAlert, Worker.busy.injEq] at h
    obtain ⟨rfl, rfl, rfl, rfl⟩ := h
    exact ⟨rfl, rfl, rfl⟩

section
variable [Regexp] [LabelHash] {root : Route} {n : ℕ} {S : Finset LabelSet} {s : State} {op : Op}

def MaintenanceOk (m : Memory) : MaintenancePC → Prop
  | .idle | .countLen _ | .countNum => True
  | .visiting _ ag => ag < m.alloc
  | .cancelling _ ag | .stopping _ ag | .deleting _ ag => Gone m ag

/-- The memory is well formed, every call knows what its position says, no two calls
have created the same group, and the sweep of the start timer has its groups from the
maps. -/
structure Inv (S : Finset LabelSet) (s : State) : Prop where
  mem : s.shared.mem.WellFormed (· ∈ s.received)
  labels : ∀ a ∈ s.delivered, a.labels ∈ S
  received : ∀ w a route pc rest, s.workers w = .busy a route pc rest → a ∈ s.received
  call : ∀ w a route pc rest, s.workers w = .busy a route pc rest →
    CallOk s.shared.mem a route pc
  created : ∀ w w' a a' route route' pc pc' rest rest' p,
    s.workers w = .busy a route pc rest → s.workers w' = .busy a' route' pc' rest' →
    pc.created = some p → pc'.created = some p → w = w'
  maintenance : ∀ t, MaintenanceOk s.shared.mem (s.maintenance t)
  timer : ∀ p ∈ s.timer.picked, Seen s.shared.mem p

theorem inv_init : Inv S (init : State) where
  mem := by
    refine ⟨fun i k p h => ?_, fun p => ⟨?_, le_rfl, ?_, fun _ _ h => h.elim⟩⟩
    · simp [init, Memory.load] at h
    · intro h
      cases h
    · intro f a h
      simp [init, AlertStore.new] at h
  labels a h := by simp [State.delivered, init] at h
  received w a route pc rest h := by cases h
  call w a route pc rest h := by cases h
  created w w' a a' route route' pc pc' rest rest' p h := by cases h
  maintenance t := trivial
  timer p h := by cases h

/-- Who takes an action on the memory. -/
def Performs (s : State) (op : Op) : Memory.Action → Prop
  | .silent | .touch _ | .unpublish _ => True
  | .insert p a =>
    ∃ w limit route pc rest, op = .call w limit ∧ s.workers w = .busy a route pc rest ∧
      pc.found = some p
  | .create a =>
    ∃ w limit route pc rest, op = .call w limit ∧ s.workers w = .busy a route pc rest
  | .publish p =>
    ∃ w limit a route pc rest, op = .call w limit ∧ s.workers w = .busy a route pc rest ∧
      pc.created = some p
  | .start p =>
    (∃ w limit a route rest, op = .call w limit ∧ s.workers w = .busy a route (.runAG p) rest) ∨
      op = .sweepStart p ∧ p ∈ s.timer.picked
  | .flush p resolved =>
    ∃ now, op = .delete p ∧ (s.shared.mem.heap p).pc = .deleting now resolved

/-- How a worker comes to a position of a call. -/
inductive Became (root : Route) (s : State) (op : Op) (w : ℕ) (a : Alert) (route : Route)
    (pc : CallPC) (rest : List Route) : Prop
  | stayed : (∀ limit, op ≠ .call w limit) → s.workers w = .busy a route pc rest →
      Became root s op w a route pc rest
  | received (chan : List Alert) : op = .receive w → s.chan = a :: chan →
      root.matchNodes a.labels = route :: rest → pc = .load → Became root s op w a route pc rest
  | nextRoute (limit : ℤ) (route' : Route) (outcome : Outcome) : op = .call w limit →
      s.workers w = .busy a route' (.returned outcome) (route :: rest) → pc = .load →
      Became root s op w a route pc rest
  | stepped (limit : ℤ) (pc' : CallPC) : op = .call w limit →
      s.workers w = .busy a route pc' rest → (∀ outcome, pc' ≠ .returned outcome) →
      (next root s op).shared = (groupAlert a route limit s.shared pc').1 →
      pc = (groupAlert a route limit s.shared pc').2 → Became root s op w a route pc rest

theorem next_returned {w : ℕ} {limit : ℤ} {a : Alert} {route : Route} {outcome : Outcome}
    {rest : List Route} (hw : s.workers w = .busy a route (.returned outcome) rest) :
    next root s (.call w limit) =
      { s with workers := Function.update s.workers w (routeAlert a rest) } := by
  simp only [next, hw]

theorem next_call {w : ℕ} {limit : ℤ} {a : Alert} {route : Route} {pc : CallPC}
    {rest : List Route} (hw : s.workers w = .busy a route pc rest)
    (hpc : ∀ outcome, pc ≠ .returned outcome) :
    next root s (.call w limit) =
      { s with
        shared := (groupAlert a route limit s.shared pc).1
        workers := Function.update s.workers w
          (.busy a route (groupAlert a route limit s.shared pc).2 rest) } := by
  cases pc with
  | returned outcome => exact absurd rfl (hpc outcome)
  | _ => simp only [next, hw]

/-- Only receives and calls change what a worker does. -/
theorem workers_next (hr : ∀ w, op ≠ .receive w) (hc : ∀ w limit, op ≠ .call w limit) :
    (next root s op).workers = s.workers := by
  cases op with
  | receive w => exact absurd rfl (hr w)
  | call w limit => exact absurd rfl (hc w limit)
  | deliver | tick | list | check | done | maintain | stop => rfl
  | notified | delete | visit | startTimer | sweep | sweepStart | sweepNext =>
    simp only [next]
    split <;> rfl

theorem became {w : ℕ} {a : Alert} {route : Route} {pc : CallPC} {rest : List Route}
    (h : (next root s op).workers w = .busy a route pc rest) :
    Became root s op w a route pc rest := by
  cases op with
  | receive w' =>
    cases hchan : s.chan with
    | nil =>
      simp only [next, hchan] at h
      exact .stayed (by simp) h
    | cons b chan =>
      simp only [next, hchan, Function.update_apply] at h
      split_ifs at h with hw
      · subst hw
        obtain ⟨rfl, hnodes, rfl⟩ := routeAlert_eq_busy h
        exact .received chan rfl hchan hnodes rfl
      · exact .stayed (by simp) h
  | call w' limit =>
    cases hw' : s.workers w' with
    | idle =>
      have hsame : s.workers w = .busy a route pc rest := by simpa only [next, hw'] using h
      refine .stayed (fun limit' heq => ?_) hsame
      simp only [Op.call.injEq] at heq
      rw [← heq.1, hw'] at hsame
      cases hsame
    | busy b route' pc' rest' =>
      by_cases hret : ∃ outcome, pc' = .returned outcome
      · obtain ⟨outcome, rfl⟩ := hret
        rw [next_returned hw'] at h
        simp only [Function.update_apply] at h
        split_ifs at h with hw
        · subst hw
          obtain ⟨rfl, rfl, rfl⟩ := routeAlert_eq_busy h
          exact .nextRoute limit route' outcome rfl hw' rfl
        · exact .stayed (fun _ heq => hw (Op.call.inj heq).1.symm) h
      · have hpc' : ∀ outcome, pc' ≠ .returned outcome := fun o ho => hret ⟨o, ho⟩
        have hnext : next root s (.call w' limit) = _ := next_call hw' hpc'
        rw [hnext] at h
        simp only [Function.update_apply] at h
        split_ifs at h with hw
        · subst hw
          obtain ⟨rfl, rfl, rfl, rfl⟩ := Worker.busy.inj h
          exact .stepped limit pc' rfl hw' hpc' (by rw [hnext]) rfl
        · exact .stayed (fun _ heq => hw (Op.call.inj heq).1.symm) h
  | _ =>
    rw [workers_next (by simp) (by simp)] at h
    exact .stayed (by simp) h

theorem busy_stays {w : ℕ} {a : Alert} {route : Route} {pc : CallPC} {rest : List Route}
    (he : Enabled n S s op) (hw : s.workers w = .busy a route pc rest)
    (hop : ∀ limit, op ≠ .call w limit) :
    (next root s op).workers w = .busy a route pc rest := by
  cases op with
  | receive w' =>
    have hne : w ≠ w' := by
      rintro rfl
      simp [Enabled, hw, Worker.isIdle] at he
    simp only [next]
    split
    · exact hw
    · simpa [Function.update_apply, hne] using hw
  | call w' limit =>
    have hne : w ≠ w' := by
      rintro rfl
      exact hop limit rfl
    simp only [next]
    split
    · exact hw
    · simpa [Function.update_apply, hne] using hw
    · simpa [Function.update_apply, hne] using hw
  | _ =>
    rw [workers_next (by simp) (by simp)]
    exact hw

/-- Moving the loop of a group on, without taking alerts as resolved. -/
theorem setPC_effect {m : Memory} {p : ℕ} {pc : RunPC} (hp : (m.heap p).pc ≠ .idle)
    (hmarked : ∀ now a, pc.Marked now a →
      (m.heap p).pc.Marked now a ∨ (∃ f, m.stored p f = some a) ∧ a.resolvedAt now = true) :
    Memory.Effect m (.touch p) (setPC m p pc) :=
  .touch (Or.inr (Or.inl hp)) rfl rfl rfl hmarked rfl rfl

/-- Moving the loop of a group to a position that remembers no resolved alerts. -/
theorem setPC_effect_of_unmarked {m : Memory} {p : ℕ} {pc : RunPC} (hp : (m.heap p).pc ≠ .idle)
    (hpc : ∀ now a, ¬ pc.Marked now a) : Memory.Effect m (.touch p) (setPC m p pc) :=
  setPC_effect hp fun now a h => absurd h (hpc now a)

/-- The action of a call's step is taken by the worker that makes the call. -/
theorem CallStep.performs {m m' : Memory} {w : ℕ} {limit : ℤ} {a : Alert} {route : Route}
    {pc pc' : CallPC} {rest : List Route} {act : Memory.Action}
    (h : CallStep m m' a route pc pc' act) (hw : s.workers w = .busy a route pc rest) :
    Performs s (.call w limit) act := by
  have hby := h.byCall
  cases act with
  | silent | touch _ | unpublish _ => trivial
  | insert q b =>
    obtain ⟨rfl, hfound⟩ := hby
    exact ⟨w, limit, route, pc, rest, rfl, hw, hfound⟩
  | create b =>
    obtain rfl : b = a := hby
    exact ⟨w, limit, route, pc, rest, rfl, hw⟩
  | publish q => exact ⟨w, limit, a, route, pc, rest, rfl, hw, hby⟩
  | start q =>
    obtain rfl : pc = .runAG q := hby
    exact Or.inl ⟨w, limit, a, route, rest, rfl, hw⟩
  | flush => exact hby.elim

/-- One step of a sweep is one action and keeps what the sweep knows. -/
theorem doMaintenance_step {sh : Shared} {Q : Alert → Prop} (hm : sh.mem.WellFormed Q)
    {pc : MaintenancePC} (hpc : MaintenanceOk sh.mem pc) :
    ∃ act, Memory.Effect sh.mem act (doMaintenance sh pc).1.mem ∧
      (∀ (s : State) (op : Op), Performs s op act) ∧
      MaintenanceOk (doMaintenance sh pc).1.mem (doMaintenance sh pc).2 := by
  cases pc with
  | idle | countLen i | countNum =>
    exact ⟨.silent, .silent _, fun _ _ => trivial, trivial⟩
  | stopping i ag => exact ⟨.silent, .silent _, fun _ _ => trivial, hpc⟩
  | visiting i ag =>
    refine ⟨.silent, .silent _, fun _ _ => trivial, ?_⟩
    simp only [doMaintenance]
    split_ifs with hd
    · exact ⟨hpc, hd⟩
    · trivial
  | cancelling i ag =>
    have heffect : Memory.Effect sh.mem (.touch ag)
        (sh.mem.setGroup ag { sh.mem.heap ag with cancelled := true }) :=
      .touch (Or.inl hpc.destroyed) rfl rfl rfl (fun _ _ h => Or.inl h) rfl rfl
    exact ⟨.touch ag, heffect, fun _ _ => trivial, Gone.effect hpc heffect⟩
  | deleting i ag =>
    by_cases hload : sh.mem.load i (fingerprint (sh.mem.heap ag).labels) = some ag
    · simp only [doMaintenance, if_pos hload]
      obtain ⟨-, rfl, -⟩ := hm.mapped _ _ _ hload
      exact ⟨.unpublish ag, .unpublish hpc.destroyed hload, fun _ _ => trivial, trivial⟩
    · simp only [doMaintenance, if_neg hload]
      exact ⟨.silent, .silent _, fun _ _ => trivial, trivial⟩

/-- Every step of the machine is one action on the memory. -/
theorem next_effect (root : Route) (hinv : Inv S s) (he : Enabled n S s op) :
    ∃ act, Memory.Effect s.shared.mem act (next root s op).shared.mem ∧ Performs s op act := by
  cases op with
  | deliver | stop => exact ⟨.silent, .silent _, trivial⟩
  | receive w | visit t i key | startTimer | sweep key | sweepNext =>
    refine ⟨.silent, ?_, trivial⟩
    simp only [next]
    split <;> exact .silent _
  | call w limit =>
    cases hw : s.workers w with
    | idle => simp [Enabled, hw, Worker.isIdle] at he
    | busy a route pc rest =>
      by_cases hret : ∃ outcome, pc = .returned outcome
      · obtain ⟨outcome, rfl⟩ := hret
        rw [next_returned hw]
        exact ⟨.silent, .silent _, trivial⟩
      · rw [next_call hw fun o ho => hret ⟨o, ho⟩]
        obtain ⟨act, hstep⟩ :=
          groupAlert_step hinv.mem limit rfl (hinv.call w a route pc rest hw)
        exact ⟨act, hstep.effect, hstep.performs hw⟩
  | tick p =>
    have hpc : (s.shared.mem.heap p).pc = .waiting := he
    refine ⟨.touch p, setPC_effect_of_unmarked (by simp [hpc]) fun now a => ?_, trivial⟩
    split_ifs <;> exact id
  | list p now order =>
    refine ⟨.touch p, setPC_effect (by simp [he.1]) ?_, trivial⟩
    rintro now' a ⟨rfl, ha⟩
    exact Or.inr (AggrGroup.mem_copies ha)
  | notified p success =>
    cases hpc : (s.shared.mem.heap p).pc with
    | notifying now alerts resolved =>
      simp only [next, hpc]
      refine ⟨.touch p, setPC_effect (by simp [hpc]) ?_, trivial⟩
      intro now' a h
      rw [hpc]
      split_ifs at h
      · exact Or.inl h
      · exact h.elim
    | _ => simp [Enabled, hpc, RunPC.isNotifying] at he
  | delete p =>
    cases hpc : (s.shared.mem.heap p).pc with
    | deleting now resolved =>
      simp only [next, hpc]
      exact ⟨.flush p resolved, .flush hpc, now, rfl, hpc⟩
    | _ => simp [Enabled, hpc, RunPC.isDeleting] at he
  | check p =>
    have hpc : (s.shared.mem.heap p).pc = .checking := he
    refine ⟨.touch p, setPC_effect_of_unmarked (by simp [hpc]) fun now a => ?_, trivial⟩
    split_ifs <;> exact id
  | done p =>
    exact ⟨.touch p, setPC_effect_of_unmarked (by simp [he.1]) fun _ _ => id, trivial⟩
  | maintain t =>
    obtain ⟨act, heffect, hby, -⟩ := doMaintenance_step hinv.mem (hinv.maintenance t)
    exact ⟨act, heffect, hby _ _⟩
  | sweepStart p =>
    obtain ⟨act, heffect, hact⟩ := startGroup_effect (hinv.timer p he).exposed
    refine ⟨act, ?_, ?_⟩
    · cases htimer : s.timer with
      | sweeping i todo picked => simpa only [next, htimer, State.setMem] using heffect
      | _ => simp [Enabled, htimer, TimerPC.picked] at he
    · obtain rfl | rfl := hact
      · trivial
      · exact Or.inr ⟨rfl, he⟩

theorem MaintenanceOk.effect {m m' : Memory} {act : Memory.Action} {pc : MaintenancePC}
    (hpc : MaintenanceOk m pc) (h : Memory.Effect m act m') : MaintenanceOk m' pc := by
  cases pc with
  | idle | countLen i | countNum => trivial
  | visiting i ag => exact lt_of_lt_of_le hpc h.alloc_le
  | cancelling i ag | stopping i ag | deleting i ag => exact Gone.effect hpc h

theorem maintenance_next (hinv : Inv S s) (he : Enabled n S s op) (t : ℕ) :
    MaintenanceOk (next root s op).shared.mem ((next root s op).maintenance t) := by
  obtain ⟨act, heffect, -⟩ := next_effect root hinv he
  have hold := (hinv.maintenance t).effect heffect
  cases op with
  | maintain t' =>
    simp only [next, Function.update_apply] at hold ⊢
    split_ifs with ht
    · obtain ⟨-, -, -, hok⟩ := doMaintenance_step hinv.mem (hinv.maintenance t')
      exact hok
    · exact hold
  | visit t' i key =>
    cases hload : s.shared.mem.load i key with
    | none => simpa only [next, hload] using hold
    | some ag =>
      simp only [next, hload, Function.update_apply] at hold ⊢
      split_ifs with ht
      · exact (hinv.mem.mapped _ _ _ hload).1
      · exact hold
  | deliver | tick | list | check | done | stop => exact hold
  | receive | notified | delete | startTimer | sweep | sweepStart | sweepNext =>
    simp only [next] at hold ⊢
    split <;> simp_all [State.setMem]
  | call w limit =>
    simp only [next] at hold ⊢
    split <;> simp_all

/-- The sweep of the start timer reads its groups from the map. -/
theorem timer_next (hinv : Inv S s) (he : Enabled n S s op) {p : ℕ}
    (hp : p ∈ (next root s op).timer.picked) : Seen (next root s op).shared.mem p := by
  obtain ⟨act, heffect, -⟩ := next_effect root hinv he
  suffices hold : Seen s.shared.mem p from hold.effect heffect
  cases op with
  | sweep key =>
    cases htimer : s.timer with
    | sweeping i todo picked =>
      simp only [next, htimer, TimerPC.picked, List.mem_append, Option.mem_toList] at hp
      obtain hload | hp := hp
      · exact seen_of_load hinv.mem hload
      · exact hinv.timer p (by simpa [htimer, TimerPC.picked] using hp)
    | _ =>
      simp only [next, htimer] at hp
      exact hinv.timer p (by simpa [htimer] using hp)
  | sweepStart q =>
    cases htimer : s.timer with
    | sweeping i todo picked =>
      simp only [next, htimer, TimerPC.picked] at hp
      exact hinv.timer p (by simpa [htimer, TimerPC.picked] using List.mem_of_mem_erase hp)
    | _ =>
      simp only [next, htimer] at hp
      exact hinv.timer p (by simpa [htimer] using hp)
  | sweepNext =>
    cases htimer : s.timer with
    | sweeping i todo picked =>
      simp only [next, htimer] at hp
      split_ifs at hp <;> simp [TimerPC.picked] at hp
    | _ =>
      simp only [next, htimer] at hp
      exact hinv.timer p (by simpa [htimer] using hp)
  | startTimer =>
    simp only [next] at hp
    split_ifs at hp <;> simp [TimerPC.picked] at hp
  | receive | call | notified | delete | visit =>
    refine hinv.timer p ?_
    simp only [next] at hp
    split at hp <;> simpa [State.setMem] using hp
  | deliver | tick | list | check | done | maintain | stop => exact hinv.timer p hp

theorem received_subset : s.received ⊆ (next root s op).received := by
  cases op with
  | receive w =>
    simp only [next]
    split
    · exact List.Subset.refl _
    · exact List.subset_append_left _ _
  | call | notified | delete | visit | startTimer | sweep | sweepStart | sweepNext =>
    simp only [next]
    split <;> exact List.Subset.refl _
  | _ => exact List.Subset.refl _

theorem delivered_next (root : Route) (s : State) (op : Op) :
    (next root s op).delivered = s.delivered ∨
      ∃ a, op = .deliver a ∧ (next root s op).delivered = s.delivered ++ [a] := by
  cases op with
  | deliver a => exact Or.inr ⟨a, rfl, by simp [State.delivered, next]⟩
  | receive w =>
    refine Or.inl ?_
    simp only [next]
    split
    · rfl
    · simp_all [State.delivered]
  | call | notified | delete | visit | startTimer | sweep | sweepStart | sweepNext =>
    refine Or.inl ?_
    simp only [next]
    split <;> rfl
  | _ => exact Or.inl rfl

theorem call_next (hinv : Inv S s) (he : Enabled n S s op) {w : ℕ} {a : Alert} {route : Route}
    {pc : CallPC} {rest : List Route}
    (hw : (next root s op).workers w = .busy a route pc rest) :
    CallOk (next root s op).shared.mem a route pc := by
  cases became hw with
  | stayed hop hold =>
    obtain ⟨act, heffect, hby⟩ := next_effect root hinv he
    refine (hinv.call w a route pc rest hold).effect heffect ?_
    rintro p hp rfl
    obtain ⟨w', limit, b, route', pc', rest', rfl, hw', hp'⟩ := hby
    obtain rfl := hinv.created w w' a b route route' pc pc' rest rest' p hold hw' hp hp'
    exact hop limit rfl
  | received chan _ _ _ hpc | nextRoute limit route' outcome _ _ hpc =>
    subst hpc
    trivial
  | stepped limit pc' _ hold _ hshared hpc =>
    obtain ⟨act, hstep⟩ := groupAlert_step hinv.mem limit rfl (hinv.call w a route pc' rest hold)
    rw [hshared, hpc]
    exact hstep.ok

/-- The group a call has created is the one it had created before, or a new one. -/
theorem created_next (hinv : Inv S s) {w : ℕ} {a : Alert} {route : Route} {pc : CallPC}
    {rest : List Route} {p : ℕ} (hw : (next root s op).workers w = .busy a route pc rest)
    (hp : pc.created = some p) :
    (∃ pc', s.workers w = .busy a route pc' rest ∧ pc'.created = some p) ∨
      p = s.shared.mem.alloc ∧ ∃ limit, op = .call w limit := by
  cases became hw with
  | stayed hop hold => exact Or.inl ⟨pc, hold, hp⟩
  | received chan _ _ _ hpc | nextRoute limit route' outcome _ _ hpc =>
    subst hpc
    cases hp
  | stepped limit pc' hop hold _ _ hpc =>
    obtain ⟨act, hstep⟩ := groupAlert_step hinv.mem limit rfl (hinv.call w a route pc' rest hold)
    obtain hp' | hp' := hstep.created p (hpc ▸ hp)
    · exact Or.inl ⟨pc', hold, hp'⟩
    · exact Or.inr ⟨hp', limit, hop⟩

theorem received_next (hinv : Inv S s) {w : ℕ} {a : Alert} {route : Route} {pc : CallPC}
    {rest : List Route} (hw : (next root s op).workers w = .busy a route pc rest) :
    a ∈ (next root s op).received := by
  cases became hw with
  | stayed _ hold | nextRoute _ _ _ _ hold | stepped _ _ _ hold =>
    exact received_subset (hinv.received w a _ _ _ hold)
  | received chan hop hchan _ _ =>
    subst hop
    simp [next, hchan]

/-- The invariant is kept by every step. -/
theorem inv_next (hinv : Inv S s) (he : Enabled n S s op) : Inv S (next root s op) where
  mem := by
    obtain ⟨act, heffect, hby⟩ := next_effect root hinv he
    refine heffect.wellFormed (hinv.mem.mono fun a ha => received_subset ha) ?_ ?_
    · rintro p a rfl
      obtain ⟨w, limit, route, pc, rest, -, hw, -⟩ := hby
      exact received_subset (hinv.received w a route pc rest hw)
    · rintro a rfl
      obtain ⟨w, limit, route, pc, rest, -, hw⟩ := hby
      exact received_subset (hinv.received w a route pc rest hw)
  labels a ha := by
    obtain heq | ⟨b, rfl, heq⟩ := delivered_next root s op
    · exact hinv.labels a (heq ▸ ha)
    · rw [heq, List.mem_append, List.mem_singleton] at ha
      obtain hold | rfl := ha
      · exact hinv.labels a hold
      · exact he
  received w a route pc rest hw := received_next hinv hw
  call w a route pc rest hw := call_next hinv he hw
  created w w' a a' route route' pc pc' rest rest' p hw hw' hp hp' := by
    have hlt {w a route pc rest} (hw : s.workers w = .busy a route pc rest)
        (hp : pc.created = some p) : p < s.shared.mem.alloc :=
      ((hinv.call w a route pc rest hw).fresh hp).lt
    obtain ⟨pc₁, hold, hp₁⟩ | ⟨hp₁, limit, hop⟩ := created_next hinv hw hp
    · obtain ⟨pc₂, hold', hp₂⟩ | ⟨hp₂, -⟩ := created_next hinv hw' hp'
      · exact hinv.created w w' a a' route route' pc₁ pc₂ rest rest' p hold hold' hp₁ hp₂
      · exact absurd (hlt hold hp₁) (by omega)
    · obtain ⟨pc₂, hold', hp₂⟩ | ⟨-, limit', hop'⟩ := created_next hinv hw' hp'
      · exact absurd (hlt hold' hp₂) (by omega)
      · exact (Op.call.inj (hop.symm.trans hop')).1
  maintenance t := maintenance_next hinv he t
  timer p hp := timer_next hinv he hp

theorem inv_run {ops : List Op} (h : Run (Fires (Enabled n S) (next root)) init ops s) : Inv S s :=
  h.invariant (fun _ _ _ hinv hstep => hstep.2 ▸ inv_next hinv hstep.1) inv_init

/-! ### Alerts stay reachable -/

/-- The call of worker `w` for this alert and route has put the alert into a group. -/
def Succeeded (w : ℕ) (a : Alert) (route : Route) (rest : List Route) (s : State) : Prop :=
  ∃ pc, s.workers w = .busy a route pc rest ∧ pc.succeeded = true

/-- A call puts another version of the alert in the place of this one. -/
def Overwrites (root : Route) (s : State) (op : Op) (a : Alert) (route : Route) : Prop :=
  ∃ b w limit route' pc rest p, b ≠ a ∧ b.labels = a.labels ∧ op = .call w limit ∧
    s.workers w = .busy b route' pc rest ∧
    (next root s op).shared.mem.load route.idx (groupKey a route) = some p ∧
    (next root s op).shared.mem.stored p (fingerprint a.labels) = some b

/-- A flush whose notification has succeeded deletes the alert from its group. -/
def Removes (s : State) (op : Op) (a : Alert) (route : Route) : Prop :=
  ∃ p now resolved, op = .delete p ∧
    (s.shared.mem.heap p).pc = .deleting now resolved ∧
    s.shared.mem.load route.idx (groupKey a route) = some p ∧
    ∃ b ∈ resolved, b.labels = a.labels ∧ b.updatedAt = a.updatedAt

theorem Inv.labels_eq (hinv : Inv S s) (hinj : Set.InjOn fingerprint (S : Set LabelSet))
    {a b : Alert} (ha : a ∈ s.received) (hb : b ∈ s.received)
    (h : fingerprint a.labels = fingerprint b.labels) : a.labels = b.labels :=
  hinj (hinv.labels a (List.mem_append_left _ ha)) (hinv.labels b (List.mem_append_left _ hb)) h

/-- What happens to a stored version in one step. -/
theorem holds_next (root : Route) (hinj : Set.InjOn fingerprint (S : Set LabelSet)) (hinv : Inv S s)
    (he : Enabled n S s op) {a : Alert} {route : Route} (hholds : Holds s.shared.mem a route) :
    Holds (next root s op).shared.mem a route ∨ Overwrites root s op a route ∨
      Removes s op a route := by
  obtain ⟨p, hload, hstored⟩ := hholds
  obtain ⟨act, heffect, hby⟩ := next_effect root hinv he
  have ha : a ∈ s.received := ((hinv.mem.group p).known _ a hstored).2
  have hlive : s.shared.mem.destroyed p = false := by
    cases hd : s.shared.mem.destroyed p with
    | false => rfl
    | true => cases ((hinv.mem.group p).empty hd _).symm.trans hstored
  have hload' := heffect.load hload hlive
  obtain heq | ⟨b, rfl, hb, hb'⟩ | ⟨resolved, rfl, -, b, hb, hfp, other, hother, hupd⟩ :=
    heffect.stored (hinv.mem.mapped _ _ _ hload).1 (fingerprint a.labels)
  · exact Or.inl ⟨p, hload', heq.trans hstored⟩
  · obtain ⟨w, limit, route', pc, rest, hop, hw, -⟩ := hby
    by_cases hba : b = a
    · subst hba
      exact Or.inl ⟨p, hload', hb'⟩
    · have hlabels := hinv.labels_eq hinj (hinv.received w b route' pc rest hw) ha hb.symm
      exact Or.inr (Or.inl
        ⟨b, w, limit, route', pc, rest, p, hba, hlabels, hop, hw, hload', hb'⟩)
  · obtain ⟨now, hop, hpc⟩ := hby
    obtain rfl : a = other := Option.some.inj (hstored.symm.trans hother)
    have hmarked := (hinv.mem.group p).marked now b (by rw [hpc]; exact ⟨rfl, hb⟩)
    exact Or.inr (Or.inr ⟨p, now, resolved, hop, hpc, hload, b, hb,
      hinv.labels_eq hinj hmarked.1 ha hfp, hupd⟩)

/-- The step by which a call succeeds puts its alert into the group. -/
theorem holds_of_succeeded (hinv : Inv S s) {w : ℕ} {a : Alert} {route : Route}
    {rest : List Route} (hnot : ¬ Succeeded w a route rest s)
    (h : Succeeded w a route rest (next root s op)) :
    Holds (next root s op).shared.mem a route := by
  obtain ⟨pc, hw, hs⟩ := h
  cases became hw with
  | stayed _ hold => exact absurd ⟨pc, hold, hs⟩ hnot
  | received _ _ _ _ hpc | nextRoute _ _ _ _ _ hpc =>
    subst hpc
    cases hs
  | stepped limit pc' _ hold _ hshared hpc =>
    obtain ⟨act, hstep⟩ := groupAlert_step hinv.mem limit rfl (hinv.call w a route pc' rest hold)
    rw [hshared]
    refine hstep.holds (hpc ▸ hs) ?_
    cases hs' : pc'.succeeded with
    | false => rfl
    | true => exact absurd ⟨pc', hold, hs'⟩ hnot

/-- A group is replaced in or deleted from a map only after its store was destroyed;
a destroyed store is empty, takes no alert and stays destroyed; a call that ends
other than by the limit or by giving up has put its alert into a group stored under
the fingerprint of the alert's group labels; and from then on the alert stays there
until another version overwrites it or a flush that has notified deletes it. -/
theorem no_alert_lost (hinj : Set.InjOn fingerprint (S : Set LabelSet)) {ops : List Op}
    (hrun : Run (Fires (Enabled n S) (next root)) init ops s) :
    (∀ op i k p, Enabled n S s op → s.shared.mem.load i k = some p →
      (next root s op).shared.mem.load i k ≠ some p → s.shared.mem.destroyed p = true) ∧
    (∀ p < s.shared.mem.alloc, s.shared.mem.destroyed p = true →
      (∀ f, s.shared.mem.stored p f = none) ∧ (∀ a, (s.shared.mem.heap p).insert a = none) ∧
      ∀ ops' s', Run (Fires (Enabled n S) (next root)) s ops' s' →
        s'.shared.mem.destroyed p = true) ∧
    (∀ w a route rest, Succeeded w a route rest s →
      ∃ ops₁ op ops₂ s₁, ops = ops₁ ++ op :: ops₂ ∧
        Run (Fires (Enabled n S) (next root)) init ops₁ s₁ ∧ Enabled n S s₁ op ∧
        ¬ Succeeded w a route rest s₁ ∧ Holds (next root s₁ op).shared.mem a route ∧
        Run (fun s op s' => Fires (Enabled n S) (next root) s op s' ∧ Succeeded w a route rest s')
          (next root s₁ op) ops₂ s) ∧
    (∀ a route ops' s', Run (Fires (Enabled n S) (next root)) s ops' s' →
      Holds s.shared.mem a route → Holds s'.shared.mem a route ∨
        ∃ ops₁ op ops₂ s₁, ops' = ops₁ ++ op :: ops₂ ∧
          Run (Fires (Enabled n S) (next root)) s ops₁ s₁ ∧ Enabled n S s₁ op ∧
          Run (Fires (Enabled n S) (next root)) (next root s₁ op) ops₂ s' ∧
          (Overwrites root s₁ op a route ∨ Removes s₁ op a route)) := by
  have hinv := inv_run hrun
  have hkeep : ∀ s op s', Inv S s → Fires (Enabled n S) (next root) s op s' → Inv S s' :=
    fun _ _ _ h hstep => hstep.2 ▸ inv_next h hstep.1
  refine ⟨?_, ?_, ?_, ?_⟩
  · intro op i k p he hload hload'
    obtain ⟨act, heffect, -⟩ := next_effect root hinv he
    by_contra hd
    exact hload' (heffect.load hload (by simpa using hd))
  · intro p hp hd
    refine ⟨(hinv.mem.group p).empty hd, AggrGroup.insert_of_destroyed hd, fun ops' s' h => ?_⟩
    have hgone : Inv S s' ∧ Gone s'.shared.mem p := by
      refine h.invariant (I := fun s => Inv S s ∧ Gone s.shared.mem p)
        (fun s op t hs hstep => ?_) ⟨hinv, hp, hd⟩
      obtain ⟨act, heffect, -⟩ := next_effect root hs.1 hstep.1
      exact ⟨hkeep s op t hs.1 hstep, hstep.2 ▸ hs.2.effect heffect⟩
    exact hgone.2.destroyed
  · intro w a route rest hs
    have hinit : ¬ Succeeded w a route rest init := by
      rintro ⟨pc, hw, -⟩
      cases hw
    obtain ⟨ops₁, op, ops₂, s₁, s₂, rfl, hbefore, hnot, hstep, hs₂, hafter⟩ :=
      hrun.last_entry hinit hs
    obtain ⟨he, rfl⟩ := hstep
    exact ⟨ops₁, op, ops₂, s₁, rfl, hbefore, he, hnot,
      holds_of_succeeded (inv_run hbefore) hnot hs₂, hafter⟩
  · intro a route ops' s' h hholds
    obtain hend | ⟨ops₁, op, ops₂, s₁, s₂, rfl, hbefore, hstep, hafter, hbreak⟩ :=
      h.kept_or_broken hkeep
        (fun s op t hs hK hstep => hstep.2 ▸ holds_next root hinj hs hstep.1 hK) hinv hholds
    · exact Or.inl hend
    · obtain ⟨he, rfl⟩ := hstep
      exact Or.inr ⟨ops₁, op, ops₂, s₁, rfl, hbefore, he, hafter, hbreak⟩

end

section
attribute [local instance] noRegexp fnvLabelHash

/-- A single route with one group for all alerts. -/
def singleRoute : Route := .node defaultRouteOpts [] false [] 0

def nodeLabels : LabelSet := (∅ : LabelSet).insert Alert.alertNameLabel (str "NodeDown")

/-- A version of an alert about a node. -/
def nodeDown (endsAt updatedAt : ℤ) : Alert where
  labels := nodeLabels
  annotations := ∅
  startsAt := 1
  endsAt := endsAt
  generatorURL := []
  updatedAt := updatedAt
  timeout := false

/-- The group of the first version is flushed and destroyed; the call for the second
one finds the destroyed group and swaps a new one in. -/
def replacedRun : List Op :=
  [.startTimer, .deliver (nodeDown 10 2), .receive 0] ++ List.replicate 8 (.call 0 0) ++
    [.tick 0, .list 0 20 [fingerprint nodeLabels], .notified 0 true, .delete 0,
      .deliver (nodeDown 0 3), .receive 1] ++ List.replicate 7 (.call 1 0)

/-- The destroyed group takes nothing any more, and the second version was put into
the group stored in its place. -/
theorem no_alert_lost_replaced :
    let s := replacedRun.foldl (next singleRoute) init
    (∀ a, (s.shared.mem.heap 0).insert a = none) ∧
      ∃ ops₁ op ops₂ s₁, replacedRun = ops₁ ++ op :: ops₂ ∧
        Holds (next singleRoute s₁ op).shared.mem (nodeDown 0 3) singleRoute := by
  intro s
  have hrun : Run (Fires (Enabled 2 {nodeLabels}) (next singleRoute)) init replacedRun s :=
    Run.of_feasible (by decide +kernel)
  obtain ⟨-, hdestroyed, hcall, -⟩ := no_alert_lost (by simp) hrun
  have hs : Succeeded 1 (nodeDown 0 3) singleRoute [] s := ⟨.returned .inserted, rfl, rfl⟩
  obtain ⟨ops₁, op, ops₂, s₁, hops, -, -, -, hholds, -⟩ := hcall 1 _ _ _ hs
  exact ⟨(hdestroyed 0 (by decide +kernel) (by decide +kernel)).2.1,
    ops₁, op, ops₂, s₁, hops, hholds⟩

end

end Alertmanager.Dispatcher
