import Alertmanager.AggrGroups
import Alertmanager.Runs

/-!
# The dispatcher

`dispatch/dispatch.go` as a machine whose steps are the channel receives, the
`sync.Map` operations, the operations of the locked alert stores and the atomic
loads, stores and swaps. Any number of ingestion workers, group loops and
maintenance sweeps and the goroutine of the start timer take these steps in any
order; where the code reads a clock, a limit or the outcome of a notification, the
label of the step carries the value.
-/
namespace Alertmanager.Dispatcher

inductive DispatcherState
  | unknown
  | waitingToStart
  | running
  | stopped
  deriving DecidableEq, Repr

/-- How a call of `groupAlert` returns. -/
inductive Outcome
  | inserted
  | limited
  | gaveUp
  deriving DecidableEq, Repr

/-- The position of a call of `groupAlert`. `ag` is the group the call has created
and `el` the one it found in the map. -/
inductive CallPC
  | load
  | insertLoaded (el : ℕ)
  | create (el : Option ℕ)
  | compareAndSwap (ag el retries : ℕ)
  | loadOrStore (ag retries : ℕ)
  | insertExisting (ag el retries : ℕ)
  | cancelOld (ag el : ℕ)
  | countLen (ag : ℕ)
  | countNum (ag : ℕ)
  | loadState (ag : ℕ)
  | runAG (ag : ℕ)
  | returned (outcome : Outcome)
  deriving DecidableEq, Repr

/-- An ingestion worker: between two receives it is in the call for one of the
matching routes, with the rest of them still to do. -/
inductive Worker [Regexp]
  | idle
  | busy (a : Alert) (route : Route) (pc : CallPC) (rest : List Route)

def Worker.isIdle [Regexp] : Worker → Bool
  | idle => true
  | busy .. => false

/-- The position of `doMaintenance`, visiting the group `ag` in the map of route `i`. -/
inductive MaintenancePC
  | idle
  | visiting (i ag : ℕ)
  | cancelling (i ag : ℕ)
  | stopping (i ag : ℕ)
  | deleting (i ag : ℕ)
  | countLen (i : ℕ)
  | countNum
  deriving DecidableEq, Repr

/-- `aggrGroup.stop` waits until the loop of the group has returned. -/
def MaintenancePC.waitsFor (m : Memory) : MaintenancePC → Bool
  | stopping _ ag => (m.heap ag).pc = .finished
  | _ => true

/-- The position of the start timer's goroutine. `todo` are the keys its `Range`
over the map of route `i` has still to read, `picked` the groups it has read and not
yet passed to `runAG`: a `Range` may see the entries as they were at any time since
its beginning. -/
inductive TimerPC
  | waiting
  | sweeping (i : ℕ) (todo : Finset Fingerprint) (picked : List ℕ)
  | finished
  deriving DecidableEq

def TimerPC.isSweeping : TimerPC → Bool
  | sweeping .. => true
  | waiting | finished => false

/-- The `Range` has read every key and passed on every group. -/
def TimerPC.rangeDone : TimerPC → Bool
  | sweeping _ todo picked => todo = ∅ && picked = []
  | waiting | finished => false

def TimerPC.picked : TimerPC → List ℕ
  | sweeping _ _ picked => picked
  | waiting | finished => []

/-- What the goroutines share. -/
structure Shared where
  mem : Memory
  groupsLen : ℕ → ℤ
  aggrGroupsNum : ℤ
  state : DispatcherState

/-- An alert a flush has removed from the group of a route. -/
structure Removal where
  route : ℕ
  key : Fingerprint
  alert : Alert
  now : ℤ

/-- The state of the machine. `received` and `removed` are histories. -/
structure State [Regexp] where
  shared : Shared
  chan : List Alert
  received : List Alert
  workers : ℕ → Worker
  maintenance : ℕ → MaintenancePC
  timer : TimerPC
  ctxDone : Bool
  removed : List Removal

/-- The versions that were delivered to the channel, in order. -/
def State.delivered [Regexp] (s : State) : List Alert := s.received ++ s.chan

section
variable [Regexp] [LabelHash]

/-- The loop body of `groupAlert` ends without a group: the retries are counted. -/
def retry (retries : ℕ) (again : ℕ → CallPC) : CallPC :=
  if 100 < retries + 1 then .returned .gaveUp else again (retries + 1)

/-- `runAG`. -/
def startGroup (m : Memory) (p : ℕ) : Memory :=
  if (m.heap p).running then m else m.setGroup p (m.heap p).started

/-- One step of `groupAlert`. The limit is read when a group is to be created. -/
def groupAlert (a : Alert) (route : Route) (limit : ℤ) (sh : Shared) :
    CallPC → Shared × CallPC
  | .load =>
    match sh.mem.load route.idx (groupKey a route) with
    | some el => (sh, .insertLoaded el)
    | none => (sh, .create none)
  | .insertLoaded el =>
    match (sh.mem.heap el).insert a with
    | some ag => ({ sh with mem := sh.mem.setGroup el ag }, .returned .inserted)
    | none => (sh, .create (some el))
  | .create el =>
    if 0 < limit ∧ limit ≤ sh.aggrGroupsNum then (sh, .returned .limited)
    else
      ({ sh with mem := sh.mem.create (.first a route) },
        match el with
        | some el => .compareAndSwap sh.mem.alloc el 0
        | none => .loadOrStore sh.mem.alloc 0)
  | .compareAndSwap ag el retries =>
    if sh.mem.load route.idx (groupKey a route) = some el then
      ({ sh with mem := sh.mem.store route.idx (groupKey a route) ag }, .cancelOld ag el)
    else (sh, retry retries (.loadOrStore ag))
  | .loadOrStore ag retries =>
    match sh.mem.load route.idx (groupKey a route) with
    | some el => (sh, .insertExisting ag el retries)
    | none => ({ sh with mem := sh.mem.store route.idx (groupKey a route) ag }, .countLen ag)
  | .insertExisting ag el retries =>
    match (sh.mem.heap el).insert a with
    | some ag' => ({ sh with mem := sh.mem.setGroup el ag' }, .returned .inserted)
    | none => (sh, retry retries (.compareAndSwap ag el))
  | .cancelOld ag el =>
    ({ sh with mem := sh.mem.setGroup el { sh.mem.heap el with cancelled := true } },
      .loadState ag)
  | .countLen ag =>
    ({ sh with
        groupsLen := Function.update sh.groupsLen route.idx (sh.groupsLen route.idx + 1) },
      .countNum ag)
  | .countNum ag => ({ sh with aggrGroupsNum := sh.aggrGroupsNum + 1 }, .loadState ag)
  | .loadState ag =>
    if sh.state = .running then (sh, .runAG ag) else (sh, .returned .inserted)
  | .runAG ag => ({ sh with mem := startGroup sh.mem ag }, .returned .inserted)
  | .returned outcome => (sh, .returned outcome)

/-- `routeAlert` goes on to the next matching route, or the worker is idle again. -/
def routeAlert (a : Alert) : List Route → Worker
  | [] => .idle
  | route :: rest => .busy a route .load rest

/-- One step of a sweep of `doMaintenance` after it has picked a group. -/
def doMaintenance (sh : Shared) : MaintenancePC → Shared × MaintenancePC
  | .idle => (sh, .idle)
  | .visiting i ag => (sh, if sh.mem.destroyed ag then .cancelling i ag else .idle)
  | .cancelling i ag =>
    ({ sh with mem := sh.mem.setGroup ag { sh.mem.heap ag with cancelled := true } },
      .stopping i ag)
  | .stopping i ag => (sh, .deleting i ag)
  | .deleting i ag =>
    if sh.mem.load i (fingerprint (sh.mem.heap ag).labels) = some ag then
      ({ sh with mem := sh.mem.delete i (fingerprint (sh.mem.heap ag).labels) }, .countLen i)
    else (sh, .idle)
  | .countLen i =>
    ({ sh with groupsLen := Function.update sh.groupsLen i (sh.groupsLen i - 1) }, .countNum)
  | .countNum => ({ sh with aggrGroupsNum := sh.aggrGroupsNum - 1 }, .idle)

/-- What can happen: the provider delivers a version; worker `w` receives one or
takes a step of its call; the timer of group `p` fires, and its flush lists the
alerts, gets the outcome of the notification, deletes the resolved ones and looks
at the store again, or its context is done; sweep `t` picks a group or takes a
step; the start timer fires, its sweep reads a key, starts a group it has read or
goes on to the next route; the dispatcher is stopped. -/
inductive Op
  | deliver (a : Alert)
  | receive (w : ℕ)
  | call (w : ℕ) (limit : ℤ)
  | tick (p : ℕ)
  | list (p : ℕ) (now : ℤ) (order : List Fingerprint)
  | notified (p : ℕ) (success : Bool)
  | delete (p : ℕ)
  | check (p : ℕ)
  | done (p : ℕ)
  | visit (t i : ℕ) (key : Fingerprint)
  | maintain (t : ℕ)
  | startTimer
  | sweep (key : Fingerprint)
  | sweepStart (p : ℕ)
  | sweepNext
  | stop

def setPC (m : Memory) (p : ℕ) (pc : RunPC) : Memory :=
  m.setGroup p { m.heap p with pc := pc }

/-- The versions that the deletion of a flush finds unmodified, with the group they
are in and the flush's clock reading. -/
def removals (m : Memory) (p : ℕ) (now : ℤ) (resolved : List Alert) : List Removal :=
  resolved.filterMap fun a =>
    ((m.stored p (fingerprint a.labels)).filter fun other => a.updatedAt = other.updatedAt).map
      fun other => ⟨(m.heap p).route, fingerprint (m.heap p).labels, other, now⟩

def State.setMem (s : State) (m : Memory) : State := { s with shared := { s.shared with mem := m } }

/-- The state after a step. -/
def next (root : Route) (s : State) : Op → State
  | .deliver a => { s with chan := s.chan ++ [a] }
  | .receive w =>
    match s.chan with
    | [] => s
    | a :: chan =>
      { s with
        chan := chan
        received := s.received ++ [a]
        workers := Function.update s.workers w (routeAlert a (root.matchNodes a.labels)) }
  | .call w limit =>
    match s.workers w with
    | .idle => s
    | .busy a _ (.returned _) rest =>
      { s with workers := Function.update s.workers w (routeAlert a rest) }
    | .busy a route pc rest =>
      let r := groupAlert a route limit s.shared pc
      { s with
        shared := r.1
        workers := Function.update s.workers w (.busy a route r.2 rest) }
  | .tick p =>
    s.setMem (setPC s.shared.mem p
      (if (s.shared.mem.heap p).alerts.empty then .checking else .listing))
  | .list p now order =>
    let r := AggrGroup.copies now ((s.shared.mem.heap p).alerts.list order)
    s.setMem (setPC s.shared.mem p (.notifying now r.1 r.2))
  | .notified p success =>
    match (s.shared.mem.heap p).pc with
    | .notifying now _ resolved =>
      s.setMem (setPC s.shared.mem p (if success then .deleting now resolved else .checking))
    | _ => s
  | .delete p =>
    match (s.shared.mem.heap p).pc with
    | .deleting now resolved =>
      { s.setMem (s.shared.mem.setGroup p (s.shared.mem.swept p resolved)) with
        removed := s.removed ++ removals s.shared.mem p now resolved }
    | _ => s
  | .check p =>
    s.setMem (setPC s.shared.mem p (if s.shared.mem.destroyed p then .finished else .waiting))
  | .done p => s.setMem (setPC s.shared.mem p .finished)
  | .visit t i key =>
    match s.shared.mem.load i key with
    | some ag => { s with maintenance := Function.update s.maintenance t (.visiting i ag) }
    | none => s
  | .maintain t =>
    let r := doMaintenance s.shared (s.maintenance t)
    { s with shared := r.1, maintenance := Function.update s.maintenance t r.2 }
  | .startTimer =>
    if s.shared.state = .waitingToStart then
      { s with
        shared := { s.shared with state := .running }
        timer := .sweeping 0 (s.shared.mem.groups 0).keys [] }
    else { s with timer := .finished }
  | .sweep key =>
    match s.timer with
    | .sweeping i todo picked =>
      { s with
        timer := .sweeping i (todo.erase key) ((s.shared.mem.load i key).toList ++ picked) }
    | _ => s
  | .sweepStart p =>
    match s.timer with
    | .sweeping i todo picked =>
      { s.setMem (startGroup s.shared.mem p) with
        timer := .sweeping i todo (picked.erase p) }
    | _ => s
  | .sweepNext =>
    match s.timer with
    | .sweeping i _ _ =>
      { s with
        timer :=
          if i < root.idx then .sweeping (i + 1) (s.shared.mem.groups (i + 1)).keys []
          else .finished }
    | _ => s
  | .stop => { s with shared := { s.shared with state := .stopped }, ctxDone := true }

/-- When a step is possible, with `n` ingestion workers. The label sets of the
delivered alerts are those of `S`. -/
def Enabled (n : ℕ) (S : Finset LabelSet) (s : State) : Op → Prop
  | .deliver a => a.labels ∈ S
  | .receive w => w < n ∧ (s.workers w).isIdle = true ∧ s.chan ≠ []
  | .call w _ => (s.workers w).isIdle = false
  | .tick p => (s.shared.mem.heap p).pc = .waiting
  | .list p _ order =>
    (s.shared.mem.heap p).pc = .listing ∧
      GoMap.Ranges (s.shared.mem.heap p).alerts.alerts order
  | .notified p _ => (s.shared.mem.heap p).pc.isNotifying = true
  | .delete p => (s.shared.mem.heap p).pc.isDeleting = true
  | .check p => (s.shared.mem.heap p).pc = .checking
  | .done p =>
    (s.shared.mem.heap p).pc = .waiting ∧
      ((s.shared.mem.heap p).cancelled = true ∨ s.ctxDone = true)
  | .visit t i key => s.maintenance t = .idle ∧ s.shared.mem.load i key ≠ none
  | .maintain t => s.maintenance t ≠ .idle ∧ (s.maintenance t).waitsFor s.shared.mem = true
  | .startTimer => s.timer = .waiting
  | .sweep _ => s.timer.isSweeping = true
  | .sweepStart p => p ∈ s.timer.picked
  | .sweepNext => s.timer.rangeDone = true
  | .stop => True

instance (n : ℕ) (S : Finset LabelSet) (s : State) (op : Op) : Decidable (Enabled n S s op) := by
  cases op <;> unfold Enabled <;> infer_instance

/-- `Run` has just made the empty maps. -/
def init : State where
  shared := ⟨⟨fun _ => ⟨0, ∅, .new, false, false, .idle, 0⟩, 0, fun _ => ∅⟩, fun _ => 0, 0,
    .waitingToStart⟩
  chan := []
  received := []
  workers := fun _ => .idle
  maintenance := fun _ => .idle
  timer := .waiting
  ctxDone := false
  removed := []

end

end Alertmanager.Dispatcher
