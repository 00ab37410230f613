import Alertmanager.GoSlice
import Alertmanager.GoTime
import Alertmanager.Runs
import Alertmanager.SelfDelimiting
import Alertmanager.WebhookRetry

/-!
# Batches of events

`batchLoop` of `eventrecorder/webhook.go`. The loop takes events from a queue and joins
them to JSON arrays. An array is sent when it is large enough, when a timer fires that was
started with its first event, and when the output is closed, after the queue is drained.
The size of the array is tracked while it grows. The slice that holds the events is used
again after each flush.
-/
namespace Alertmanager.Webhook

/-- The loop of `jsonArray`, from the given index on. -/
def appendEvents : ℕ → List GoString → Slice UInt8 → Slice UInt8
  | _, [], data => data
  | i, event :: events, data =>
    appendEvents (i + 1) events ((if i > 0 then data.append [44] else data).append event)

/-- `jsonArray`. -/
def jsonArray (events : List GoString) (size : ℕ) : GoString :=
  ((appendEvents 0 events ((Slice.make 0 size).append [91])).append [93]).elems

/-- `webhookQueueSize`. -/
def webhookQueueSize : ℕ := 1024

inductive Phase
  | running
  | draining
  | returned
  deriving DecidableEq

/-- An array that is sent, and the size that was tracked for it. -/
structure Emission where
  data : GoString
  size : ℕ
  deriving DecidableEq

/-- The variables of the loop, the channels it shares with others, and what it has done
so far. A timer that was stopped is forgotten with its channel, so that only whether there
is one matters. -/
structure BatchState where
  batch : Slice GoString
  batchSize : ℕ
  timer : Bool
  phase : Phase
  work : List GoString
  done : Bool
  received : List GoString
  emitted : List Emission

namespace BatchState

def init (cfg : HTTPBatchConfig) : BatchState where
  batch := .make [] (min cfg.maxEvents.toInt.toNat webhookQueueSize)
  batchSize := 2
  timer := false
  phase := .running
  work := []
  done := false
  received := []
  emitted := []

def stopTimer (s : BatchState) : BatchState := { s with timer := false }

def flush (s : BatchState) : BatchState :=
  let s := s.stopTimer
  if s.batch.len = 0 then s
  else
    { s with
      emitted := s.emitted ++ [⟨jsonArray s.batch.elems s.batchSize, s.batchSize⟩]
      batch := s.batch.reset
      batchSize := 2 }

/-- The batch is too large, or as large as it may get. -/
def full (cfg : HTTPBatchConfig) (s : BatchState) : Prop :=
  (s.batch.len : ℤ) ≥ cfg.maxEvents.toInt ∨ (s.batchSize : ℤ) ≥ cfg.maxBytes.toInt

/-- An event does not fit into the batch any more. -/
def overflows (cfg : HTTPBatchConfig) (s : BatchState) (additionalSize : ℕ) : Prop :=
  s.batch.len > 0 ∧ ((s.batch.len : ℤ) ≥ cfg.maxEvents.toInt ∨
    ((s.batchSize + additionalSize : ℕ) : ℤ) > cfg.maxBytes.toInt)

instance (cfg : HTTPBatchConfig) (s : BatchState) : Decidable (s.full cfg) :=
  inferInstanceAs (Decidable (_ ∨ _))

instance (cfg : HTTPBatchConfig) (s : BatchState) (additionalSize : ℕ) :
    Decidable (s.overflows cfg additionalSize) :=
  inferInstanceAs (Decidable (_ ∧ _))

/-- The event is appended, and a first one starts the timer. -/
def append (data : GoString) (additionalSize : ℕ) (s : BatchState) : BatchState :=
  let s := { s with batch := s.batch.append [data], batchSize := s.batchSize + additionalSize }
  if s.batch.len = 1 then { s with timer := true } else s

/-- The end of `add`. -/
def push (cfg : HTTPBatchConfig) (data : GoString) (additionalSize : ℕ) (s : BatchState) :
    BatchState :=
  let s := s.append data additionalSize
  if s.full cfg then s.flush else s

def add (cfg : HTTPBatchConfig) (data : GoString) (s : BatchState) : BatchState :=
  let additionalSize := if s.batch.len > 0 then data.length + 1 else data.length
  if s.overflows cfg additionalSize then s.flush.push cfg data data.length
  else s.push cfg data additionalSize

/-- The loop takes the first event of the queue. -/
def receive (cfg : HTTPBatchConfig) (s : BatchState) : BatchState :=
  match s.work with
  | [] => s
  | data :: work =>
    BatchState.add cfg data { s with work, received := s.received ++ [data] }

end BatchState

/-- What can happen: an event is sent to the queue, the output is closed, or the loop goes
on with one of the cases of its two `select` statements. -/
inductive BatchOp
  | send (data : GoString)
  | close
  | receive
  | tick
  | stop
  | drain
  | finish

def BatchOp.Enabled (s : BatchState) : BatchOp → Prop
  | .send _ => True
  | .close => s.done = false
  | .receive => s.phase = .running ∧ s.work ≠ []
  | .tick => s.phase = .running ∧ s.timer = true
  | .stop => s.phase = .running ∧ s.done = true
  | .drain => s.phase = .draining ∧ s.work ≠ []
  | .finish => s.phase = .draining ∧ s.work = []

instance (s : BatchState) (op : BatchOp) : Decidable (op.Enabled s) :=
  match op with
  | .send _ => isTrue trivial
  | .close => inferInstanceAs (Decidable (_ = _))
  | .receive | .tick | .stop | .drain | .finish => inferInstanceAs (Decidable (_ ∧ _))

/-- An event that finds the queue full is dropped. -/
def BatchOp.next (cfg : HTTPBatchConfig) (s : BatchState) : BatchOp → BatchState
  | .send data =>
    if s.work.length < webhookQueueSize then { s with work := s.work ++ [data] } else s
  | .close => { s with done := true }
  | .receive => s.receive cfg
  | .tick => s.flush
  | .stop => { s with phase := .draining }
  | .drain => s.receive cfg
  | .finish => { s.flush with phase := .returned }

/-! ### Arrays -/

/-- The JSON array of some events. -/
def arrayText (events : List GoString) : GoString := 91 :: ([44].intercalate events ++ [93])

theorem elems_appendEvents_succ (i : ℕ) (events : List GoString) (data : Slice UInt8) :
    (appendEvents (i + 1) events data).elems = data.elems ++ events.flatMap ([44] ++ ·) := by
  induction events generalizing i data with
  | nil => simp [appendEvents]
  | cons event events ih => simp [appendEvents, ih]

/-- The size that `jsonArray` is given does not matter. -/
theorem jsonArray_eq (events : List GoString) (size : ℕ) :
    jsonArray events size = arrayText events := by
  cases events with
  | nil => simp [jsonArray, appendEvents, arrayText]
  | cons event events =>
    rw [jsonArray, appendEvents, arrayText, intercalate_cons_eq]
    simp [elems_appendEvents_succ]

/-- An array grows by an event and by a comma, unless it is the first event. -/
theorem length_arrayText_append (events : List GoString) (data : GoString) :
    (arrayText (events ++ [data])).length = (arrayText events).length +
      if events.length > 0 then data.length + 1 else data.length := by
  by_cases hevents : events = []
  · subst hevents
    simp [arrayText]
    omega
  · rw [arrayText, arrayText, intercalate_append_singleton _ _ hevents,
      if_pos (List.length_pos_iff.mpr hevents)]
    simp only [List.length_cons, List.length_append, List.length_nil]
    omega

/-! ### The invariant -/

/-- What is sent in one request: some events, not too many, and not too large unless it is
a single one. -/
structure Fits (cfg : HTTPBatchConfig) (events : List GoString) : Prop where
  ne_nil : events ≠ []
  events_le : (events.length : ℤ) ≤ cfg.maxEvents.toInt
  bytes_le : ((arrayText events).length : ℤ) ≤ cfg.maxBytes.toInt ∨ events.length = 1

/-- The request for a run of events. -/
def emission (events : List GoString) : Emission := ⟨arrayText events, (arrayText events).length⟩

namespace BatchState

/-- The received events are those of the groups, the pending ones and those that are still
to be added. The groups were sent, and the size is the one of the pending array. -/
structure Tracked (cfg : HTTPBatchConfig) (groups : List (List GoString))
    (unread : List GoString) (s : BatchState) : Prop where
  received_eq : s.received = groups.flatten ++ s.batch.elems ++ unread
  emitted_eq : s.emitted = groups.map emission
  fits : ∀ events ∈ groups, Fits cfg events
  size_eq : s.batchSize = (arrayText s.batch.elems).length

/-- A timer is running exactly if events are pending. -/
def Timed (s : BatchState) : Prop := s.timer = true ↔ s.batch.elems ≠ []

variable {cfg : HTTPBatchConfig} {groups : List (List GoString)} {unread : List GoString}
  {s : BatchState} {data : GoString} {additionalSize : ℕ}

theorem len_eq_zero_iff : s.batch.len = 0 ↔ s.batch.elems = [] := by
  rw [← s.batch.length_elems, List.length_eq_zero_iff]

theorem flush_of_empty (h : s.batch.len = 0) : s.flush = s.stopTimer := if_pos h

theorem flush_of_pending (h : s.batch.len ≠ 0) :
    s.flush = { s with
      timer := false
      emitted := s.emitted ++ [⟨jsonArray s.batch.elems s.batchSize, s.batchSize⟩]
      batch := s.batch.reset
      batchSize := 2 } :=
  if_neg h

theorem elems_flush (s : BatchState) : s.flush.batch.elems = [] := by
  by_cases h : s.batch.len = 0
  · rw [flush_of_empty h]
    exact len_eq_zero_iff.mp h
  · rw [flush_of_pending h, Slice.elems_reset]

theorem timed_flush (s : BatchState) : s.flush.Timed := by
  have htimer : s.flush.timer = false := by
    by_cases h : s.batch.len = 0
    · rw [flush_of_empty h]
      rfl
    · rw [flush_of_pending h]
  simp [Timed, elems_flush, htimer]

theorem phase_flush (s : BatchState) : s.flush.phase = s.phase := by
  by_cases h : s.batch.len = 0
  · rw [flush_of_empty h]
    rfl
  · rw [flush_of_pending h]

/-- A flush sends the pending events as one more group. -/
theorem Tracked.flush (h : Tracked cfg groups unread s)
    (hfits : s.batch.elems ≠ [] → Fits cfg s.batch.elems) :
    ∃ groups', Tracked cfg groups' unread s.flush := by
  by_cases hempty : s.batch.len = 0
  · rw [flush_of_empty hempty]
    exact ⟨groups, h.received_eq, h.emitted_eq, h.fits, h.size_eq⟩
  · have hne : s.batch.elems ≠ [] := fun hnil => hempty (len_eq_zero_iff.mpr hnil)
    rw [flush_of_pending hempty]
    refine ⟨groups ++ [s.batch.elems], ?_, ?_, ?_, rfl⟩
    · simp [h.received_eq]
    · simp [h.emitted_eq, h.size_eq, jsonArray_eq, emission]
    · intro events hevents
      obtain hevents | hevents := List.mem_append.mp hevents
      · exact h.fits events hevents
      · rw [List.mem_singleton.mp hevents]
        exact hfits hne

/-- What holds between two steps. -/
structure Batched (cfg : HTTPBatchConfig) (s : BatchState) : Prop where
  tracked : ∃ groups, Tracked cfg groups [] s
  timed : s.Timed
  room : s.batch.elems ≠ [] → ¬s.full cfg

/-- A pending batch with room can be sent. -/
theorem fits_of_room (hsize : s.batchSize = (arrayText s.batch.elems).length)
    (hne : s.batch.elems ≠ []) (hroom : ¬s.full cfg) : Fits cfg s.batch.elems := by
  rw [full, not_or, not_le, not_le, ← s.batch.length_elems, hsize] at hroom
  exact ⟨hne, hroom.1.le, Or.inl hroom.2.le⟩

theorem Batched.flush (h : Batched cfg s) : Batched cfg s.flush := by
  obtain ⟨groups, htracked⟩ := h.tracked
  refine ⟨htracked.flush fun hne => fits_of_room htracked.size_eq hne (h.room hne),
    timed_flush s, fun hne => absurd (elems_flush s) hne⟩

theorem append_eq (s : BatchState) (data : GoString) (additionalSize : ℕ) :
    s.append data additionalSize = { s with
      batch := s.batch.append [data]
      batchSize := s.batchSize + additionalSize
      timer := if s.batch.len = 0 then true else s.timer } := by
  have hlen : (s.batch.append [data]).len = 1 ↔ s.batch.len = 0 := Nat.succ_inj
  simp only [append, hlen]
  split_ifs <;> rfl

theorem elems_append (s : BatchState) (data : GoString) (additionalSize : ℕ) :
    (s.append data additionalSize).batch.elems = s.batch.elems ++ [data] := by
  rw [append_eq, Slice.elems_append]

theorem timed_append (h : s.Timed) (data : GoString) (additionalSize : ℕ) :
    (s.append data additionalSize).Timed := by
  have htimer : (s.append data additionalSize).timer = true := by
    rw [append_eq]
    by_cases hempty : s.batch.len = 0
    · exact if_pos hempty
    · exact (if_neg hempty).trans (h.mpr fun hnil => hempty (len_eq_zero_iff.mpr hnil))
  simp [Timed, elems_append, htimer]

theorem Tracked.append (h : Tracked cfg groups [data] s)
    (hsize : additionalSize = if s.batch.len > 0 then data.length + 1 else data.length) :
    Tracked cfg groups [] (s.append data additionalSize) := by
  rw [append_eq]
  refine ⟨?_, h.emitted_eq, h.fits, ?_⟩
  · simp [h.received_eq]
  · rw [Slice.elems_append, length_arrayText_append, s.batch.length_elems, ← hsize, h.size_eq]

/-- An event that fits is added, and the batch is sent if it is full then. -/
theorem Tracked.push (h : Tracked cfg groups [data] s) (htimed : s.Timed)
    (hsize : additionalSize = if s.batch.len > 0 then data.length + 1 else data.length)
    (hfits : Fits cfg (s.batch.elems ++ [data])) :
    Batched cfg (s.push cfg data additionalSize) := by
  have hpushed := h.append hsize
  rw [BatchState.push]
  split_ifs with hfull
  · refine ⟨hpushed.flush fun _ => ?_, timed_flush _, fun hne => absurd (elems_flush _) hne⟩
    rw [elems_append]
    exact hfits
  · exact ⟨⟨groups, hpushed⟩, timed_append htimed data additionalSize, fun _ => hfull⟩

theorem Fits.single (hevents : 0 < cfg.maxEvents) (data : GoString) : Fits cfg [data] where
  ne_nil := by simp
  events_le := by
    have hpos := Int64.lt_iff_toInt_lt.mp hevents
    rw [Int64.toInt_zero] at hpos
    exact Int.add_one_le_iff.mpr hpos
  bytes_le := Or.inr rfl

/-- `add` keeps the invariant: the batch is sent before an event that does not fit. -/
theorem add_spec (hevents : 0 < cfg.maxEvents) (h : Tracked cfg groups [data] s)
    (htimed : s.Timed) (hroom : s.batch.elems ≠ [] → ¬s.full cfg) :
    Batched cfg (s.add cfg data) := by
  rw [add]
  split_ifs with hpos hoverflows hoverflows
  · -- the pending batch is sent, and the event begins a new one
    obtain ⟨groups', hflushed⟩ := h.flush fun hne => fits_of_room h.size_eq hne (hroom hne)
    have hempty : s.flush.batch.len = 0 := len_eq_zero_iff.mpr (elems_flush s)
    refine hflushed.push (timed_flush s) (by simp [hempty]) ?_
    rw [elems_flush]
    exact Fits.single hevents data
  · refine h.push htimed (if_pos hpos).symm ?_
    rw [overflows, not_and, not_or, not_le, not_lt] at hoverflows
    obtain ⟨hcount, hbytes⟩ := hoverflows hpos
    rw [← s.batch.length_elems] at hcount hpos
    refine ⟨by simp, ?_, Or.inl ?_⟩
    · rw [List.length_append, List.length_singleton]
      omega
    · rw [length_arrayText_append, ← h.size_eq, if_pos hpos]
      exact hbytes
  · exact absurd hoverflows.1 hpos
  · have hempty : s.batch.elems = [] := len_eq_zero_iff.mp (Nat.eq_zero_of_not_pos hpos)
    refine h.push htimed (if_neg hpos).symm ?_
    rw [hempty]
    exact Fits.single hevents data

theorem Batched.receive (hevents : 0 < cfg.maxEvents) (h : Batched cfg s) :
    Batched cfg (s.receive cfg) := by
  obtain ⟨groups, htracked⟩ := h.tracked
  rw [BatchState.receive]
  split
  · exact h
  · rename_i data work _
    have hunread : Tracked cfg groups [data]
        { s with work, received := s.received ++ [data] } :=
      ⟨by simp [htracked.received_eq], htracked.emitted_eq, htracked.fits, htracked.size_eq⟩
    exact add_spec hevents hunread h.timed h.room

end BatchState

/-! ### Runs -/

theorem BatchState.phase_push (cfg : HTTPBatchConfig) (data : GoString) (additionalSize : ℕ)
    (s : BatchState) : (s.push cfg data additionalSize).phase = s.phase := by
  have happend : (s.append data additionalSize).phase = s.phase := by rw [append_eq]
  rw [push]
  split_ifs
  · rw [phase_flush, happend]
  · exact happend

theorem BatchState.phase_receive (cfg : HTTPBatchConfig) (s : BatchState) :
    (s.receive cfg).phase = s.phase := by
  rw [receive]
  split
  · rfl
  · rw [add]
    split_ifs <;> simp only [phase_push, phase_flush]

/-- What holds in every state of a run. -/
structure BatchInvariant (cfg : HTTPBatchConfig) (s : BatchState) : Prop where
  batched : s.Batched cfg
  returned : s.phase = .returned → s.batch.elems = []

theorem batchInvariant_init (cfg : HTTPBatchConfig) :
    BatchInvariant cfg (BatchState.init cfg) where
  batched := ⟨⟨[], rfl, rfl, by simp, rfl⟩, by simp [BatchState.Timed, BatchState.init],
    fun hne => absurd rfl hne⟩
  returned _ := rfl

/-- Steps that leave the variables of the loop alone. -/
theorem BatchState.Batched.of_eq {cfg : HTTPBatchConfig} {s t : BatchState} (h : s.Batched cfg)
    (hbatch : t.batch = s.batch) (hsize : t.batchSize = s.batchSize) (htimer : t.timer = s.timer)
    (hreceived : t.received = s.received) (hemitted : t.emitted = s.emitted) :
    t.Batched cfg := by
  obtain ⟨groups, htracked⟩ := h.tracked
  refine ⟨⟨groups, ?_, ?_, htracked.fits, ?_⟩, ?_, ?_⟩
  · rw [hreceived, hbatch, htracked.received_eq]
  · rw [hemitted, htracked.emitted_eq]
  · rw [hsize, hbatch, htracked.size_eq]
  · rw [Timed, htimer, hbatch]
    exact h.timed
  · rw [full, hbatch, hsize]
    exact h.room

theorem batchInvariant_step {cfg : HTTPBatchConfig} (hevents : 0 < cfg.maxEvents)
    (s : BatchState) (op : BatchOp) (t : BatchState) (hs : BatchInvariant cfg s)
    (hstep : Fires BatchOp.Enabled (BatchOp.next cfg) s op t) : BatchInvariant cfg t := by
  obtain ⟨henabled, rfl⟩ := hstep
  -- the loop has not returned when it takes a step
  have hrunning : ∀ {u : BatchState} {phase : Phase}, s.phase = phase → phase ≠ .returned →
      u.phase = s.phase → u.phase = .returned → u.batch.elems = [] := by
    intro u phase hphase hne hu hreturned
    exact absurd (hphase.symm.trans (hu.symm.trans hreturned)) hne
  cases op with
  | send data =>
    rw [BatchOp.next]
    split_ifs
    · exact ⟨hs.batched.of_eq rfl rfl rfl rfl rfl, hs.returned⟩
    · exact hs
  | close => exact ⟨hs.batched.of_eq rfl rfl rfl rfl rfl, hs.returned⟩
  | receive =>
    exact ⟨hs.batched.receive hevents,
      hrunning henabled.1 (by decide) (BatchState.phase_receive cfg s)⟩
  | tick => exact ⟨hs.batched.flush, fun _ => BatchState.elems_flush s⟩
  | stop =>
    refine ⟨hs.batched.of_eq rfl rfl rfl rfl rfl, fun hreturned => ?_⟩
    cases hreturned
  | drain =>
    exact ⟨hs.batched.receive hevents,
      hrunning henabled.1 (by decide) (BatchState.phase_receive cfg s)⟩
  | finish =>
    exact ⟨hs.batched.flush.of_eq rfl rfl rfl rfl rfl, fun _ => BatchState.elems_flush s⟩

/-- In every state of a run the requests are the arrays of consecutive groups of the
received events, each within the limits and of the tracked size; what is not sent is
pending, under a timer; and nothing is pending once the loop has returned. -/
theorem batches_faithful {cfg : HTTPBatchConfig} (hevents : 0 < cfg.maxEvents)
    {ops : List BatchOp} {s : BatchState}
    (hrun : Run (Fires BatchOp.Enabled (BatchOp.next cfg)) (BatchState.init cfg) ops s) :
    (∃ groups : List (List GoString),
      s.emitted = groups.map (fun events => ⟨arrayText events, (arrayText events).length⟩) ∧
      (∀ events ∈ groups, events ≠ [] ∧ (events.length : ℤ) ≤ cfg.maxEvents.toInt ∧
        (((arrayText events).length : ℤ) ≤ cfg.maxBytes.toInt ∨ events.length = 1)) ∧
      s.received = groups.flatten ++ s.batch.elems ∧
      (s.phase = .returned → s.received = groups.flatten)) ∧
    (s.timer = true ↔ s.batch.elems ≠ []) := by
  obtain ⟨⟨⟨groups, htracked⟩, htimed, -⟩, hreturned⟩ :=
    hrun.invariant (batchInvariant_step hevents) (batchInvariant_init cfg)
  have hreceived : s.received = groups.flatten ++ s.batch.elems := by
    rw [htracked.received_eq, List.append_nil]
  refine ⟨⟨groups, htracked.emitted_eq, ?_, hreceived, fun hphase => ?_⟩, htimed⟩
  · intro events hmem
    obtain ⟨hne, hcount, hbytes⟩ := htracked.fits events hmem
    exact ⟨hne, hcount, hbytes⟩
  · rw [hreceived, hreturned hphase, List.append_nil]

theorem newHTTPBatchConfig_maxEvents_pos (maxEvents maxBytes flushInterval : Int64) :
    0 < (newHTTPBatchConfig maxEvents maxBytes flushInterval).maxEvents := by
  simp only [newHTTPBatchConfig, setting]
  split_ifs with h
  · exact h
  · decide

/-- Batches of at most two events and ten bytes. -/
def smallBatches : HTTPBatchConfig := newHTTPBatchConfig 2 10 0

/-- A lone event that is sent by the timer, two that fill a batch, and one that is too
large and drained. -/
def mixedOps : List BatchOp :=
  [.send [49], .receive, .tick, .send [50], .send [51], .receive, .receive,
    .send (List.replicate 12 52), .close, .stop, .drain, .finish]

theorem batches_faithful_mixed :
    let s := mixedOps.foldl (BatchOp.next smallBatches) (BatchState.init smallBatches)
    s.phase = .returned ∧ s.emitted.map (·.size) = [3, 5, 14] ∧
      ∃ groups : List (List GoString), s.received = groups.flatten ∧
        s.emitted = groups.map fun events => ⟨arrayText events, (arrayText events).length⟩ := by
  have hreturned : (mixedOps.foldl (BatchOp.next smallBatches)
      (BatchState.init smallBatches)).phase = .returned := by decide
  refine ⟨hreturned, by decide, ?_⟩
  have hfeasible : Feasible BatchOp.Enabled (BatchOp.next smallBatches)
      (BatchState.init smallBatches) mixedOps := by decide
  obtain ⟨⟨groups, hemitted, -, -, hreceived⟩, -⟩ :=
    batches_faithful (newHTTPBatchConfig_maxEvents_pos 2 10 0) (Run.of_feasible hfeasible)
  exact ⟨groups, hreceived hreturned, hemitted⟩

end Alertmanager.Webhook
