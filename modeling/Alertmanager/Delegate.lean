import Alertmanager.SilenceIndexes
import Alertmanager.NotificationLog

/-!
# The gossip delegate and its channels

A peer keeps its replicated states, the silences and the notification log, under keys.
A channel wraps a payload of the state with its key into a part and sends it: large parts
go over a bounded queue to every peer, the others are left to gossip. On the other side
the delegate finds the state by the key of a part and lets it merge the data; a full
state is a list of parts that are merged one after the other.
-/
namespace Alertmanager.Cluster

/-- The data of a part, as the silences and as the notification log read it. -/
structure Data where
  silences : Payload
  entries : Nflog.Payload
  same_length : entries.length = silences.length

/-- The number of bytes of the data. -/
def Data.length (d : Data) : ℕ := d.silences.length

/-- `clusterpb.Part`. -/
structure Part where
  key : GoString
  data : Data

/-- The implementations of `cluster.State`. -/
inductive State [Regexp]
  | silences (s : Silences)
  | log (l : Nflog.Log)

inductive MergeError
  | silences (err : SilenceError)
  | log (err : Nflog.LogError)
  deriving DecidableEq, Repr

variable [Regexp]

/-- `Merge` of a state, with its error and its broadcasts. The clock is read at `now`, and
`order` is the order in which the decoded map is visited. -/
def State.merge (s : State) (d : Data) (now : ℤ) (order : List GoString) :
    Option MergeError × State × List Data :=
  match s with
  | .silences s =>
    let r := s.merge d.silences now order
    (r.1.map .silences, .silences r.2.1, r.2.2.map fun _ => d)
  | .log l =>
    let r := l.merge d.entries now order
    (r.1.map .log, .log r.2.1, r.2.2.map fun _ => d)

/-! ### Sending -/

/-- The size of an encoded part: for each of its two fields the tag, the length and the
bytes. -/
def partLength (key : GoString) (length : ℕ) : ℕ :=
  (1 + varintLength key.length + key.length) + (1 + varintLength length + length)

/-- The capacity of `msgc`. -/
def queueCapacity : ℕ := 200

/-- `Channel`: its queue of parts for every peer, and the parts that were handed to
`send`. -/
structure Channel where
  key : GoString
  msgc : List Part
  sent : List Part

/-- `Channel.Broadcast`. A key that is not valid UTF-8 is not marshalled, and a large part
is dropped when the queue is full. -/
def Channel.broadcast (c : Channel) (b : Data) : Channel :=
  if Utf8.validString c.key = false then c
  else if oversized (partLength c.key b.length) then
    if c.msgc.length < queueCapacity then { c with msgc := c.msgc ++ [⟨c.key, b⟩] } else c
  else { c with sent := c.sent ++ [⟨c.key, b⟩] }

/-! ### Receiving -/

/-- A part that arrives, with the clock and the map order of its merge. -/
structure Delivery extends Part where
  now : ℤ
  order : List GoString

/-- `Merge` of the data of a delivery. -/
def State.receive (s : State) (d : Delivery) : Option MergeError × State × List Data :=
  s.merge d.data d.now d.order

/-- `NotifyMsg`: the states after it and what the merging state broadcasts. -/
def notifyMsg (states : GoMap GoString State) (d : Delivery) :
    GoMap GoString State × List Data :=
  match states.lookup d.key with
  | none => (states, [])
  | some s =>
    let r := s.receive d
    (states.insert d.key r.2.1, r.2.2)

/-- `MergeRemoteState`. A part with an unknown key is passed over; a part whose merge fails
ends the loop. -/
def mergeRemoteState (states : GoMap GoString State) : List Delivery → GoMap GoString State
  | [] => states
  | d :: ds =>
    match states.lookup d.key with
    | none => mergeRemoteState states ds
    | some s =>
      let r := s.receive d
      let states' := states.insert d.key r.2.1
      if r.1.isSome then states' else mergeRemoteState states' ds

end Alertmanager.Cluster
