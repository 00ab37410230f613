import Alertmanager.LastWriter
import Alertmanager.Wire

/-!
# The notification log

`nflog/nflog.go` over the messages of `nflogpb/nflog.proto`: one entry for each
group key and receiver, written locally by `Log`, merged from peers by `Merge`,
dropped by `GC`. The byte strings of the gossip protocol are payloads: the messages
read from them before the end of the input or a read error. The deprecated fields
of an entry, which nothing reads, are left out.
-/
namespace Alertmanager.Nflog

structure Receiver where
  groupName : GoString
  integration : GoString
  idx : UInt32
  deriving DecidableEq, Repr

/-- A receiver data value: a `oneof`, which may be unset. -/
inductive ReceiverDataValue
  | strVal (s : GoString)
  | intVal (i : ℤ)
  | doubleVal (bits : UInt64)
  | unset
  deriving DecidableEq, Repr

abbrev StoreData := GoMap GoString ReceiverDataValue

structure Entry where
  groupKey : GoString
  receiver : Receiver
  timestamp : Option ℤ
  firingAlerts : List UInt64
  resolvedAlerts : List UInt64
  receiverData : StoreData
  deriving DecidableEq

/-- A `MeshEntry` as it is stored: entry and receiver are always there. -/
structure MeshEntry where
  entry : Entry
  expiresAt : Option ℤ
  deriving DecidableEq

/-- An `Entry` as it is read from the wire. -/
structure WireEntry where
  groupKey : GoString
  receiver : Option Receiver
  timestamp : Option ℤ
  firingAlerts : List UInt64
  resolvedAlerts : List UInt64
  receiverData : StoreData
  deriving DecidableEq

/-- A `MeshEntry` as it is read from the wire. -/
structure WireMeshEntry where
  entry : Option WireEntry
  expiresAt : Option ℤ
  deriving DecidableEq

/-- The messages that are read from a byte string, whether the reading comes to its end,
and its length. -/
structure Payload where
  messages : List WireMeshEntry
  eof : Bool
  length : ℕ
  deriving DecidableEq

/-- `proto.Size` of an entry. -/
class Proto where
  size : MeshEntry → ℕ

abbrev zeroProto : Proto := ⟨fun _ => 0⟩

inductive LogError
  | invalidState
  | unmarshal
  | marshal
  | zeroExpiration
  | noQueryParameters
  | notFound
  deriving DecidableEq, Repr

/-- `receiverKey`. -/
def receiverKey (r : Receiver) : GoString :=
  r.groupName ++ str "/" ++ r.integration ++ str "/" ++ str (toString r.idx.toNat)

/-- `stateKey`. -/
def stateKey (k : GoString) (r : Receiver) : GoString := k ++ str ":" ++ receiverKey r

namespace MeshEntry

def key (e : MeshEntry) : GoString := stateKey e.entry.groupKey e.entry.receiver

/-- The time stamp by which a stored entry is replaced. -/
def stamp (e : MeshEntry) : ℤ := asTime e.entry.timestamp

/-- The strings of the message, all of which a marshaller checks. -/
def strings (e : MeshEntry) : List GoString :=
  [e.entry.receiver.groupName, e.entry.receiver.integration] ++
    (GoMap.sortedKeys e.entry.receiverData).flatMap fun k =>
      match e.entry.receiverData.lookup k with
      | some (.strVal s) => [k, s]
      | _ => [k]

def toWire (e : MeshEntry) : WireMeshEntry where
  entry := some
    { groupKey := e.entry.groupKey
      receiver := some e.entry.receiver
      timestamp := e.entry.timestamp
      firingAlerts := e.entry.firingAlerts
      resolvedAlerts := e.entry.resolvedAlerts
      receiverData := e.entry.receiverData }
  expiresAt := e.expiresAt

/-- `marshalMeshEntry`. A large message is written, but not read back. -/
def marshal [Proto] (e : MeshEntry) : Option Payload :=
  if e.strings.all Utf8.validString then
    some ⟨if Proto.size e ≤ maxMessageSize then [e.toWire] else [],
      decide (Proto.size e ≤ maxMessageSize), varintLength (Proto.size e) + Proto.size e⟩
  else none

end MeshEntry

/-- The entry of a message from the wire, if none of its parts is missing. -/
def WireMeshEntry.toEntry (w : WireMeshEntry) : Option MeshEntry :=
  w.entry.bind fun e => e.receiver.map fun r =>
    { entry :=
        { groupKey := e.groupKey
          receiver := r
          timestamp := e.timestamp
          firingAlerts := e.firingAlerts
          resolvedAlerts := e.resolvedAlerts
          receiverData := e.receiverData }
      expiresAt := w.expiresAt }

@[simp] theorem toEntry_toWire (e : MeshEntry) : e.toWire.toEntry = some e := rfl

structure Log where
  st : GoMap GoString MeshEntry
  retention : ℤ

/-- `state.merge`: the state and whether the entry was merged. -/
def stateMerge (st : GoMap GoString MeshEntry) (e : MeshEntry) (now : ℤ) :
    GoMap GoString MeshEntry × Bool :=
  if asTime e.expiresAt < now then (st, false)
  else (LastWriter.write MeshEntry.stamp st e.key e, LastWriter.accepts MeshEntry.stamp st e.key e)

/-- The loop of `decodeState`. -/
def decodeMessages :
    List WireMeshEntry → GoMap GoString MeshEntry → Except LogError (GoMap GoString MeshEntry)
  | [], st => .ok st
  | w :: ws, st =>
    match w.toEntry with
    | none => .error .invalidState
    | some e => decodeMessages ws (st.insert e.key e)

/-- `decodeState`. -/
def decodeState (p : Payload) : Except LogError (GoMap GoString MeshEntry) :=
  match decodeMessages p.messages ∅ with
  | .error e => .error e
  | .ok st => if p.eof then .ok st else .error .unmarshal

namespace Log

/-- When an entry that is written now expires. -/
def expiresAt (l : Log) (now expiry : ℤ) : ℤ :=
  if 0 < expiry ∧ expiry < l.retention then now + expiry else now + l.retention

/-- The entry that `Log` writes. -/
def newEntry (l : Log) (r : Receiver) (gkey : GoString) (firing resolved : List UInt64)
    (store : Option StoreData) (expiry now : ℤ) : MeshEntry where
  entry :=
    { groupKey := gkey
      receiver := r
      timestamp := some now
      firingAlerts := firing
      resolvedAlerts := resolved
      receiverData := store.getD ∅ }
  expiresAt := some (l.expiresAt now expiry)

/-- `Log`: the log after it and its broadcasts. The clock is read at `now` and again
at `mergeNow`. -/
def log [Proto] (l : Log) (r : Receiver) (gkey : GoString) (firing resolved : List UInt64)
    (store : Option StoreData) (expiry now mergeNow : ℤ) : Except LogError (Log × List Payload) :=
  if (l.st.lookup (stateKey gkey r)).any fun prev => decide (now < prev.stamp) then .ok (l, [])
  else
    let e := l.newEntry r gkey firing resolved store expiry now
    match e.marshal with
    | none => .error .marshal
    | some b => .ok ({ l with st := (stateMerge l.st e mergeNow).1 }, [b])

/-- The loop of `GC`: it stops with an error at an entry without an expiry. -/
def gcLoop (now : ℤ) : List GoString → GoMap GoString MeshEntry → ℕ →
    Option LogError × GoMap GoString MeshEntry × ℕ
  | [], st, n => (none, st, n)
  | k :: order, st, n =>
    match st.lookup k with
    | none => gcLoop now order st n
    | some e =>
      if asTime e.expiresAt = 0 then (some .zeroExpiration, st, n)
      else if asTime e.expiresAt ≤ now then gcLoop now order (st.erase k) (n + 1)
      else gcLoop now order st n

/-- `GC`, ranging over the entries in the given order. -/
def gc (l : Log) (now : ℤ) (order : List GoString) : Option LogError × Log × ℕ :=
  let r := gcLoop now order l.st 0
  (r.1, { l with st := r.2.1 }, r.2.2)

/-- `Query` by group key and receiver. -/
def query (l : Log) (gkey : GoString) (r : Receiver) : Except LogError (List Entry) :=
  if gkey = [] then .error .noQueryParameters
  else
    match l.st.lookup (stateKey gkey r) with
    | some e => .ok [e.entry]
    | none => .error .notFound

/-- The loop of `Merge` over the decoded entries, in visiting order. -/
def mergeLoop (p : Payload) (st : GoMap GoString MeshEntry) (now : ℤ) :
    List GoString → Log → Log × List Payload
  | [], l => (l, [])
  | k :: order, l =>
    match st.lookup k with
    | none => mergeLoop p st now order l
    | some e =>
      let r := stateMerge l.st e now
      let rest := mergeLoop p st now order { l with st := r.1 }
      (rest.1, (if r.2 && !oversized p.length then [p] else []) ++ rest.2)

/-- `Merge`, ranging over the decoded entries in the given order. -/
def merge (l : Log) (p : Payload) (now : ℤ) (order : List GoString) :
    Option LogError × Log × List Payload :=
  match decodeState p with
  | .error e => (some e, l, [])
  | .ok st => (none, mergeLoop p st now order l)

end Log

/-! ### What is stored under the key of an entry -/

variable {l l' : Log} {e : MeshEntry} {now : ℤ}

/-- An unexpired entry is stored if everything under its key is older. -/
theorem lookup_stateMerge {st : GoMap GoString MeshEntry} (hexp : now ≤ asTime e.expiresAt)
    (hnewer : ∀ prev, st.lookup e.key = some prev → prev.stamp < e.stamp) :
    (stateMerge st e now).1.lookup e.key = some e := by
  rw [stateMerge, if_neg (by omega),
    LastWriter.lookup_write_of_accepts (LastWriter.accepts_iff.mpr hnewer), if_pos rfl]

theorem lookup_stateMerge_cases (st : GoMap GoString MeshEntry) (e : MeshEntry) (now : ℤ)
    (k : GoString) :
    (stateMerge st e now).1.lookup k = st.lookup k ∨
      k = e.key ∧ (stateMerge st e now).1.lookup k = some e := by
  unfold stateMerge LastWriter.write
  split_ifs
  · exact Or.inl rfl
  · rw [GoMap.lookup_insert_eq]
    split_ifs with hk
    · exact Or.inr ⟨hk, rfl⟩
    · exact Or.inl rfl
  · exact Or.inl rfl

/-- `Log` keeps a newer entry and returns, or it broadcasts the entry it has merged. -/
theorem Log.log_cases [Proto] {r : Receiver} {gkey : GoString} {firing resolved : List UInt64}
    {store : Option StoreData} {expiry mergeNow : ℤ} {bs : List Payload}
    (h : l.log r gkey firing resolved store expiry now mergeNow = .ok (l', bs)) :
    (l' = l ∧ bs = [] ∧ ∃ prev, l.st.lookup (stateKey gkey r) = some prev ∧ now < prev.stamp) ∨
      ∃ p, bs = [p] ∧ (l.newEntry r gkey firing resolved store expiry now).marshal = some p ∧
        l' = { l with
          st := (stateMerge l.st (l.newEntry r gkey firing resolved store expiry now)
            mergeNow).1 } := by
  rw [Log.log] at h
  split_ifs at h with hprev
  · obtain ⟨rfl, rfl⟩ := Prod.mk.inj (Except.ok.inj h)
    obtain ⟨prev, hlookup, hlt⟩ := Option.any_eq_true _ _ |>.mp hprev
    exact Or.inl ⟨rfl, rfl, prev, hlookup, of_decide_eq_true hlt⟩
  · cases hm : (l.newEntry r gkey firing resolved store expiry now).marshal with
    | none => simp [hm] at h
    | some p =>
      simp only [hm, Except.ok.injEq, Prod.mk.injEq] at h
      exact Or.inr ⟨p, h.2.symm, rfl, h.1.symm⟩

/-- What `GC` does not find expired it leaves. -/
theorem lookup_gcLoop {k : GoString} (hexp : now < asTime e.expiresAt) (order : List GoString)
    {st : GoMap GoString MeshEntry} (hk : st.lookup k = some e) (n : ℕ) :
    (Log.gcLoop now order st n).2.1.lookup k = some e := by
  induction order generalizing st n with
  | nil => exact hk
  | cons k' order ih =>
    cases hk' : st.lookup k' with
    | none =>
      simp only [Log.gcLoop, hk']
      exact ih hk n
    | some e' =>
      simp only [Log.gcLoop, hk']
      split_ifs with hzero hold
      · exact hk
      · refine ih ?_ (n + 1)
        have hne : k ≠ k' := by
          rintro rfl
          obtain rfl : e = e' := Option.some.inj (hk.symm.trans hk')
          omega
        rw [GoMap.lookup_erase_eq, if_neg hne]
        exact hk
      · exact ih hk n

/-- `GC` adds nothing. -/
theorem lookup_of_gcLoop {k : GoString} (now : ℤ) (order : List GoString)
    {st : GoMap GoString MeshEntry} (n : ℕ)
    (h : (Log.gcLoop now order st n).2.1.lookup k = some e) : st.lookup k = some e := by
  induction order generalizing st n with
  | nil => exact h
  | cons k' order ih =>
    cases hk' : st.lookup k' with
    | none =>
      simp only [Log.gcLoop, hk'] at h
      exact ih n h
    | some e' =>
      simp only [Log.gcLoop, hk'] at h
      split_ifs at h
      · exact h
      · have hkept := ih (n + 1) h
        rw [GoMap.lookup_erase_eq] at hkept
        split_ifs at hkept
        exact hkept
      · exact ih n h

theorem lookup_gcLoop_of_none {k : GoString} (now : ℤ) (order : List GoString)
    {st : GoMap GoString MeshEntry} (hk : st.lookup k = none) (n : ℕ) :
    (Log.gcLoop now order st n).2.1.lookup k = none := by
  cases h : (Log.gcLoop now order st n).2.1.lookup k with
  | none => rfl
  | some e => exact absurd (hk.symm.trans (lookup_of_gcLoop now order n h)) nofun

/-- The log after garbage collections at the given times, in the given orders. -/
def Log.collect (l : Log) (gcs : List (ℤ × List GoString)) : Log :=
  gcs.foldl (fun l g => (l.gc g.1 g.2).2.1) l

theorem Log.lookup_collect {k : GoString} {gcs : List (ℤ × List GoString)}
    (hexp : ∀ g ∈ gcs, g.1 < asTime e.expiresAt) (hk : l.st.lookup k = some e) :
    (l.collect gcs).st.lookup k = some e := by
  induction gcs generalizing l with
  | nil => exact hk
  | cons g gcs ih =>
    have hg : (l.gc g.1 g.2).2.1.st.lookup k = some e :=
      lookup_gcLoop (hexp g List.mem_cons_self) g.2 hk 0
    exact ih (fun g' hg' => hexp g' (List.mem_cons_of_mem g hg')) hg

/-- A broadcast that can be decoded is decoded to the entry it was made from. -/
theorem decodeState_marshal [Proto] {p : Payload} (h : e.marshal = some p)
    {st : GoMap GoString MeshEntry} (hst : decodeState p = .ok st) :
    st = (∅ : GoMap GoString MeshEntry).insert e.key e := by
  rw [MeshEntry.marshal] at h
  split_ifs at h with hutf8 hsize
  · obtain rfl := Option.some.inj h
    simpa [decodeState, decodeMessages, hsize] using hst.symm
  · obtain rfl := Option.some.inj h
    simp [decodeState, decodeMessages, hsize] at hst

theorem Log.merge_ok {p : Payload} {order : List GoString} (h : (l.merge p now order).1 = none) :
    ∃ st, decodeState p = .ok st := by
  cases hdec : decodeState p with
  | error err => simp [Log.merge, hdec] at h
  | ok st => exact ⟨st, rfl⟩

/-- A peer that has nothing as new stores the entry of a broadcast. -/
theorem Log.lookup_merge_marshal [Proto] {p : Payload} {order : List GoString}
    (h : e.marshal = some p) {st : GoMap GoString MeshEntry} (hst : decodeState p = .ok st)
    (horder : GoMap.Ranges st order)
    (hexp : now ≤ asTime e.expiresAt)
    (hnewer : ∀ prev, l.st.lookup e.key = some prev → prev.stamp < e.stamp) :
    (l.merge p now order).2.1.st.lookup e.key = some e := by
  obtain rfl := decodeState_marshal h hst
  have hperm : order.Perm [e.key] := by
    rw [List.perm_ext_iff_of_nodup horder.nodup (List.nodup_singleton _)]
    intro k
    rw [horder.mem]
    simp [Finmap.notMem_empty]
  obtain rfl := List.perm_singleton.mp hperm
  simp only [Log.merge, hst, Log.mergeLoop, Finmap.lookup_insert]
  exact lookup_stateMerge hexp hnewer

/-- Nothing but the entry of a broadcast gets into the log. -/
theorem Log.lookup_merge_cases [Proto] {p : Payload} (h : e.marshal = some p) (l : Log) (now : ℤ)
    (order : List GoString) (k : GoString) :
    (l.merge p now order).2.1.st.lookup k = l.st.lookup k ∨
      k = e.key ∧ (l.merge p now order).2.1.st.lookup k = some e := by
  cases hdec : decodeState p with
  | error err =>
    simp only [Log.merge, hdec]
    exact Or.inl trivial
  | ok st =>
    obtain rfl := decodeState_marshal h hdec
    simp only [Log.merge, hdec]
    induction order generalizing l with
    | nil => exact Or.inl rfl
    | cons k' order ih =>
      simp only [Log.mergeLoop, GoMap.lookup_insert_eq]
      split_ifs
      · obtain hrest | hrest := ih { l with st := (stateMerge l.st e now).1 }
        · rw [hrest]
          exact lookup_stateMerge_cases l.st e now k
        · exact Or.inr hrest
      · rw [Finmap.lookup_empty]
        exact ih l

end Alertmanager.Nflog
