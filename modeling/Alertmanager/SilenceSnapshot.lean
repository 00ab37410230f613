import Alertmanager.Delimited
import Alertmanager.SilenceEdits
import Alertmanager.SilenceFeed

/-!
# Snapshots of silences

`Snapshot` writes each stored silence as a length-delimited record, and
`loadSnapshot` reads the records of a file into a store. The encoding of one
message belongs to protobuf and is a parameter; the framing is that of
`protodelim`, whose writer has no limit and whose reader rejects records above
4 MiB. A snapshot of a reachable store restores it exactly if no silence is
larger than that.
-/
namespace Alertmanager

/-- `proto.Marshal` and `proto.Unmarshal` of a `MeshSilence`. -/
class Codec where
  encode : WireSilence → List UInt8
  decode : List UInt8 → Option WireSilence

section
variable [Codec]

instance Codec.proto : Proto := ⟨fun e => (Codec.encode e.wire).length⟩

/-- What `protodelim.UnmarshalFrom` reads from a byte string, one message after the other. -/
def payloadOf (bs : List UInt8) : Payload :=
  let r := Delimited.readAll maxMessageSize Codec.decode bs
  ⟨r.1, r.2, bs.length⟩

namespace MeshSilence

/-- `marshalMeshSilence`, in bytes. -/
def marshalBytes (e : MeshSilence) : Except SilenceError (List UInt8) :=
  if e.prepared.silence.marshals then .ok (Delimited.frame (Codec.encode e.prepared.wire))
  else .error .marshal

/-- The codec does not change the message that carries a silence. -/
def Lossless (e : MeshSilence) : Prop :=
  Codec.decode (Codec.encode e.prepared.wire) = some e.prepared.wire

/-- The reader accepts the record of a silence. -/
def Readable (e : MeshSilence) : Prop :=
  (Codec.encode e.prepared.wire).length ≤ maxMessageSize

/-- The payload of a silence is what is read from its bytes. -/
theorem marshal_of_marshalBytes {e : MeshSilence} (he : e.Lossless) {bs : List UInt8}
    (h : e.marshalBytes = .ok bs) : e.marshal = some (payloadOf bs) := by
  unfold marshalBytes at h
  split_ifs at h with hvalid
  obtain rfl := Except.ok.inj h
  have hsize : Proto.size e.prepared = (Codec.encode e.prepared.wire).length := rfl
  have hlength : (Delimited.frame (Codec.encode e.prepared.wire)).length =
      varintLength (Proto.size e.prepared) + Proto.size e.prepared := Delimited.length_frame _
  have hlimit : maxMessageSize < 2 ^ 64 := by decide
  simp only [marshal, hvalid, if_true, payloadOf, hlength]
  rw [← List.append_nil (Delimited.frame _)]
  by_cases hle : Proto.size e.prepared ≤ maxMessageSize
  · rw [Delimited.readAll_frame hlimit (hsize ▸ hle) he, Delimited.readAll_nil]
    simp [hle]
  · rw [Delimited.readAll_frame_of_lt hlimit (hsize ▸ not_le.mp hle)]
    simp [hle]

end MeshSilence

/-- `state.MarshalBinary`, visiting the silences in the given order. -/
def marshalBinary (st : GoMap GoString MeshSilence) :
    List GoString → Except SilenceError (List UInt8)
  | [] => .ok []
  | id :: order =>
    match st.lookup id with
    | none => marshalBinary st order
    | some e =>
      match e.marshalBytes with
      | .error err => .error err
      | .ok b =>
        match marshalBinary st order with
        | .error err => .error err
        | .ok bs => .ok (b ++ bs)

/-- A snapshot is the sequence of the records. -/
theorem marshalBinary_eq {st : GoMap GoString MeshSilence} {order : List GoString}
    {bs : List UInt8} (h : marshalBinary st order = .ok bs) :
    bs = (order.filterMap st.lookup).flatMap
      fun e => Delimited.frame (Codec.encode e.prepared.wire) := by
  induction order generalizing bs with
  | nil => exact (Except.ok.inj h).symm
  | cons id order ih =>
    unfold marshalBinary at h
    cases he : st.lookup id with
    | none =>
      simp only [he] at h
      simp only [List.filterMap_cons, he]
      exact ih h
    | some e =>
      simp only [he, MeshSilence.marshalBytes] at h
      split_ifs at h
      cases hrest : marshalBinary st order with
      | error err => simp [hrest] at h
      | ok bs' =>
        simp only [hrest, Except.ok.injEq] at h
        simp only [List.filterMap_cons, he, List.flatMap_cons]
        rw [← ih hrest, h]

end

namespace MeshSilence

/-- Reading undoes what was done for older versions on writing. -/
theorem decodedForm_prepared {e : MeshSilence} (h : e.silence.matchers = []) :
    e.prepared.decodedForm = e := by
  obtain ⟨sil, expiresAt⟩ := e
  obtain ⟨id, matchers, startsAt, endsAt, updatedAt, comments, createdBy, comment, annotations,
    matcherSets, receiverMatcherSets⟩ := sil
  obtain rfl : matchers = [] := h
  cases matcherSets with
  | nil => rfl
  | cons ms mss => simp [decodedForm, prepared, Silence.prepareForMarshalling, Silence.postprocess]

@[simp] theorem prepared_id (e : MeshSilence) : e.prepared.silenceID = e.silenceID := by
  simp only [silenceID, prepared, Silence.prepareForMarshalling]
  split <;> rfl

end MeshSilence

namespace MeshSilence

/-- What `loadSnapshot` leaves in a silence it has decoded. -/
def loaded (e : MeshSilence) : MeshSilence := { e with silence := e.silence.upgradeComments }

/-- The matchers of the silence compile. -/
def compilable [Regexp] (e : MeshSilence) : Bool :=
  (compileMatcherSets e.silence.matcherSets).isSome

end MeshSilence

namespace Silences
variable [Regexp]

/-- One turn of the loop of `loadSnapshot`. The upgraded silence is seen through the
state, and it is indexed if its matchers compile. -/
def load (s : Silences) (id : GoString) (e : MeshSilence) : Silences :=
  let e := { e with silence := e.silence.upgradeComments }
  let s := { s with st := s.st.insert id e }
  match compileMatcherSets e.silence.matcherSets with
  | none => s
  | some ms =>
    { s with
      st := s.st.insert e.silence.id e
      mi := s.mi.insert e.silence.id ms
      vi := s.vi ++ [⟨e.silence.id, s.version + 1⟩] }

/-- The loop of `loadSnapshot` over the decoded silences, in visiting order. -/
def loadLoop : List GoString → Silences → Silences
  | [], s => s
  | id :: order, s =>
    match s.st.lookup id with
    | none => loadLoop order s
    | some e => loadLoop order (s.load id e)

section
variable [Codec]

/-- `Snapshot`. -/
def snapshot (s : Silences) (order : List GoString) : Except SilenceError (List UInt8) :=
  marshalBinary s.st order

/-- `loadSnapshot`, ranging over the decoded silences in the given order. -/
def loadSnapshot (s : Silences) (bs : List UInt8) (order : List GoString) :
    Except SilenceError Silences :=
  match decodeState (payloadOf bs) with
  | .error err => .error err
  | .ok st =>
    .ok { loadLoop order { s with st := st, mi := ∅, vi := [] } with version := s.version + 1 }

end

/-! ### Loading -/

/-- The silences have the current format only: one comment, and matchers in sets. -/
structure Plain (s : Silences) : Prop where
  matchers : ∀ id e, s.st.lookup id = some e → e.silence.matchers = []
  comments : ∀ id e, s.st.lookup id = some e → e.silence.comments = []

/-- A restored store: the same silences, all of them in both indexes. -/
structure Restored (s s' : Silences) : Prop where
  st : s'.st = s.st
  versioned : ∀ id ∈ s.st, ∃ sv ∈ s'.vi, sv.id = id
  matched : ∀ id e, s.st.lookup id = some e →
    ∃ ms, compileMatcherSets e.silence.matcherSets = some ms ∧ s'.mi.lookup id = some ms

variable {s : Silences}

theorem lookup_load {id : GoString} {e : MeshSilence} (hid : e.silence.id = id) (id' : GoString) :
    (s.load id e).st.lookup id' = if id' = id then some e.loaded else s.st.lookup id' := by
  have hloaded : e.loaded.silence.id = id := (Silence.upgradeComments_id _).trans hid
  unfold load
  dsimp only
  split
  · exact GoMap.lookup_insert_eq ..
  · rw [GoMap.lookup_insert_eq, GoMap.lookup_insert_eq]
    have hkey : e.silence.upgradeComments.id = id := hloaded
    rw [hkey]
    split_ifs <;> rfl

theorem vi_load {id : GoString} {e : MeshSilence} (hid : e.silence.id = id) :
    (s.load id e).vi =
      s.vi ++ if e.compilable then [⟨id, s.version + 1⟩] else [] := by
  unfold load MeshSilence.compilable
  cases h : compileMatcherSets e.silence.matcherSets <;> simp [h, hid]

theorem lookup_mi_load {id : GoString} {e : MeshSilence} (hid : e.silence.id = id)
    (id' : GoString) :
    (s.load id e).mi.lookup id' =
      if id' = id ∧ e.compilable = true then compileMatcherSets e.silence.matcherSets
      else s.mi.lookup id' := by
  unfold load MeshSilence.compilable
  cases h : compileMatcherSets e.silence.matcherSets with
  | none => simp [h]
  | some ms => simp [h, hid, GoMap.lookup_insert_eq]

theorem version_load (id : GoString) (e : MeshSilence) : (s.load id e).version = s.version := by
  unfold load
  dsimp only
  split <;> rfl

/-- Every visited silence is upgraded in the state, and those whose matchers compile are
indexed in visiting order. -/
structure Loaded (order : List GoString) (s s' : Silences) : Prop where
  st : ∀ id, s'.st.lookup id =
    if id ∈ order then (s.st.lookup id).map MeshSilence.loaded else s.st.lookup id
  vi : s'.vi = s.vi ++ (order.filter fun id => (s.st.lookup id).any MeshSilence.compilable).map
    fun id => ⟨id, s.version + 1⟩
  mi : ∀ id, s'.mi.lookup id =
    if id ∈ order ∧ (s.st.lookup id).any MeshSilence.compilable = true then
      (s.st.lookup id).bind fun e => compileMatcherSets e.silence.matcherSets
    else s.mi.lookup id

theorem loadLoop_loaded (hfiled : Filed s) {order : List GoString} (hnodup : order.Nodup)
    (horder : ∀ id ∈ order, id ∈ s.st) : Loaded order s (loadLoop order s) := by
  induction order generalizing s with
  | nil => exact ⟨by simp [loadLoop], by simp [loadLoop], by simp [loadLoop]⟩
  | cons id order ih =>
    obtain ⟨hfresh, hnodup⟩ := List.nodup_cons.mp hnodup
    obtain ⟨e, he⟩ := Finmap.mem_iff.mp (horder id List.mem_cons_self)
    have hid := hfiled id e he
    have hst := lookup_load (s := s) hid
    -- the turn leaves alone the silences that are still to be visited
    have hlater : ∀ id' ∈ order, (s.load id e).st.lookup id' = s.st.lookup id' := by
      intro id' h
      have hne : id' ≠ id := fun heq => hfresh (heq ▸ h)
      rw [hst, if_neg hne]
    have hrest := ih (s := s.load id e) ?_ hnodup ?_
    · simp only [loadLoop, he]
      refine ⟨fun id' => ?_, ?_, fun id' => ?_⟩
      · rw [hrest.st]
        by_cases heq : id' = id
        · subst heq
          simp [hfresh, hst, he]
        · simp [heq, hst]
      · have hfilter : (order.filter fun id' =>
              ((s.load id e).st.lookup id').any MeshSilence.compilable) =
            order.filter fun id' => (s.st.lookup id').any MeshSilence.compilable :=
          List.filter_congr fun id' h => by rw [hlater id' h]
        rw [hrest.vi, hfilter, vi_load hid, version_load, List.filter_cons, he]
        by_cases hc : e.compilable = true <;> simp [hc]
      · rw [hrest.mi, lookup_mi_load hid]
        by_cases heq : id' = id
        · subst heq
          simp [hfresh, he]
        · by_cases hmem : id' ∈ order
          · simp [hmem, heq, hlater id' hmem]
          · simp [hmem, heq]
    · intro id' e' he'
      rw [hst] at he'
      split_ifs at he' with heq
      · obtain rfl := Option.some.inj he'
        exact (Silence.upgradeComments_id _).trans (hid.trans heq.symm)
      · exact hfiled id' e' he'
    · intro id' h
      rw [Finmap.mem_iff]
      obtain ⟨e', he'⟩ := Finmap.mem_iff.mp (horder id' (List.mem_cons_of_mem _ h))
      exact ⟨e', (hlater id' h).trans he'⟩

/-! ### The format of stored silences -/

theorem plain_mergeSilence (hs : Plain s) {e : MeshSilence} (he : e.silence.matchers = [])
    (now : ℤ) : Plain (s.mergeSilence e now).1 := by
  have hup : e.silence.upgradeComments.matchers = [] ∧ e.silence.upgradeComments.comments = [] := by
    unfold Silence.upgradeComments
    split
    · next h => exact ⟨he, h⟩
    · exact ⟨he, rfl⟩
  constructor
  · intro id e' he'
    rw [lookup_mergeSilence] at he'
    split_ifs at he'
    · obtain rfl := Option.some.inj he'
      exact hup.1
    · exact hs.matchers id e' he'
  · intro id e' he'
    rw [lookup_mergeSilence] at he'
    split_ifs at he'
    · obtain rfl := Option.some.inj he'
      exact hup.2
    · exact hs.comments id e' he'

theorem plain_collected {now : ℤ} {s' : Silences} (hs : Plain s) (h : Collected now s s') :
    Plain s' where
  matchers id e he := by
    rw [h.st, Option.filter_eq_some_iff] at he
    exact hs.matchers id e he.1
  comments id e he := by
    rw [h.st, Option.filter_eq_some_iff] at he
    exact hs.comments id e he.1

section
variable [Proto]

theorem plain_expire (hs : Plain s) (id : GoString) (now : ℤ) :
    Plain (s.expire id now).2.1 := by
  have hout := expire_outcome s id now
  generalize s.expire id now = r at hout
  cases hout with
  | notFound hnone => exact hs
  | already prev hprev hexp => exact hs
  | unmarshallable prev hprev hlive hm => exact hs
  | offered prev hprev hlive b hm =>
    obtain ⟨e, he, rfl⟩ := lookup_of_getSilence hprev
    exact plain_mergeSilence (e := s.retired e.silence now) hs (hs.matchers id e he) now

theorem plain_expirePrevious (hs : Plain s) (prev : Option Silence) (now : ℤ) :
    Plain (s.expirePrevious prev now).2.1 := by
  rcases expirePrevious_cases s prev now with hsame | ⟨p, -, -, heq⟩
  · rw [hsame]
    exact hs
  · rw [heq]
    exact plain_expire hs p.id now

theorem plain_set (hs : Plain s) (env : SetEnv) (now : ℤ) (sil : Silence) :
    Plain (s.set env now sil).silences := by
  have hout := set_outcome s env now sil
  generalize s.set env now sil = r at hout
  cases hout with
  | refused err sil' => exact hs
  | updated prev h b hm => exact plain_mergeSilence hs rfl now
  | created prev uid h b hm => exact plain_mergeSilence (plain_expirePrevious hs prev now) rfl now
  | torn prev uid h hm => exact plain_expirePrevious hs prev now

end

end Silences

namespace SilenceStore

/-- Silences in an old format are upgraded before they are stored. -/
theorem plain_apply [Regexp] [Proto] {s : Silences} (hs : s.WellFormed) (hp : s.Plain) {op : Op}
    (hop : Ranged op) : (apply s op).Plain := by
  cases op with
  | set now env sil => exact Silences.plain_set hp env now sil
  | expire now id => exact Silences.plain_expire hp id now
  | gc now => exact Silences.plain_collected hp (Silences.gc_collected hs now)
  | merge now p order =>
    obtain ⟨now', h, -⟩ | hputs := apply_cases hs hop
    · cases h
    · refine hputs.invariant (I := Silences.Plain) (fun s' e hs' hoffer => ?_) hp
      obtain ⟨st, id, hdec, he⟩ := hoffer.1
      have hmatchers : e.silence.matchers = [] :=
        decodeState_forall (P := fun _ e => e.silence.matchers = []) (fun _ _ => rfl) hdec id e he
      exact Silences.plain_mergeSilence hs' hmatchers now

theorem plain_of_run [Regexp] [Proto] {retention t : ℤ} {ops : List Op} {s : State}
    (hrun : Run (Fires Enabled next) (init retention t) ops s) : s.silences.Plain := by
  have h : s.silences.WellFormed ∧ s.silences.Plain := by
    refine hrun.invariant (I := fun s => s.silences.WellFormed ∧ s.silences.Plain) ?_
      ⟨Silences.wellFormed_new retention, ⟨fun id e he => ?_, fun id e he => ?_⟩⟩
    · rintro s op s' ⟨hs, hp⟩ ⟨henabled, rfl⟩
      exact ⟨wellFormed_apply hs op, plain_apply hs hp henabled.ranged⟩
    · simp [init, Silences.new] at he
    · simp [init, Silences.new] at he
  exact h.2

end SilenceStore

/-! ### Writing and reading a snapshot -/

namespace Silences

section
variable [Regexp] {s : Silences} {order : List GoString}

/-- The stored silences in visiting order. -/
def visited (s : Silences) (order : List GoString) : List MeshSilence :=
  order.filterMap s.st.lookup

theorem mem_visited (horder : GoMap.Ranges s.st order) {e : MeshSilence} :
    e ∈ s.visited order ↔ ∃ id, s.st.lookup id = some e := by
  simp only [visited, List.mem_filterMap, horder.mem]
  exact ⟨fun ⟨id, _, he⟩ => ⟨id, he⟩, fun ⟨id, he⟩ => ⟨id, GoMap.mem_of_lookup he, he⟩⟩

theorem map_silenceID_visited (hfiled : Filed s) (horder : ∀ id ∈ order, id ∈ s.st) :
    (s.visited order).map MeshSilence.silenceID = order := by
  induction order with
  | nil => rfl
  | cons id order ih =>
    obtain ⟨e, he⟩ := Finmap.mem_iff.mp (horder id List.mem_cons_self)
    have hid : e.silenceID = id := hfiled id e he
    have htail := ih fun id' h => horder id' (List.mem_cons_of_mem _ h)
    simp only [visited, List.filterMap_cons, he, List.map_cons, hid] at htail ⊢
    rw [htail]

/-- The stored silences come back from the messages that carry them. -/
theorem decodeMessages_visited (hfiled : Filed s) (hplain : Plain s)
    (horder : GoMap.Ranges s.st order) :
    decodeMessages (((s.visited order).map MeshSilence.prepared).map MeshSilence.wire) ∅ =
      .ok s.st := by
  obtain ⟨st, hst⟩ := exists_decodeMessages ((s.visited order).map MeshSilence.prepared) ∅
  have hids : ((s.visited order).map MeshSilence.prepared).map MeshSilence.silenceID = order := by
    rw [List.map_map]
    simp only [Function.comp_def, MeshSilence.prepared_id]
    exact map_silenceID_visited hfiled fun id => (horder.mem id).mp
  have hback : ∀ id e, s.st.lookup id = some e → e.prepared.decodedForm = e :=
    fun id e he => MeshSilence.decodedForm_prepared (hplain.matchers id e he)
  have hnodup := horder.nodup
  rw [← hids] at hnodup
  rw [hst]
  refine congrArg Except.ok (Finmap.ext_lookup fun id => Option.ext fun e => ?_)
  rw [decodeMessages_eq hnodup hst]
  simp only [Finmap.lookup_empty, reduceCtorEq, and_false, or_false, List.mem_map]
  constructor
  · rintro ⟨-, ⟨a, ha, rfl⟩, hid, rfl⟩
    obtain ⟨id', ha⟩ := (mem_visited horder).mp ha
    have hid' : a.silenceID = id' := hfiled id' a ha
    rw [MeshSilence.prepared_id] at hid
    rw [hback id' a ha, ← hid, hid', ha]
  · intro he
    exact ⟨e.prepared, ⟨e, (mem_visited horder).mpr ⟨id, he⟩, rfl⟩,
      (MeshSilence.prepared_id e).trans (hfiled id e he), (hback id e he).symm⟩

end

section
variable [Regexp] [Codec] {s : Silences} {order order' : List GoString} {bs : List UInt8}

theorem payloadOf_snapshot (horder : GoMap.Ranges s.st order) (hsnap : s.snapshot order = .ok bs)
    (hcodec : ∀ id e, s.st.lookup id = some e → e.Lossless)
    (hread : ∀ id e, s.st.lookup id = some e → e.Readable) :
    payloadOf bs =
      ⟨((s.visited order).map MeshSilence.prepared).map MeshSilence.wire, true, bs.length⟩ := by
  have hall : Delimited.readAll maxMessageSize Codec.decode bs =
      ((s.visited order).map fun e => e.prepared.wire, true) := by
    rw [marshalBinary_eq hsnap]
    refine Delimited.readAll_flatMap (by decide) (fun e he => ?_) (fun e he => ?_)
    · obtain ⟨id, he⟩ := (mem_visited horder).mp he
      exact hcodec id e he
    · obtain ⟨id, he⟩ := (mem_visited horder).mp he
      exact hread id e he
  simp only [payloadOf, hall, List.map_map]
  rfl

/-- A snapshot is refused if it has a record above the limit. -/
theorem eof_payloadOf_snapshot (horder : GoMap.Ranges s.st order)
    (hsnap : s.snapshot order = .ok bs) (hcodec : ∀ id e, s.st.lookup id = some e → e.Lossless)
    {id : GoString} {e : MeshSilence} (he : s.st.lookup id = some e) (hlarge : ¬ e.Readable) :
    (payloadOf bs).eof = false := by
  have hall : (Delimited.readAll maxMessageSize Codec.decode bs).2 = false := by
    rw [marshalBinary_eq hsnap]
    refine Delimited.readAll_flatMap_of_lt (by decide) (fun e he => ?_)
      ⟨e, (mem_visited horder).mpr ⟨id, he⟩, not_le.mp hlarge⟩
    obtain ⟨id, he⟩ := (mem_visited horder).mp he
    exact ⟨_, hcodec id e he⟩
  exact hall

theorem loadSnapshot_error (heof : (payloadOf bs).eof = false) (s₀ : Silences)
    (order : List GoString) : ∃ err, s₀.loadSnapshot bs order = .error err := by
  unfold loadSnapshot decodeState
  cases decodeMessages (payloadOf bs).messages ∅ with
  | error err => exact ⟨err, rfl⟩
  | ok st => simp [heof]

theorem decodeState_snapshot (hfiled : Filed s) (hplain : Plain s)
    (horder : GoMap.Ranges s.st order) (hsnap : s.snapshot order = .ok bs)
    (hcodec : ∀ id e, s.st.lookup id = some e → e.Lossless)
    (hread : ∀ id e, s.st.lookup id = some e → e.Readable) :
    decodeState (payloadOf bs) = .ok s.st := by
  rw [payloadOf_snapshot horder hsnap hcodec hread]
  simp only [decodeState, decodeMessages_visited hfiled hplain horder, if_true]

theorem loadSnapshot_restores (hfiled : Filed s) (hplain : Plain s) (hc : Compiles s)
    (horder : GoMap.Ranges s.st order) (hsnap : s.snapshot order = .ok bs)
    (hcodec : ∀ id e, s.st.lookup id = some e → e.Lossless)
    (hread : ∀ id e, s.st.lookup id = some e → e.Readable)
    (horder' : SilenceStore.Visits (payloadOf bs) order') (s₀ : Silences) :
    ∃ s', s₀.loadSnapshot bs order' = .ok s' ∧ Restored s s' := by
  have hdec := decodeState_snapshot hfiled hplain horder hsnap hcodec hread
  simp only [SilenceStore.Visits, hdec] at horder'
  have hloop := loadLoop_loaded (s := { s₀ with st := s.st, mi := ∅, vi := [] }) hfiled
    horder'.nodup (fun id => (horder'.mem id).mp)
  have hload : s₀.loadSnapshot bs order' = .ok
      { loadLoop order' { s₀ with st := s.st, mi := ∅, vi := [] } with
        version := s₀.version + 1 } := by
    simp only [loadSnapshot, hdec]
  have hcompiles : ∀ id e, s.st.lookup id = some e →
      (compileMatcherSets e.silence.matcherSets).isSome = true := fun id e he =>
    hc id (Finmap.mem_keys.mpr (GoMap.mem_of_lookup he)) e he
  refine ⟨_, hload, Finmap.ext_lookup fun id => ?_, fun id hid => ?_, fun id e he => ?_⟩
  · dsimp only
    rw [hloop.st]
    cases he : s.st.lookup id with
    | none => simp
    | some e =>
      have hsame : e.loaded = e := by
        simp only [MeshSilence.loaded, Silence.upgradeComments, hplain.comments id e he]
      simp [hsame]
  · obtain ⟨e, he⟩ := Finmap.mem_iff.mp hid
    refine ⟨⟨id, s₀.version + 1⟩, ?_, rfl⟩
    dsimp only
    rw [hloop.vi]
    simpa [he, MeshSilence.compilable, hcompiles id e he] using (horder'.mem id).mpr hid
  · obtain ⟨ms, hms⟩ := Option.isSome_iff_exists.mp (hcompiles id e he)
    refine ⟨ms, hms, ?_⟩
    dsimp only
    rw [hloop.mi]
    simp [he, MeshSilence.compilable, hms, (horder'.mem id).mpr (GoMap.mem_of_lookup he)]

end

end Silences

namespace SilenceStore

/-- A snapshot of a reachable store restores it exactly if no silence is larger than
what the reader accepts. -/
theorem snapshot_restores_iff [Regexp] [Codec] {retention t : ℤ} {ops : List Op} {s : State}
    (hrun : Run (Fires Enabled next) (init retention t) ops s) (hc : s.silences.Compiles)
    {order order' : List GoString} {bs : List UInt8}
    (horder : GoMap.Ranges s.silences.st order) (hsnap : s.silences.snapshot order = .ok bs)
    (hcodec : ∀ id e, s.silences.st.lookup id = some e → e.Lossless)
    (horder' : Visits (payloadOf bs) order') (r : ℤ) :
    (∃ s', (Silences.new r).loadSnapshot bs order' = .ok s' ∧ s.silences.Restored s') ↔
      ∀ id e, s.silences.st.lookup id = some e → e.Readable := by
  constructor
  · rintro ⟨s', hload, -⟩ id e he
    by_contra hlarge
    have heof := Silences.eof_payloadOf_snapshot horder hsnap hcodec he hlarge
    obtain ⟨err, herr⟩ := Silences.loadSnapshot_error heof (Silences.new r) order'
    rw [herr] at hload
    cases hload
  · intro hread
    exact Silences.loadSnapshot_restores (wellFormed_of_run hrun).ident (plain_of_run hrun) hc
      horder hsnap hcodec hread horder' (Silences.new r)

end SilenceStore

/-! ### The encoding of a message -/

namespace Silencepb

/-- A field with a delimited content. -/
def field (tag : UInt8) (content : List UInt8) : List UInt8 := tag :: Delimited.frame content

/-- A number, in two's complement of 64 bits; zero is left out. -/
def intField (tag : UInt8) (n : ℤ) : List UInt8 :=
  if n = 0 then [] else tag :: Delimited.putVarint (n % 2 ^ 64).toNat

/-- A string; the empty one is left out. -/
def stringField (tag : UInt8) (s : GoString) : List UInt8 := if s = [] then [] else field tag s

/-- A timestamp: seconds since the epoch and nanoseconds. -/
def timestampField (tag : UInt8) : Option ℤ → List UInt8
  | none => []
  | some t =>
    field tag (intField 0x08 (Silence.unixSeconds t) ++
      intField 0x10 ((t - unixEpoch) % 1000000000))

def MatcherType.code : MatcherType → ℤ
  | .equal => 0
  | .regexp => 1
  | .notEqual => 2
  | .notRegexp => 3
  | .unknown code => code

def Matcher.encode (m : Matcher) : List UInt8 :=
  intField 0x08 m.type.code ++ stringField 0x12 m.name ++ stringField 0x1A m.pattern

def Comment.encode (c : Comment) : List UInt8 :=
  stringField 0x0A c.author ++ stringField 0x12 c.comment ++ timestampField 0x1A c.timestamp

def MatcherSet.encode (ms : MatcherSet) : List UInt8 := ms.flatMap fun m => field 0x0A m.encode

/-- The message `Silence` in the wire format of protobuf. -/
def encodeSilence (sil : Silence) : List UInt8 :=
  stringField 0x0A sil.id ++
    sil.matchers.flatMap (fun m => field 0x12 m.encode) ++
    timestampField 0x1A sil.startsAt ++
    timestampField 0x22 sil.endsAt ++
    timestampField 0x2A sil.updatedAt ++
    sil.comments.flatMap (fun c => field 0x3A c.encode) ++
    stringField 0x42 sil.createdBy ++
    stringField 0x4A sil.comment ++
    (GoMap.sortedKeys sil.annotations).flatMap
      (fun k => field 0x52 (field 0x0A k ++ field 0x12 ((sil.annotations.lookup k).getD []))) ++
    sil.matcherSets.flatMap (fun ms => field 0x5A (MatcherSet.encode ms)) ++
    sil.receiverMatcherSets.flatMap (fun ms => field 0x62 (MatcherSet.encode ms))

/-- The message `MeshSilence`. -/
def encode (w : WireSilence) : List UInt8 :=
  (match w.silence with
    | none => []
    | some sil => field 0x0A (encodeSilence sil)) ++ timestampField 0x12 w.expiresAt

/-- A codec that writes the wire format and reads the given message. -/
@[reducible] def reading (known : WireSilence) : Codec :=
  ⟨encode, fun bs => if bs = encode known then some known else none⟩

theorem lossless_reading (e : MeshSilence) : @MeshSilence.Lossless (reading e.prepared.wire) e :=
  if_pos rfl

theorem length_comment_le (sil : Silence) : sil.comment.length ≤ (encodeSilence sil).length := by
  have hfield : sil.comment.length ≤ (stringField 0x4A sil.comment).length := by
    unfold stringField field
    split_ifs with h
    · simp [h]
    · simp only [List.length_cons, Delimited.length_frame]
      omega
  simp only [encodeSilence, List.length_append]
  omega

theorem length_comment_lt (sil : Silence) (expiresAt : Option ℤ) :
    sil.comment.length < (encode ⟨some sil, expiresAt⟩).length := by
  have h := length_comment_le sil
  simp only [encode, field, List.length_append, List.length_cons, Delimited.length_frame]
  omega

end Silencepb

namespace SilenceStore

/-- A silence with a comment of `n` letters. -/
def commented (id : String) (updatedAt : ℤ) (n : ℕ) : Silence :=
  { silenceFrom id 10 100 updatedAt with comment := List.replicate n 97 }

/-- The silence is set at 5. -/
def commentedRun (n : ℕ) : List Op := [.set 5 (unlimited "x") (commented "" 0 n)]

/-- What is stored then. -/
def commentedStored (n : ℕ) : MeshSilence := ⟨commented "x" 5 n, some 100⟩

section
attribute [local instance] noRegexp

theorem validString_replicate (n : ℕ) : Utf8.validString (List.replicate n 97) = true := by
  induction n with
  | zero => rfl
  | succ n ih =>
    rw [List.replicate_succ]
    unfold Utf8.validString
    rw [if_pos (by decide), ih]

theorem marshals_commented (n : ℕ) : (commentedStored n).prepared.silence.marshals = true := by
  have hstrings : (commentedStored n).prepared.silence.strings =
      [str "x", [], List.replicate n 97, str "a", str "1", str "a", str "1"] := rfl
  have hshort : ([str "x", [], str "a", str "1"].all Utf8.validString) = true := by decide
  simp only [List.all_cons, List.all_nil, Bool.and_true, Bool.and_eq_true] at hshort
  simp [Silence.marshals, hstrings, validString_replicate, hshort]

theorem accepts_commented (n : ℕ) : (Silences.new 0).Accepts (commentedStored n) 5 := by
  have hlive : (5 : ℤ) ≤ 100 := by decide
  refine ⟨hlive, fun prev hprev => ?_⟩
  simp [Silences.new] at hprev

theorem length_encode_commented (n : ℕ) :
    n < (Silencepb.encode (commentedStored n).prepared.wire).length := by
  have hlength : (commentedStored n).prepared.silence.comment.length = n := List.length_replicate
  exact hlength.symm.trans_lt (Silencepb.length_comment_lt _ _)

section
variable [Codec]

theorem creates_commented (n : ℕ) :
    Silences.Creates (Silences.new 0) (unlimited "x") 5 (commented "" 0 n) none (str "x") where
  valid := by rfl
  found := by rfl
  unnamed _ := rfl
  replaced p hp := by cases hp
  room := rfl
  uuid := rfl
  fits := rfl
  expired := rfl

theorem set_commented (n : ℕ) :
    ((Silences.new 0).set (unlimited "x") 5 (commented "" 0 n)).err = none ∧
    ((Silences.new 0).set (unlimited "x") 5 (commented "" 0 n)).silences.st =
      Finmap.insert (str "x") (commentedStored n) ∅ := by
  obtain ⟨b, hb⟩ : ∃ b, (commentedStored n).marshal = some b := by
    simp only [MeshSilence.marshal, marshals_commented, if_true]
    exact ⟨_, rfl⟩
  rw [Silences.set_of_creates (creates_commented n) hb]
  exact ⟨rfl, (Silences.mergeSilence_of_accepts (accepts_commented n)).1⟩

/-- The state after the silence was set. -/
def commentedState (n : ℕ) : State := (commentedRun n).foldl next (init 0 0)

theorem run_commented (n : ℕ) :
    Run (Fires Enabled next) (init 0 0) (commentedRun n) (commentedState n) := by
  have hclock : (0 : ℤ) ≤ 5 := by decide
  exact Run.of_feasible ⟨⟨hclock, fun u _ => by simp [init]⟩, trivial⟩

theorem lookup_commented {n : ℕ} {id : GoString} {e : MeshSilence} :
    (commentedState n).silences.st.lookup id = some e ↔ id = str "x" ∧ e = commentedStored n := by
  have hst : (commentedState n).silences.st = Finmap.insert (str "x") (commentedStored n) ∅ :=
    (set_commented n).2
  rw [hst, GoMap.lookup_insert_eq]
  split_ifs with hid
  · simp [hid, eq_comm]
  · simp [hid]

theorem ranges_commented (n : ℕ) :
    GoMap.Ranges (commentedState n).silences.st [str "x"] where
  nodup := by simp
  mem id := by simp [Finmap.mem_iff, lookup_commented]

theorem compiles_commented (n : ℕ) : (commentedState n).silences.Compiles := by
  intro id _ e he
  obtain ⟨-, rfl⟩ := lookup_commented.mp he
  rfl

theorem snapshot_commented (n : ℕ) :
    ∃ bs, (commentedState n).silences.snapshot [str "x"] = .ok bs := by
  simp only [Silences.snapshot, marshalBinary, lookup_commented.mpr ⟨rfl, rfl⟩,
    MeshSilence.marshalBytes, marshals_commented, if_true]
  exact ⟨_, rfl⟩

end

section
local instance shortCodec : Codec := Silencepb.reading (commentedStored 3).prepared.wire

/-- A silence with a short comment is restored. -/
theorem snapshot_restores_short :
    ∃ bs s', (commentedState 3).silences.snapshot [str "x"] = .ok bs ∧
      (Silences.new 0).loadSnapshot bs [str "x"] = .ok s' ∧
      (commentedState 3).silences.Restored s' := by
  have hrun := run_commented 3
  have horder := ranges_commented 3
  have hcodec : ∀ id e, (commentedState 3).silences.st.lookup id = some e → e.Lossless := by
    intro id e he
    obtain ⟨-, rfl⟩ := lookup_commented.mp he
    exact Silencepb.lossless_reading _
  have hread : ∀ id e, (commentedState 3).silences.st.lookup id = some e → e.Readable := by
    intro id e he
    obtain ⟨-, rfl⟩ := lookup_commented.mp he
    unfold MeshSilence.Readable
    decide +kernel
  obtain ⟨bs, hsnap⟩ := snapshot_commented 3
  have hvisits : Visits (payloadOf bs) [str "x"] := by
    have hdec := Silences.decodeState_snapshot (wellFormed_of_run hrun).ident (plain_of_run hrun)
      horder hsnap hcodec hread
    simpa only [Visits, hdec] using horder
  obtain ⟨s', hload, hrestored⟩ := (snapshot_restores_iff hrun (compiles_commented 3) horder hsnap
    hcodec hvisits 0).mpr hread
  exact ⟨bs, s', hsnap, hload, hrestored⟩

end

section
local instance longCodec : Codec :=
  Silencepb.reading (commentedStored maxMessageSize).prepared.wire

/-- A silence with a comment of 4 MiB is set without an error, and the snapshot of the
store is written, but no store loads it. -/
theorem large_silence_not_restored :
    let s := commentedState maxMessageSize
    Run (Fires Enabled next) (init 0 0) (commentedRun maxMessageSize) s ∧
    ((Silences.new 0).set (unlimited "x") 5 (commented "" 0 maxMessageSize)).err = none ∧
    s.silences.Compiles ∧ (∀ id e, s.silences.st.lookup id = some e → e.Lossless) ∧
    ∃ bs, s.silences.snapshot [str "x"] = .ok bs ∧
      ∀ r order, ∃ err, (Silences.new r).loadSnapshot bs order = .error err := by
  intro s
  have hcodec : ∀ id e, s.silences.st.lookup id = some e → e.Lossless := by
    intro id e he
    obtain ⟨-, rfl⟩ := lookup_commented.mp he
    exact Silencepb.lossless_reading _
  have hlarge : ¬ (commentedStored maxMessageSize).Readable :=
    not_le.mpr (length_encode_commented maxMessageSize)
  obtain ⟨bs, hsnap⟩ := snapshot_commented maxMessageSize
  have heof := Silences.eof_payloadOf_snapshot (ranges_commented maxMessageSize) hsnap hcodec
    (lookup_commented.mpr ⟨rfl, rfl⟩) hlarge
  exact ⟨run_commented _, (set_commented _).1, compiles_commented _, hcodec, bs, hsnap,
    fun r => Silences.loadSnapshot_error heof (Silences.new r)⟩

end

end

end SilenceStore

end Alertmanager
