import Alertmanager.BinarySearch
import Alertmanager.LastWriter
import Alertmanager.Silence

/-!
# The silence store

`Silences` of `silence/silence.go`: the state by ID, the version counter, the
matcher index and the version index. Each public method takes the lock and reads
one clock value, so it is one function of the store. Broadcasts are returned as
the list of payloads handed to the gossip layer. A payload stands for the byte
string that carries it: the messages that `protodelim` reads from it, whether the
reading ends at the end of the input, and its length.
-/
namespace Alertmanager

structure SilenceVersion where
  id : GoString
  version : ℕ
  deriving DecidableEq, Repr

structure Payload where
  messages : List WireSilence
  eof : Bool
  length : ℕ

/-- `proto.Size` of a stored silence. -/
class Proto where
  size : MeshSilence → ℕ

abbrev zeroProto : Proto := ⟨fun _ => 0⟩

structure Silences [Regexp] where
  st : GoMap GoString MeshSilence
  version : ℕ
  mi : GoMap GoString MatcherSet
  vi : List SilenceVersion
  retention : ℤ

inductive SilenceError
  | notFound
  | invalidState
  | unmarshal
  | marshal
  | uuid
  | invalid (err : ValidationError)
  | tooLarge (size : ℕ) (limit : ℤ)
  | tooMany (count : ℕ) (limit : ℤ)
  | expirePrevious (err : SilenceError)
  | noIDs
  | sinceWithIDs
  | missingState (id : GoString)
  | zeroExpiration (id : GoString)
  deriving DecidableEq, Repr

/-- `cluster.OversizedMessage`. -/
def oversizedMessage (p : Payload) : Bool := oversized p.length

namespace MeshSilence

/-- The time stamp by which a stored silence is replaced. -/
def stamp (e : MeshSilence) : ℤ := asTime e.silence.updatedAt

/-- What `state.merge` leaves in the silence it is given. -/
def upgraded (e : MeshSilence) (now : ℤ) : MeshSilence :=
  if asTime e.expiresAt < now then e else { e with silence := e.silence.upgradeComments }

@[simp] theorem upgraded_id (e : MeshSilence) (now : ℤ) :
    (e.upgraded now).silence.id = e.silence.id := by
  unfold upgraded
  split_ifs <;> simp

@[simp] theorem upgraded_endsAt (e : MeshSilence) (now : ℤ) :
    (e.upgraded now).silence.endsAt = e.silence.endsAt := by
  unfold upgraded
  split_ifs <;> simp

/-- The message that carries a silence. -/
def wire (e : MeshSilence) : WireSilence := ⟨some e.silence, e.expiresAt⟩

def silenceID (e : MeshSilence) : GoString := e.silence.id

/-- A silence as it comes out of `decodeState`. -/
def decodedForm (e : MeshSilence) : MeshSilence := ⟨e.silence.postprocess, e.expiresAt⟩

/-- The copy of a silence that is written. -/
def prepared (e : MeshSilence) : MeshSilence := ⟨e.silence.prepareForMarshalling, e.expiresAt⟩

/-- `marshalMeshSilence`. A large message is written, but not read back. -/
def marshal [Proto] (e : MeshSilence) : Option Payload :=
  let size := Proto.size e.prepared
  if e.prepared.silence.marshals then
    some ⟨if size ≤ maxMessageSize then [e.prepared.wire] else [], decide (size ≤ maxMessageSize),
      varintLength size + size⟩
  else none

end MeshSilence

/-- `state.merge`: the state, whether it changed, and whether an ID was added. -/
def stateMerge (st : GoMap GoString MeshSilence) (e : MeshSilence) (now : ℤ) :
    GoMap GoString MeshSilence × Bool × Bool :=
  if asTime e.expiresAt < now then (st, false, false)
  else
    let e := e.upgraded now
    if LastWriter.accepts MeshSilence.stamp st e.silence.id e then
      (st.insert e.silence.id e, true, (st.lookup e.silence.id).isNone)
    else (st, false, false)

theorem stateMerge_of_live {st : GoMap GoString MeshSilence} {e : MeshSilence} {now : ℤ}
    (hexp : ¬ asTime e.expiresAt < now) :
    stateMerge st e now =
      if LastWriter.accepts MeshSilence.stamp st e.silence.id
          ⟨e.silence.upgradeComments, e.expiresAt⟩ then
        (st.insert e.silence.id ⟨e.silence.upgradeComments, e.expiresAt⟩, true,
          (st.lookup e.silence.id).isNone)
      else (st, false, false) := by
  have hup : e.upgraded now = ⟨e.silence.upgradeComments, e.expiresAt⟩ := if_neg hexp
  unfold stateMerge
  rw [if_neg hexp, hup]
  dsimp only
  rw [Silence.upgradeComments_id]

/-- The loop of `decodeState` over the messages read from the payload. -/
def decodeMessages : List WireSilence → GoMap GoString MeshSilence →
    Except SilenceError (GoMap GoString MeshSilence)
  | [], st => .ok st
  | w :: ws, st =>
    match w.silence with
    | none => .error .invalidState
    | some sil =>
      decodeMessages ws (st.insert sil.id ⟨sil.postprocess, w.expiresAt⟩)

/-- `decodeState`. -/
def decodeState (p : Payload) : Except SilenceError (GoMap GoString MeshSilence) :=
  match decodeMessages p.messages ∅ with
  | .error e => .error e
  | .ok st => if p.eof then .ok st else .error .unmarshal

theorem decodeMessages_forall {P : GoString → MeshSilence → Prop}
    (hP : ∀ sil expiresAt, P sil.id ⟨Silence.postprocess sil, expiresAt⟩) {ws : List WireSilence}
    {st st' : GoMap GoString MeshSilence} (hst : ∀ id e, st.lookup id = some e → P id e)
    (h : decodeMessages ws st = .ok st') : ∀ id e, st'.lookup id = some e → P id e := by
  induction ws generalizing st with
  | nil =>
    simp only [decodeMessages, Except.ok.injEq] at h
    exact h ▸ hst
  | cons w ws ih =>
    cases hw : w.silence with
    | none => simp [decodeMessages, hw] at h
    | some sil =>
      simp only [decodeMessages, hw] at h
      refine ih (fun id e he => ?_) h
      rw [GoMap.lookup_insert_eq] at he
      split_ifs at he with hk
      · obtain rfl := Option.some.inj he
        exact hk ▸ hP sil w.expiresAt
      · exact hst id e he

/-- What holds of every upgraded message holds of every decoded silence. -/
theorem decodeState_forall {P : GoString → MeshSilence → Prop}
    (hP : ∀ sil expiresAt, P sil.id ⟨Silence.postprocess sil, expiresAt⟩) {p : Payload}
    {st : GoMap GoString MeshSilence} (h : decodeState p = .ok st) :
    ∀ id e, st.lookup id = some e → P id e := by
  unfold decodeState at h
  cases hm : decodeMessages p.messages ∅ with
  | error e => simp [hm] at h
  | ok st' =>
    simp only [hm] at h
    split_ifs at h
    obtain rfl := Except.ok.inj h
    exact decodeMessages_forall hP (fun id e he => by simp at he) hm

theorem decodeState_id {p : Payload} {st : GoMap GoString MeshSilence}
    (h : decodeState p = .ok st) : ∀ id e, st.lookup id = some e → e.silence.id = id :=
  decodeState_forall (P := fun id e => e.silence.id = id) (fun _ _ => rfl) h

/-- What is decoded from silences with distinct IDs. -/
theorem decodeMessages_eq {l : List MeshSilence} {m st : GoMap GoString MeshSilence}
    (hl : (l.map MeshSilence.silenceID).Nodup)
    (h : decodeMessages (l.map MeshSilence.wire) m = .ok st)
    (id : GoString) (e' : MeshSilence) :
    st.lookup id = some e' ↔
      (∃ e ∈ l, MeshSilence.silenceID e = id ∧ e' = MeshSilence.decodedForm e) ∨
        (id ∉ l.map MeshSilence.silenceID ∧ m.lookup id = some e') := by
  induction l generalizing m with
  | nil =>
    simp only [List.map_nil, decodeMessages, Except.ok.injEq] at h
    simp [h]
  | cons e l ih =>
    rw [List.map_cons, List.nodup_cons] at hl
    simp only [List.map_cons, MeshSilence.wire, decodeMessages] at h
    rw [ih hl.2 h, GoMap.lookup_insert_eq]
    by_cases hid : id = e.silence.id
    · subst hid
      have hnot : e.silence.id ∉ l.map MeshSilence.silenceID := hl.1
      rw [if_pos rfl]
      constructor
      · rintro (⟨a, ha, hsame, -⟩ | ⟨-, he⟩)
        · exact absurd (hsame ▸ List.mem_map_of_mem ha) hnot
        · exact Or.inl ⟨e, List.mem_cons_self, rfl, (Option.some.inj he).symm⟩
      · rintro (⟨a, ha, hsame, rfl⟩ | ⟨hnew, -⟩)
        · rcases List.mem_cons.mp ha with rfl | ha
          · exact Or.inr ⟨hnot, rfl⟩
          · exact absurd (hsame ▸ List.mem_map_of_mem ha) hnot
        · exact absurd List.mem_cons_self hnew
    · have hne : MeshSilence.silenceID e ≠ id := Ne.symm hid
      simp [hid, hne, hne.symm]

theorem exists_decodeMessages (l : List MeshSilence) (m : GoMap GoString MeshSilence) :
    ∃ st, decodeMessages (l.map MeshSilence.wire) m = .ok st := by
  induction l generalizing m with
  | nil => exact ⟨m, rfl⟩
  | cons e l ih => exact ih _

namespace Silences
variable [Regexp]

/-- `New` without a snapshot. -/
def new (retention : ℤ) : Silences := ⟨∅, 0, ∅, [], retention⟩

/-- `getSilence`. -/
def getSilence (s : Silences) (id : GoString) : Option Silence :=
  (s.st.lookup id).map MeshSilence.silence

/-- `toMeshSilence`. -/
def toMeshSilence (s : Silences) (sil : Silence) : MeshSilence :=
  ⟨sil, some (asTime sil.endsAt + s.retention)⟩

/-- `indexSilence`: a silence that does not compile gets a version all the same. -/
def indexSilence (s : Silences) (sil : Silence) : Silences :=
  { s with
    version := s.version + 1
    vi := s.vi ++ [⟨sil.id, s.version + 1⟩]
    mi := match compileMatcherSets sil.matcherSets with
      | some ms => s.mi.insert sil.id ms
      | none => s.mi }

/-- The part that `setSilence` and `Merge` share: merge into the state and index
an added silence. -/
def mergeSilence (s : Silences) (e : MeshSilence) (now : ℤ) : Silences × Bool × Bool :=
  let r := stateMerge s.st e now
  let s' := { s with st := r.1 }
  (if r.2.2 then s'.indexSilence (e.upgraded now).silence else s', r.2)

/-! ### Local changes -/

section
variable [Proto]

/-- `setSilence`: the store and the broadcasts, or a marshalling error. -/
def setSilence (s : Silences) (msil : MeshSilence) (now : ℤ) :
    Except SilenceError (Silences × List Payload) :=
  match msil.marshal with
  | none => .error .marshal
  | some b =>
    let r := s.mergeSilence msil now
    .ok (r.1, if r.2.1 then [b] else [])

/-- The version of a silence that `expire` stores. -/
def expiredVersion (sil : Silence) (now : ℤ) : Silence :=
  { sil with
    startsAt := if sil.getState now = .pending then some now else sil.startsAt
    endsAt := some now
    updatedAt := some now }

/-- `expire` and `Expire`. -/
def expire (s : Silences) (id : GoString) (now : ℤ) :
    Option SilenceError × Silences × List Payload :=
  match s.getSilence id with
  | none => (some .notFound, s, [])
  | some sil =>
    if sil.getState now = .expired then (none, s, [])
    else match s.setSilence (s.toMeshSilence (expiredVersion sil now)) now with
      | .error e => (some e, s, [])
      | .ok r => (none, r)

/-- What `Set` reads from outside the store: the label-name scheme, the limits
(unset, or what the configured function returns) and the result of
`uuid.NewRandom`. -/
structure SetEnv where
  scheme : NameScheme
  maxSilences : Option ℤ
  maxSilenceSizeBytes : Option ℤ
  uuid : Option GoString

/-- What `Set` returns and leaves behind: the error, the silence it was given as
it has changed it, the store and the broadcasts. -/
structure SetResult where
  err : Option SilenceError
  sil : Silence
  silences : Silences
  broadcasts : List Payload

/-- `checkSizeLimits`. -/
def checkSizeLimits (env : SetEnv) (msil : MeshSilence) : Option SilenceError :=
  match env.maxSilenceSizeBytes with
  | none => none
  | some m => if 0 < m ∧ m < Proto.size msil then some (.tooLarge (Proto.size msil) m) else none

/-- The test of `Set` on the number of silences. -/
def checkCountLimit (s : Silences) (env : SetEnv) : Option SilenceError :=
  match env.maxSilences with
  | none => none
  | some m =>
    if 0 < m ∧ m < (GoMap.len s.st : ℤ) + 1 then some (.tooMany (GoMap.len s.st) m) else none

/-- The branch of `Set` that stores a new version of an existing silence. -/
def setUpdate (s : Silences) (env : SetEnv) (now : ℤ) (sil : Silence) : SetResult :=
  let sil := { sil with updatedAt := some now }
  let msil := s.toMeshSilence sil
  match checkSizeLimits env msil with
  | some e => ⟨some e, sil, s, []⟩
  | none =>
    match s.setSilence msil now with
    | .error e => ⟨some e, sil, s, []⟩
    | .ok r => ⟨none, (msil.upgraded now).silence, r.1, r.2⟩

/-- The step of `Set` that expires the silence to be replaced. -/
def expirePrevious (s : Silences) (prev : Option Silence) (now : ℤ) :
    Option SilenceError × Silences × List Payload :=
  match prev with
  | none => (none, s, [])
  | some p =>
    if p.getState now = .expired then (none, s, [])
    else match s.expire p.id now with
      | (some e, r) => (some (.expirePrevious e), r)
      | (none, r) => (none, r)

/-- The silence `Set` creates, with the ID it was given by `uuid.NewRandom`. -/
def created (sil : Silence) (uid : GoString) (now : ℤ) : Silence :=
  { sil with
    id := uid
    startsAt := if asTime sil.startsAt < now then some now else sil.startsAt
    updatedAt := some now }

/-- The branch of `Set` that creates a silence, replacing an existing one if it
cannot be updated. -/
def setCreate (s : Silences) (env : SetEnv) (now : ℤ) (prev : Option Silence) (sil : Silence) :
    SetResult :=
  match s.checkCountLimit env with
  | some e => ⟨some e, sil, s, []⟩
  | none =>
    match env.uuid with
    | none => ⟨some .uuid, sil, s, []⟩
    | some uid =>
      let sil := created sil uid now
      let msil := s.toMeshSilence sil
      match checkSizeLimits env msil with
      | some e => ⟨some e, sil, s, []⟩
      | none =>
        match s.expirePrevious prev now with
        | (some e, s', bs) => ⟨some e, sil, s', bs⟩
        | (none, s', bs) =>
          match s'.setSilence msil now with
          | .error e => ⟨some e, sil, s', bs⟩
          | .ok r => ⟨none, (msil.upgraded now).silence, r.1, bs ++ r.2⟩

/-- The silence as `Set` has it after validation: a missing start is now. -/
def normalized (sil : Silence) (now : ℤ) : Silence :=
  Silence.postprocess
    { sil with startsAt := if Silence.timeUnset sil.startsAt then some now else sil.startsAt }

/-- `Set`. -/
def set (s : Silences) (env : SetEnv) (now : ℤ) (sil : Silence) : SetResult :=
  let sil := normalized sil now
  match validateSilence env.scheme sil with
  | some e => ⟨some (.invalid e), sil, s, []⟩
  | none =>
    match s.getSilence sil.id with
    | none => if sil.id ≠ [] then ⟨some .notFound, sil, s, []⟩ else s.setCreate env now none sil
    | some prev =>
      if Silence.canUpdate prev sil now then s.setUpdate env now sil
      else s.setCreate env now (some prev) sil

end

/-! ### Gossip and garbage collection -/

/-- The loop of `Merge` over the decoded silences, in visiting order. -/
def mergeLoop (p : Payload) (st : GoMap GoString MeshSilence) (now : ℤ) :
    List GoString → Silences → Silences × List Payload
  | [], s => (s, [])
  | id :: order, s =>
    match st.lookup id with
    | none => mergeLoop p st now order s
    | some e =>
      let r := s.mergeSilence e now
      let rest := mergeLoop p st now order r.1
      (rest.1, (if r.2.1 && !oversizedMessage p then [p] else []) ++ rest.2)

/-- `Merge`, ranging over the decoded silences in the given order. -/
def merge (s : Silences) (p : Payload) (now : ℤ) (order : List GoString) :
    Option SilenceError × Silences × List Payload :=
  match decodeState p with
  | .error e => (some e, s, [])
  | .ok st => (none, mergeLoop p st now order s)

/-- Whether `GC` removes a stored silence: its expiry is unset or not after now. -/
def collectable (e : MeshSilence) (now : ℤ) : Bool :=
  Silence.timeUnset e.expiresAt || decide (asTime e.expiresAt ≤ now)

/-- The loop of `GC` over the version index: the entries that stay, the store
without the collected silences, their number and the reported errors. -/
def gcLoop (now : ℤ) : List SilenceVersion → Silences →
    List SilenceVersion × Silences × ℕ × List SilenceError
  | [], s => ([], s, 0, [])
  | sv :: vi, s =>
    match s.st.lookup sv.id with
    | none =>
      let r := gcLoop now vi s
      (r.1, r.2.1, r.2.2.1, .missingState sv.id :: r.2.2.2)
    | some e =>
      let errs :=
        if Silence.timeUnset e.expiresAt then [SilenceError.zeroExpiration e.silence.id] else []
      if collectable e now then
        let id := e.silence.id
        let r := gcLoop now vi { s with st := s.st.erase id, mi := s.mi.erase id }
        (r.1, r.2.1, r.2.2.1 + 1, errs ++ r.2.2.2)
      else
        let r := gcLoop now vi s
        (sv :: r.1, r.2.1, r.2.2.1, r.2.2.2)

/-- `GC`. -/
def gc (s : Silences) (now : ℤ) : Silences × ℕ × List SilenceError :=
  let r := gcLoop now s.vi s
  ({ r.2.1 with vi := r.1 }, r.2.2)

/-! ### Queries -/

inductive SilenceFilter
  | matches (lset : LabelSet)
  | state (states : List SilenceState)

structure Query where
  ids : List GoString
  since : Option ℕ
  filters : List SilenceFilter

inductive QueryParam
  | ids (ids : List GoString)
  | since (version : ℕ)
  | matches (lset : LabelSet)
  | state (states : List SilenceState)

/-- `QIDs`, `QSince`, `QMatches` and `QState`. -/
def QueryParam.apply : QueryParam → Query → Except SilenceError Query
  | .ids l, q =>
    if l.length = 0 then .error .noIDs
    else if q.since.isSome then .error .sinceWithIDs
    else .ok { q with ids := q.ids ++ l }
  | .since version, q =>
    if q.ids.length ≠ 0 then .error .sinceWithIDs
    else .ok { q with since := some version }
  | .matches lset, q => .ok { q with filters := q.filters ++ [.matches lset] }
  | .state states, q => .ok { q with filters := q.filters ++ [.state states] }

/-- A filter's verdict on a silence, or the error of the matcher index. -/
def SilenceFilter.run (s : Silences) (now : ℤ) (sil : Silence) :
    SilenceFilter → Except SilenceError Bool
  | .matches lset =>
    match s.mi.lookup sil.id with
    | none => .error .notFound
    | some ms => .ok (MatcherSet.matches ms lset)
  | .state states => .ok (decide (sil.getState now ∈ states))

/-- The loop of `appendIfFiltersMatch`: whether the silence is appended. -/
def runFilters (s : Silences) (now : ℤ) (sil : Silence) :
    List SilenceFilter → Except SilenceError Bool
  | [] => .ok true
  | f :: fs =>
    match f.run s now sil with
    | .error e => .error e
    | .ok false => .ok false
    | .ok true => runFilters s now sil fs

/-- The loops of `query`: each visited silence is appended or passed over, and an
error ends the query without a result. -/
def collect (s : Silences) (now : ℤ) (fs : List SilenceFilter) :
    List (Except SilenceError Silence) → Except SilenceError (List Silence)
  | [] => .ok []
  | .error e :: _ => .error e
  | .ok sil :: rest =>
    match s.runFilters now sil fs with
    | .error e => .error e
    | .ok keep =>
      match collect s now fs rest with
      | .error e => .error e
      | .ok res => .ok (if keep then sil :: res else res)

/-- `findVersionGreaterThan`: the start of the scan. -/
def findVersionGreaterThan (vi : List SilenceVersion) (version : ℕ) : ℕ :=
  BinarySearch.search vi.length fun i => (vi[i]?).any fun sv => decide (version < sv.version)

/-- The silence behind an entry of the version index. An entry without a stored
silence would be a nil dereference; the invariant of the store excludes it. -/
def visit (s : Silences) (sv : SilenceVersion) : Except SilenceError Silence :=
  match s.getSilence sv.id with
  | none => .error (.missingState sv.id)
  | some sil => .ok sil

/-- The loop of `CountState` over the version index. -/
def countLoop (s : Silences) (states : List SilenceState) (now : ℤ) :
    List SilenceVersion → Except SilenceError ℕ
  | [] => .ok 0
  | sv :: vi =>
    match s.visit sv with
    | .error e => .error e
    | .ok sil =>
      match countLoop s states now vi with
      | .error e => .error e
      | .ok n => .ok (if sil.getState now ∈ states then n + 1 else n)

/-- `CountState`. -/
def countState (s : Silences) (states : List SilenceState) (now : ℤ) : Except SilenceError ℕ :=
  s.countLoop states now s.vi

/-- `query`. -/
def runQuery (s : Silences) (q : Query) (now : ℤ) : Except SilenceError (List Silence) :=
  if q.ids ≠ [] then
    s.collect now q.filters ((q.ids.filterMap s.getSilence).map Except.ok)
  else
    let start := match q.since with
      | some v => findVersionGreaterThan s.vi v
      | none => 0
    s.collect now q.filters ((s.vi.drop start).map s.visit)

/-- The parameters of a query, applied in order. -/
def applyParams : List QueryParam → Query → Except SilenceError Query
  | [], q => .ok q
  | p :: ps, q =>
    match p.apply q with
    | .error e => .error e
    | .ok q' => applyParams ps q'

/-- `Query`: the result, nil in case of an error, the version and the error. -/
def query (s : Silences) (params : List QueryParam) (now : ℤ) :
    List Silence × ℕ × Option SilenceError :=
  match applyParams params ⟨[], none, []⟩ with
  | .error e => ([], s.version, some e)
  | .ok q =>
    match s.runQuery q now with
    | .error e => ([], s.version, some e)
    | .ok res => (res, s.version, none)

end Silences

end Alertmanager
