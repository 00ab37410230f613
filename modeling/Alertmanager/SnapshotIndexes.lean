import Alertmanager.SilenceSnapshot

/-!
# The indexes after loading a snapshot

`loadSnapshot` ranges over the decoded state, upgrades each silence in place and adds it
to both indexes if its matchers compile. A silence that does not compile is left out of
the indexes, but it is not taken out of the state: no query, count or collection that
goes through the version index ever reaches it.
-/
namespace Alertmanager.Silences

section
variable [Regexp]

/-- The IDs in the state, in the version index and in the matcher index are those of the
decoded silences that compile, and the version index has each of them once. -/
structure Consistent (st : GoMap GoString MeshSilence) (s : Silences) : Prop where
  nodup : (s.vi.map SilenceVersion.id).Nodup
  state : ∀ id, id ∈ s.st ↔ (st.lookup id).any MeshSilence.compilable = true
  versioned : ∀ id, id ∈ s.vi.map SilenceVersion.id ↔
    (st.lookup id).any MeshSilence.compilable = true
  matched : ∀ id, id ∈ s.mi ↔ (st.lookup id).any MeshSilence.compilable = true

/-- Every stored silence is found by the query without parameters, counted in one of the
three states, collected when it is due, and matched by its own matchers. -/
structure Usable (s : Silences) : Prop where
  found : ∀ id e, s.st.lookup id = some e → ∀ now, e.silence ∈ (s.query [] now).1
  counted : ∀ now, s.countState [.expired, .active, .pending] now = .ok (GoMap.len s.st)
  collected : ∀ id e, s.st.lookup id = some e → ∀ now, collectable e now = true →
    (s.gc now).1.st.lookup id = none
  matched : ∀ id e, s.st.lookup id = some e → ∃ ms, s.mi.lookup id = some ms ∧
    ∀ lset, MatcherSet.matches ms lset = e.silence.appliesTo lset

variable {s : Silences}

theorem length_vi_eq_len (hnodup : (s.vi.map SilenceVersion.id).Nodup)
    (hmem : ∀ id, id ∈ s.vi.map SilenceVersion.id ↔ id ∈ s.st) : s.vi.length = GoMap.len s.st := by
  have hkeys : (s.vi.map SilenceVersion.id).toFinset = s.st.keys := by
    ext id
    rw [List.mem_toFinset, hmem, Finmap.mem_keys]
  rw [GoMap.len, ← hkeys, List.toFinset_card_of_nodup hnodup, List.length_map]

/-- With nothing to filter by, a query returns what it visits. -/
theorem collect_nil (now : ℤ) (sils : List Silence) :
    s.collect now [] (sils.map Except.ok) = .ok sils := by
  induction sils with
  | nil => rfl
  | cons sil sils ih => simp [collect, runFilters, ih]

theorem query_nil (hvi : ∀ sv ∈ s.vi, ∃ e, s.st.lookup sv.id = some e) (now : ℤ) :
    s.query [] now = (s.vi.filterMap fun sv => s.getSilence sv.id, s.version, none) := by
  simp [query, applyParams, runQuery, map_visit hvi, collect_nil]

/-- A store whose version index lists the stored IDs and whose matcher index holds their
compiled matchers serves every stored silence. -/
theorem usable_of_mirrored (hnodup : (s.vi.map SilenceVersion.id).Nodup)
    (hmem : ∀ id, id ∈ s.vi.map SilenceVersion.id ↔ id ∈ s.st) (hfiled : Filed s)
    (hmi : ∀ id e, s.st.lookup id = some e → ∃ ms, s.mi.lookup id = some ms ∧
      compileMatcherSets e.silence.matcherSets = some ms) : Usable s := by
  have hvi : ∀ sv ∈ s.vi, ∃ e, s.st.lookup sv.id = some e := fun sv hsv =>
    Finmap.mem_iff.mp ((hmem sv.id).mp (List.mem_map_of_mem hsv))
  have hversion : ∀ id e, s.st.lookup id = some e → ∃ sv ∈ s.vi, sv.id = id := fun id e he =>
    List.mem_map.mp ((hmem id).mpr (GoMap.mem_of_lookup he))
  refine ⟨fun id e he now => ?_, fun now => ?_, fun id e he now hc => ?_, fun id e he => ?_⟩
  · obtain ⟨sv, hsv, rfl⟩ := hversion id e he
    rw [query_nil hvi]
    exact List.mem_filterMap.mpr ⟨sv, hsv, by simp [getSilence, he]⟩
  · have hall : ∀ sil : Silence, sil.getState now ∈ [SilenceState.expired, .active, .pending] := by
      intro sil
      cases sil.getState now <;> simp
    have hlength : (s.vi.filterMap fun sv => s.getSilence sv.id).length = s.vi.length := by
      rw [← List.length_map (f := Except.ok (ε := SilenceError)), ← map_visit hvi, List.length_map]
    rw [countState, countLoop_eq hvi, ← length_vi_eq_len hnodup hmem, ← hlength]
    exact congrArg _ (List.countP_eq_length.mpr fun sil _ => decide_eq_true (hall sil))
  · have hswept := gcLoop_swept now s.vi s hnodup fun sv hsv => by
      obtain ⟨e', he'⟩ := hvi sv hsv
      exact ⟨e', he', hfiled sv.id e' he'⟩
    have hst := hswept.st id
    rw [if_pos ((hmem id).mpr (GoMap.mem_of_lookup he)), he] at hst
    simpa [gc, hc, Option.filter] using hst
  · obtain ⟨ms, hms, hcompiled⟩ := hmi id e he
    exact ⟨ms, hms, fun lset => by simp [Silence.appliesTo, hcompiled]⟩

variable {order : List GoString} {st : GoMap GoString MeshSilence}

/-- What `loadSnapshot` leaves of a decodable snapshot: the whole state, and the indexes of
the silences that compile. -/
structure Reloaded (st : GoMap GoString MeshSilence) (order : List GoString) (s : Silences) :
    Prop where
  state : ∀ id, s.st.lookup id = (st.lookup id).map MeshSilence.loaded
  versions : s.vi.map SilenceVersion.id =
    order.filter fun id => (st.lookup id).any MeshSilence.compilable
  matchers : ∀ id, s.mi.lookup id =
    (st.lookup id).bind fun e => compileMatcherSets e.silence.matcherSets

namespace Reloaded

theorem mem_state (h : Reloaded st order s) (id : GoString) : id ∈ s.st ↔ id ∈ st := by
  rw [← Finmap.lookup_isSome, h.state, Option.isSome_map, Finmap.lookup_isSome]

theorem exists_decoded (h : Reloaded st order s) {id : GoString} {e : MeshSilence}
    (he : s.st.lookup id = some e) : ∃ e', st.lookup id = some e' ∧ e'.loaded = e := by
  rw [h.state, Option.map_eq_some_iff] at he
  exact he

theorem nodup (h : Reloaded st order s) (horder : GoMap.Ranges st order) :
    (s.vi.map SilenceVersion.id).Nodup := by
  rw [h.versions]
  exact horder.nodup.filter _

/-- The IDs under which a silence was decoded that compiles. -/
theorem any_compilable (hc : ∀ id e, st.lookup id = some e → e.compilable = true)
    (id : GoString) : (st.lookup id).any MeshSilence.compilable = true ↔ id ∈ st := by
  rw [Option.any_eq_true, Finmap.mem_iff]
  exact exists_congr fun e => and_iff_left_of_imp (hc id e)

theorem mem_versions (h : Reloaded st order s) (horder : GoMap.Ranges st order)
    (hc : ∀ id e, st.lookup id = some e → e.compilable = true) (id : GoString) :
    id ∈ s.vi.map SilenceVersion.id ↔ id ∈ st := by
  rw [h.versions, List.mem_filter, horder.mem, any_compilable hc, and_self]

theorem exists_matchers (h : Reloaded st order s)
    (hc : ∀ id e, st.lookup id = some e → e.compilable = true) {id : GoString} {e : MeshSilence}
    (he : s.st.lookup id = some e) : ∃ ms, s.mi.lookup id = some ms ∧
      compileMatcherSets e.silence.matcherSets = some ms := by
  obtain ⟨e', he', rfl⟩ := h.exists_decoded he
  obtain ⟨ms, hms⟩ := Option.isSome_iff_exists.mp (hc id e' he')
  refine ⟨ms, ?_, ?_⟩
  · rw [h.matchers, he']
    exact hms
  · rw [MeshSilence.loaded, Silence.upgradeComments_matcherSets]
    exact hms

theorem mem_matchers (h : Reloaded st order s)
    (hc : ∀ id e, st.lookup id = some e → e.compilable = true) (id : GoString) :
    id ∈ s.mi ↔ id ∈ st := by
  rw [Finmap.mem_iff]
  constructor
  · rintro ⟨ms, hms⟩
    rw [h.matchers, Option.bind_eq_some_iff] at hms
    obtain ⟨e, he, -⟩ := hms
    exact GoMap.mem_of_lookup he
  · intro hid
    obtain ⟨e, he⟩ := Finmap.mem_iff.mp ((h.mem_state id).mpr hid)
    obtain ⟨ms, hms, -⟩ := h.exists_matchers hc he
    exact ⟨ms, hms⟩

theorem consistent (h : Reloaded st order s) (horder : GoMap.Ranges st order)
    (hc : ∀ id e, st.lookup id = some e → e.compilable = true) : Consistent st s where
  nodup := h.nodup horder
  state id := by rw [h.mem_state, any_compilable hc]
  versioned id := by rw [h.mem_versions horder hc, any_compilable hc]
  matched id := by rw [h.mem_matchers hc, any_compilable hc]

end Reloaded

end

section
variable [Regexp] [Codec] {bs : List UInt8} {order : List GoString}
  {st : GoMap GoString MeshSilence}

theorem loadSnapshot_reloaded (s : Silences) (hdec : decodeState (payloadOf bs) = .ok st)
    (horder : GoMap.Ranges st order) :
    ∃ s', s.loadSnapshot bs order = .ok s' ∧ Reloaded st order s' := by
  have hloop := loadLoop_loaded (s := { s with st := st, mi := ∅, vi := [] })
    (decodeState_id hdec) horder.nodup (fun id => (horder.mem id).mp)
  have hmem : ∀ id e, st.lookup id = some e → id ∈ order := fun id e he =>
    (horder.mem id).mpr (GoMap.mem_of_lookup he)
  have hload : s.loadSnapshot bs order = .ok
      { loadLoop order { s with st := st, mi := ∅, vi := [] } with version := s.version + 1 } := by
    simp only [loadSnapshot, hdec]
  refine ⟨_, hload, fun id => ?_, ?_, fun id => ?_⟩
  · dsimp only
    rw [hloop.st]
    cases he : st.lookup id with
    | none => simp
    | some e => simp [hmem id e he]
  · dsimp only
    rw [hloop.vi]
    simp [Function.comp_def]
  · dsimp only
    rw [hloop.mi]
    cases he : st.lookup id with
    | none => simp
    | some e =>
      cases hms : compileMatcherSets e.silence.matcherSets with
      | none => simp [MeshSilence.compilable, hms]
      | some ms => simp [MeshSilence.compilable, hms, hmem id e he]

/-- After loading a decodable snapshot the state and both indexes agree, and every loaded
silence can be found, counted, collected and matched, if and only if the matchers of all
its silences compile. -/
theorem loadSnapshot_consistent_iff (s : Silences) (hdec : decodeState (payloadOf bs) = .ok st)
    (horder : GoMap.Ranges st order) :
    ∃ s', s.loadSnapshot bs order = .ok s' ∧
      ((Consistent st s' ∧ Usable s') ↔
        ∀ id e, st.lookup id = some e → e.compilable = true) := by
  obtain ⟨s', hload, h⟩ := loadSnapshot_reloaded s hdec horder
  refine ⟨s', hload, fun hboth id e he => ?_, fun hc => ⟨h.consistent horder hc, ?_⟩⟩
  · have hmem : id ∈ s'.st := (h.mem_state id).mpr (GoMap.mem_of_lookup he)
    simpa [he] using (hboth.1.state id).mp hmem
  · have hfiled : Filed s' := by
      intro id e he
      obtain ⟨e', he', rfl⟩ := h.exists_decoded he
      exact (Silence.upgradeComments_id _).trans (decodeState_id hdec id e' he')
    refine usable_of_mirrored (h.nodup horder) (fun id => ?_) hfiled fun id e he =>
      h.exists_matchers hc he
    rw [h.mem_versions horder hc, h.mem_state]

end

section
attribute [local instance] noRegexp

/-- A silence with an old-style matcher of the given type and an old-style comment. -/
def oldSilence (id : String) (type : Silencepb.MatcherType) : Silence where
  id := str id
  matchers := [⟨type, str "a", str "1"⟩]
  startsAt := some 10
  endsAt := some 90
  updatedAt := some 5
  comments := [⟨str "me", str "why", none⟩]
  createdBy := []
  comment := []
  annotations := ∅
  matcherSets := []
  receiverMatcherSets := []

/-- A codec for two messages: one whose matcher compiles, and one whose matcher has a
type of a later version. -/
local instance twoMessages : Codec where
  encode _ := []
  decode bs :=
    if bs = [0] then some ⟨some (oldSilence "good" .equal), some 100⟩
    else if bs = [1] then some ⟨some (oldSilence "bad" (.unknown 9)), some 100⟩
    else none

/-- A snapshot with the given records. -/
def snapshotOf (records : List (List UInt8)) : List UInt8 := records.flatMap Delimited.frame

/-- What is decoded from records that are messages of the codec. -/
theorem payloadOf_snapshotOf (records : List (List UInt8)) (ws : List WireSilence)
    (hdecode : records.map Codec.decode = ws.map some)
    (hle : ∀ r ∈ records, r.length ≤ maxMessageSize) :
    payloadOf (snapshotOf records) = ⟨ws, true, (snapshotOf records).length⟩ := by
  have hread : Delimited.readAll maxMessageSize Codec.decode (snapshotOf records) = (ws, true) := by
    induction records generalizing ws with
    | nil =>
      obtain rfl := List.map_eq_nil_iff.mp hdecode.symm
      exact Delimited.readAll_nil
    | cons r records ih =>
      cases ws with
      | nil => cases hdecode
      | cons w ws =>
        obtain ⟨hr, hrest⟩ := List.cons.inj hdecode
        have htail := ih ws hrest fun r hr => hle r (List.mem_cons_of_mem _ hr)
        rw [snapshotOf, List.flatMap_cons, ← snapshotOf,
          Delimited.readAll_frame (by decide) (hle r List.mem_cons_self) hr, htail]
  simp only [payloadOf, hread]

theorem loadSnapshot_consistent_good :
    let bs := snapshotOf [[0]]
    ∃ s', (Silences.new 0).loadSnapshot bs [str "good"] = .ok s' ∧ Usable s' := by
  have hdec : decodeState (payloadOf (snapshotOf [[0]])) =
      .ok ((∅ : GoMap GoString MeshSilence).insert (str "good")
        ⟨(oldSilence "good" .equal).postprocess, some 100⟩) := by
    rw [payloadOf_snapshotOf [[0]] [⟨some (oldSilence "good" .equal), some 100⟩] rfl (by decide)]
    rfl
  have horder : GoMap.Ranges ((∅ : GoMap GoString MeshSilence).insert (str "good")
      ⟨(oldSilence "good" .equal).postprocess, some 100⟩) [str "good"] := by decide +kernel
  obtain ⟨s', hload, hiff⟩ := loadSnapshot_consistent_iff (Silences.new 0) hdec horder
  refine ⟨s', hload, (hiff.mpr fun id e he => ?_).2⟩
  rw [GoMap.lookup_insert_eq] at he
  split_ifs at he
  · obtain rfl := Option.some.inj he
    rfl
  · simp at he

/-- The silence with the unknown matcher type is in the state, but in neither index, and no
query finds it. -/
theorem uncompilable_silence_loaded :
    ∃ s', (Silences.new 0).loadSnapshot (snapshotOf [[0], [1]]) [str "good", str "bad"] = .ok s' ∧
      str "bad" ∈ s'.st ∧ s'.vi.map SilenceVersion.id = [str "good"] ∧
      s'.mi.lookup (str "bad") = none ∧ (s'.query [] 50).1.map Silence.id = [str "good"] := by
  have hread := payloadOf_snapshotOf [[0], [1]]
    [⟨some (oldSilence "good" .equal), some 100⟩,
      ⟨some (oldSilence "bad" (.unknown 9)), some 100⟩] rfl (by decide)
  simp only [loadSnapshot, hread]
  refine ⟨_, rfl, ?_⟩
  decide +kernel

end

end Alertmanager.Silences
