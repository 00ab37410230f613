import Alertmanager.Runs
import Alertmanager.Silencer

/-!
# Runs of a node with silences

One node interleaves local changes of its silences, gossip, collections and
`Mutes` calls. A cache entry answers for all silences up to its version: those
that match and are not listed had expired. An operation breaks this when it
replaces a silence that had expired by a version that has not, because a replaced
silence gets no new version in the index. `Set` and `Expire` never do so; a merge
of a delayed message can.
-/
namespace Alertmanager.SilencerRuns

structure State [Regexp] where
  silences : Silences
  cache : SilencerCache
  clock : ℤ

inductive Op
  | set (now : ℤ) (env : Silences.SetEnv) (sil : Silence)
  | expire (now : ℤ) (id : GoString)
  | gc (now : ℤ)
  | merge (now : ℤ) (p : Payload) (order : List GoString)
  | mutes (now : ℤ) (lset : LabelSet)
  | postGC (now : ℤ) (fps : List Fingerprint)

/-- The reading of the clock at which an operation is executed. -/
def Op.now : Op → ℤ
  | .set now _ _ | .expire now _ | .gc now | .merge now _ _ | .mutes now _ | .postGC now _ => now

section
variable [Regexp]

def init (retention t : ℤ) : State := ⟨Silences.new retention, ∅, t⟩

def next [Proto] [LabelHash] (s : State) : Op → State
  | .set now env sil => ⟨(s.silences.set env now sil).silences, s.cache, now⟩
  | .expire now id => ⟨(s.silences.expire id now).2.1, s.cache, now⟩
  | .gc now => ⟨(s.silences.gc now).1, s.cache, now⟩
  | .merge now p order => ⟨(s.silences.merge p now order).2.1, s.cache, now⟩
  | .mutes now lset => ⟨s.silences, (Silencer.mutes s.silences s.cache now lset).cache, now⟩
  | .postGC now fps => ⟨s.silences, Silencer.postGC s.cache fps, now⟩

/-- The silences of a payload, if it can be decoded. -/
def decoded (p : Payload) : GoMap GoString MeshSilence :=
  match decodeState p with
  | .ok st => st
  | .error _ => ∅

/-- The assumptions on an operation: the clock does not go back, a generated ID is
not stored yet, all versions of an ID have the matcher sets that `M` assigns to
it, gossiped matchers compile, and the label sets are among `S`. -/
def Enabled (M : GoString → List Silencepb.MatcherSet) (S : Finset LabelSet) (s : State)
    (op : Op) : Prop :=
  s.clock ≤ op.now ∧
  match op with
  | .set now env sil => ∀ u ∈ env.uuid,
      u ∉ s.silences.st ∧ M u = (Silences.normalized sil now).matcherSets
  | .merge _ p order =>
    GoMap.Ranges (decoded p) order ∧
    ∀ id ∈ (decoded p).keys, ∀ e ∈ (decoded p).lookup id,
      e.silence.matcherSets = M id ∧ (compileMatcherSets (M id)).isSome = true
  | .mutes _ lset => lset ∈ S
  | _ => True

instance (M : GoString → List Silencepb.MatcherSet) (S : Finset LabelSet) (s : State) (op : Op) :
    Decidable (Enabled M S s op) := by
  unfold Enabled
  cases op <;> infer_instance

/-- What completeness asks of an operation: a silence that passes the validation
of `Set` compiles, and no merge puts a version that has not expired in the place
of a stored silence that has. -/
def Sound (s : State) : Op → Prop
  | .set now env sil => validateSilence env.scheme (Silences.normalized sil now) = none →
      (compileMatcherSets (Silences.normalized sil now).matcherSets).isSome = true
  | .merge now p _ => ∀ id ∈ (decoded p).keys, ∀ e ∈ (decoded p).lookup id,
      ∀ prev ∈ s.silences.st.lookup id,
        now ≤ asTime e.expiresAt → asTime prev.silence.updatedAt < asTime e.silence.updatedAt →
        prev.silence.getState now = .expired → e.silence.getState now = .expired
  | _ => True

instance (s : State) (op : Op) : Decidable (Sound s op) := by
  cases op <;> unfold Sound <;> infer_instance

end

/-- The indexes mirror the state after every operation, with no assumption on it. -/
theorem wellFormed_next [Regexp] [Proto] [LabelHash] {s : State} (hs : s.silences.WellFormed)
    (op : Op) : (next s op).silences.WellFormed := by
  cases op with
  | set now env sil => exact (Silences.set_puts hs env now sil).wellFormed hs
  | expire now id => exact (Silences.expire_puts hs s.silences none [] id now).wellFormed hs
  | gc now => exact Silences.wellFormed_collected hs (Silences.gc_collected hs now)
  | merge now p order => exact Silences.wellFormed_merge hs p now order
  | mutes now lset => exact hs
  | postGC now fps => exact hs

/-! ### The invariant of the store and the cache -/

section
variable [Regexp]

/-- Every stored silence is in the matcher index with the matchers of its ID. -/
structure Compiled (M : GoString → List Silencepb.MatcherSet) (s : Silences) : Prop where
  wf : s.WellFormed
  carries : ∀ id e, s.st.lookup id = some e → e.silence.matcherSets = M id
  indexed : ∀ id, id ∈ s.st → ∃ ms, compileMatcherSets (M id) = some ms ∧ s.mi.lookup id = some ms

/-- The entry of a label set answers for the silences up to its version. -/
structure Caught (now : ℤ) (lset : LabelSet) (entry : CacheEntry) (s : Silences) : Prop where
  version : entry.version ≤ s.version
  expired : ∀ sv ∈ s.vi, sv.version ≤ entry.version → sv.id ∉ entry.silenceIDs →
    ∀ e, s.st.lookup sv.id = some e → e.silence.appliesTo lset = true →
      e.silence.getState now = .expired

variable {M : GoString → List Silencepb.MatcherSet} {s : Silences} {now : ℤ} {lset : LabelSet}
  {entry : CacheEntry}

theorem Caught.later (h : Caught now lset entry s) {now' : ℤ} (hle : now ≤ now') :
    Caught now' lset entry s where
  version := h.version
  expired sv hsv hver hid e he happ :=
    Silence.expired_mono hle (h.expired sv hsv hver hid e he happ)

theorem caught_zero (hs : s.WellFormed) : Caught now lset ⟨[], 0⟩ s where
  version := Nat.zero_le _
  expired sv hsv hver := by
    have hpos := (hs.bound sv hsv).1
    dsimp only at hver
    omega

/-- The merges that keep both parts of the invariant. -/
def Merges (M : GoString → List Silencepb.MatcherSet) (now : ℤ) (s : Silences) (e : MeshSilence) :
    Prop :=
  e.silence.matcherSets = M e.silence.id ∧ (compileMatcherSets (M e.silence.id)).isSome = true ∧
  ∀ prev, s.st.lookup e.silence.id = some prev → now ≤ asTime e.expiresAt →
    asTime prev.silence.updatedAt < asTime e.silence.updatedAt →
    prev.silence.getState now = .expired → e.silence.getState now = .expired

theorem compiled_mergeSilence (hs : Compiled M s) {e : MeshSilence} (he : Merges M now s e) :
    Compiled M (s.mergeSilence e now).1 := by
  have hwf := Silences.wellFormed_mergeSilence hs.wf e now
  have hout := Silences.mergeSilence_outcome s e now
  generalize s.mergeSilence e now = r at hout hwf
  have hcarries : ∀ id e', (s.st.insert e.silence.id
      ⟨e.silence.upgradeComments, e.expiresAt⟩).lookup id = some e' →
      e'.silence.matcherSets = M id := by
    intro id e' h
    rw [GoMap.lookup_insert_eq] at h
    split_ifs at h with hk
    · obtain rfl := Option.some.inj h
      simp [hk, he.1]
    · exact hs.carries id e' h
  cases hout with
  | kept => exact hs
  | added hexp hfresh =>
    refine ⟨hwf, hcarries, fun id hid => ?_⟩
    obtain ⟨ms, hms⟩ := Option.isSome_iff_exists.mp he.2.1
    have hmi : (Silences.indexSilence
        { s with st := s.st.insert e.silence.id ⟨e.silence.upgradeComments, e.expiresAt⟩ }
        e.silence.upgradeComments).mi = s.mi.insert e.silence.id ms := by
      simp [Silences.indexSilence, he.1, hms]
    rw [hmi, GoMap.lookup_insert_eq]
    split_ifs with hk
    · exact ⟨ms, by rw [hk, hms], rfl⟩
    · rcases Finmap.mem_insert.mp hid with h | h
      · exact absurd h hk
      · exact hs.indexed id h
  | replaced hexp prev hprev hnewer =>
    refine ⟨hwf, hcarries, fun id hid => ?_⟩
    rcases Finmap.mem_insert.mp hid with rfl | h
    · exact hs.indexed _ (GoMap.mem_of_lookup hprev)
    · exact hs.indexed id h

theorem caught_mergeSilence (hs : Compiled M s) (hc : Caught now lset entry s) {e : MeshSilence}
    (he : Merges M now s e) : Caught now lset entry (s.mergeSilence e now).1 := by
  have hout := Silences.mergeSilence_outcome s e now
  generalize s.mergeSilence e now = r at hout
  cases hout with
  | kept => exact hc
  | added hexp hfresh =>
    refine ⟨hc.version.trans (Nat.le_succ _), fun sv hsv hver hid e' he' happ => ?_⟩
    simp only [Silences.indexSilence, List.mem_append, List.mem_singleton] at hsv
    rcases hsv with hsv | rfl
    · obtain ⟨e₀, he₀⟩ := hs.wf.exists_stored hsv
      have hne : sv.id ≠ e.silence.id := by
        intro h
        rw [h, hfresh] at he₀
        cases he₀
      have hold : s.st.lookup sv.id = some e' := by
        simpa [Silences.indexSilence, GoMap.lookup_insert_eq, hne] using he'
      exact hc.expired sv hsv hver hid e' hold happ
    · have hle := hc.version
      dsimp only at hver
      omega
  | replaced hexp prev hprev hnewer =>
    refine ⟨hc.version, fun sv hsv hver hid e' he' happ => ?_⟩
    dsimp only at he'
    rw [GoMap.lookup_insert_eq] at he'
    split_ifs at he' with hk
    · obtain rfl := Option.some.inj he'
      have hprev' : s.st.lookup sv.id = some prev := by rw [hk, hprev]
      have hsame : prev.silence.appliesTo lset = e.silence.appliesTo lset := by
        unfold Silence.appliesTo
        rw [hs.carries _ prev hprev, he.1]
      have happ' : prev.silence.appliesTo lset = true := by
        rw [hsame]
        simpa [Silence.appliesTo] using happ
      have hexpired := hc.expired sv hsv hver hid prev hprev' happ'
      simpa using he.2.2 prev hprev hexp hnewer hexpired
    · exact hc.expired sv hsv hver hid e' he' happ

/-- A sequence of admitted merges. -/
theorem compiled_puts (hs : Compiled M s) {P : Silences → MeshSilence → Prop} {s' : Silences}
    (hP : ∀ s' e, Compiled M s' → P s' e → Merges M now s' e) (h : Silences.Puts P now s s') :
    Compiled M s' :=
  Silences.Puts.invariant (I := Compiled M)
    (fun s' e hI hPe => compiled_mergeSilence hI (hP s' e hI hPe)) h hs

theorem caught_puts (hs : Compiled M s) (hc : Caught now lset entry s)
    {P : Silences → MeshSilence → Prop} {s' : Silences}
    (hP : ∀ s' e, Compiled M s' → P s' e → Merges M now s' e) (h : Silences.Puts P now s s') :
    Caught now lset entry s' :=
  (Silences.Puts.invariant (I := fun s' => Compiled M s' ∧ Caught now lset entry s')
    (fun s' e hI hPe => ⟨compiled_mergeSilence hI.1 (hP s' e hI.1 hPe),
      caught_mergeSilence hI.1 hI.2 (hP s' e hI.1 hPe)⟩) h ⟨hs, hc⟩).2

theorem compiled_collected (hs : Compiled M s) {s' : Silences}
    (h : Silences.Collected now s s') : Compiled M s' where
  wf := Silences.wellFormed_collected hs.wf h
  carries id e he := by
    rw [h.st, Option.filter_eq_some_iff] at he
    exact hs.carries id e he.1
  indexed id hid := by
    obtain ⟨e, he⟩ := Finmap.mem_iff.mp hid
    rw [h.st, Option.filter_eq_some_iff] at he
    obtain ⟨ms, hms, hmi⟩ := hs.indexed id (GoMap.mem_of_lookup he.1)
    refine ⟨ms, hms, ?_⟩
    rw [h.mi, if_neg]
    · exact hmi
    · simpa [he.1] using he.2

theorem caught_collected (hc : Caught now lset entry s) {s' : Silences}
    (h : Silences.Collected now s s') : Caught now lset entry s' where
  version := by
    rw [h.version]
    exact hc.version
  expired sv hsv hver hid e he happ := by
    rw [h.vi] at hsv
    rw [h.st, Option.filter_eq_some_iff] at he
    exact hc.expired sv (List.mem_of_mem_filter hsv) hver hid e he.1 happ

theorem merges_of_localPut {s₀ : Silences} {uuid : Option GoString}
    {mss : List Silencepb.MatcherSet} {now : ℤ}
    (huuid : ∀ u ∈ uuid, u ∉ s₀.st ∧ M u = mss ∧ (compileMatcherSets mss).isSome = true)
    {s' : Silences} {e : MeshSilence} (hs' : Compiled M s')
    (h : Silences.LocalPut s₀ uuid mss now s' e) : Merges M now s' e := by
  rcases h with ⟨prev, hprev, hstate, hms⟩ | ⟨hu, hms, hkeys⟩
  · have hcarry := hs'.carries _ prev hprev
    obtain ⟨ms, hcomp, -⟩ := hs'.indexed _ (GoMap.mem_of_lookup hprev)
    refine ⟨hms.trans hcarry, by rw [hcomp]; rfl, fun prev' hprev' _ _ hexp => ?_⟩
    rw [hprev] at hprev'
    obtain rfl := Option.some.inj hprev'
    exact absurd hexp hstate
  · obtain ⟨hfresh, hM, hcomp⟩ := huuid _ hu
    refine ⟨by rw [hms, hM], by rw [hM]; exact hcomp, fun prev hprev => ?_⟩
    exact absurd (hkeys _ (GoMap.mem_of_lookup hprev)) hfresh

/-! ### Completeness -/

/-- Every silence is in the matcher index, so no query by labels fails. -/
theorem not_blocked (hs : Compiled M s) (version : ℕ) (now : ℤ) :
    (s.since version).any (s.blocks now Silencer.live) = false := by
  rw [List.any_eq_false]
  intro sil hsil
  obtain ⟨sv, -, -, hget⟩ := Silences.mem_since.mp hsil
  obtain ⟨e, he, rfl⟩ := Silences.lookup_of_getSilence hget
  obtain ⟨ms, -, hmi⟩ := hs.indexed sv.id (GoMap.mem_of_lookup he)
  rw [← hs.wf.ident _ _ he] at hmi
  simp [Silences.blocks, hmi]

theorem hits_of_live (hs : Compiled M s) {id : GoString} {e : MeshSilence}
    (he : s.st.lookup id = some e) (happ : e.silence.appliesTo lset = true)
    (hlive : e.silence.getState now ≠ .expired) :
    s.hits now Silencer.live lset e.silence = true := by
  obtain ⟨ms, hms, hmi⟩ := hs.indexed id (GoMap.mem_of_lookup he)
  rw [← hs.wf.ident _ _ he] at hmi
  rw [Silence.appliesTo, hs.carries _ _ he, hms] at happ
  simpa [Silences.hits, Silencer.mem_live, hlive, hmi] using happ

/-- A silence that matches and has not expired at the readings of the queries is
found. -/
theorem found_of_live (hs : Compiled M s) {clock t₁ t₂ : ℤ} (hc : Caught clock lset entry s)
    (hle : clock ≤ t₁) {id : GoString} {e : MeshSilence} (he : s.st.lookup id = some e)
    (happ : e.silence.appliesTo lset = true) (hlive₁ : e.silence.getState t₁ ≠ .expired)
    (hlive₂ : e.silence.getState t₂ ≠ .expired) :
    e.silence ∈ Silencer.queryOld s entry t₁ ++ (Silencer.queryNew s entry t₂ lset).1 := by
  have hget : s.getSilence id = some e.silence := by simp [Silences.getSilence, he]
  obtain ⟨sv, hsv, rfl⟩ := hs.wf.exists_version he
  rw [List.mem_append]
  by_cases hver : sv.version ≤ entry.version
  · left
    have hid : sv.id ∈ entry.silenceIDs := by
      by_contra hid
      exact hlive₁ (Silence.expired_mono hle (hc.expired sv hsv hver hid e he happ))
    exact Silencer.mem_queryOld.mpr ⟨sv.id, hid, hget, hlive₁⟩
  · right
    rw [Silencer.queryNew_eq hs.wf, not_blocked hs]
    simp only [Bool.false_eq_true, if_false, List.mem_filter]
    exact ⟨Silences.mem_since.mpr ⟨sv, hsv, by omega, hget⟩, hits_of_live hs he happ hlive₂⟩

/-- The entry a call leaves answers for all silences. -/
theorem caught_mutes [LabelHash] (hs : Compiled M s) {cache : SilencerCache} {clock : ℤ}
    (hc : Caught clock lset (SilencerCache.get cache (fingerprint lset)) s) (hle : clock ≤ now) :
    Caught now lset
      (SilencerCache.get (Silencer.mutes s cache now lset).cache (fingerprint lset)) s := by
  obtain ⟨hversion, hids⟩ := Silencer.mutesAt_entry hs.wf cache now now now lset
  refine ⟨hversion.le, fun sv hsv hver hid e he happ => ?_⟩
  by_contra hlive
  refine hid ((hids sv.id).mpr ⟨e.silence, ?_, hs.wf.ident _ _ he, hlive⟩)
  exact found_of_live hs hc hle he happ hlive hlive

end

/-- The invariant of a run. -/
structure Complete [Regexp] [LabelHash] (M : GoString → List Silencepb.MatcherSet)
    (S : Finset LabelSet) (s : State) : Prop where
  compiled : Compiled M s.silences
  caught : ∀ lset ∈ S,
    Caught s.clock lset (SilencerCache.get s.cache (fingerprint lset)) s.silences

section
variable [Regexp] [LabelHash] {M : GoString → List Silencepb.MatcherSet} {S : Finset LabelSet}
  {s : State}

theorem complete_init (retention t : ℤ) : Complete M S (init retention t) where
  compiled :=
    { wf := Silences.wellFormed_new retention
      carries := fun id e h => by simp [init, Silences.new] at h
      indexed := fun id h => by simp [init, Silences.new, Finmap.notMem_empty] at h }
  caught lset _ := caught_zero (Silences.wellFormed_new retention)

/-- Admitted merges at a later reading of the clock keep the invariant. -/
theorem complete_puts (hs : Complete M S s) {now : ℤ} (hle : s.clock ≤ now)
    {P : Silences → MeshSilence → Prop} {s' : Silences}
    (hP : ∀ s' e, Compiled M s' → P s' e → Merges M now s' e)
    (h : Silences.Puts P now s.silences s') : Complete M S ⟨s', s.cache, now⟩ :=
  ⟨compiled_puts hs.compiled hP h,
    fun lset hl => caught_puts hs.compiled ((hs.caught lset hl).later hle) hP h⟩

/-- Nothing but the reading of the clock changes. -/
theorem Complete.later (hs : Complete M S s) {now : ℤ} (hle : s.clock ≤ now) :
    Complete M S ⟨s.silences, s.cache, now⟩ :=
  ⟨hs.compiled, fun lset hl => (hs.caught lset hl).later hle⟩

theorem complete_set [Proto] (hs : Complete M S s) {now : ℤ} {env : Silences.SetEnv}
    {sil : Silence} (hsound : Sound s (.set now env sil))
    (hen : Enabled M S s (.set now env sil)) : Complete M S (next s (.set now env sil)) := by
  obtain ⟨hle, hen⟩ := hen
  cases hvalid : validateSilence env.scheme (Silences.normalized sil now) with
  | some err =>
    have hsame : (s.silences.set env now sil).silences = s.silences := by
      simp [Silences.set, hvalid]
    rw [next, hsame]
    exact hs.later hle
  | none =>
    have hputs := Silences.set_puts hs.compiled.wf env now sil
    refine complete_puts hs hle (fun s' e hs' => merges_of_localPut ?_ hs') hputs
    intro u hu
    exact ⟨(hen u hu).1, (hen u hu).2, hsound hvalid⟩

theorem complete_merge [Proto] (hs : Complete M S s) {now : ℤ} {p : Payload}
    {order : List GoString} (hsound : Sound s (.merge now p order))
    (hen : Enabled M S s (.merge now p order)) : Complete M S (next s (.merge now p order)) := by
  obtain ⟨hle, hranges, hmatch⟩ := hen
  cases hdec : decodeState p with
  | error err =>
    have hsame : (s.silences.merge p now order).2.1 = s.silences := by
      simp [Silences.merge, hdec]
    rw [next, hsame]
    exact hs.later hle
  | ok st =>
    have hst : decoded p = st := by simp [decoded, hdec]
    rw [hst] at hranges hmatch
    simp only [Sound, hst] at hsound
    have hputs := Silences.mergeLoop_puts p now (decodeState_id hdec) hranges.nodup s.silences
    have hmerge : (s.silences.merge p now order).2.1 =
        (Silences.mergeLoop p st now order s.silences).1 := by
      simp [Silences.merge, hdec]
    rw [next, hmerge]
    refine complete_puts hs hle ?_ hputs
    rintro s' e hs' ⟨id, -, he, hlook⟩
    have hkey : id ∈ st.keys := Finmap.mem_keys.mpr (GoMap.mem_of_lookup he)
    obtain rfl := decodeState_id hdec id e he
    obtain ⟨hms, hcomp⟩ := hmatch _ hkey e he
    refine ⟨hms, hcomp, fun prev hprev => ?_⟩
    rw [hlook] at hprev
    exact hsound _ hkey e he prev hprev

/-- Every admitted operation keeps the invariant. -/
theorem complete_next [Proto] (hinj : Set.InjOn fingerprint (S : Set LabelSet))
    (hs : Complete M S s) {op : Op} (hsound : Sound s op) (hen : Enabled M S s op) :
    Complete M S (next s op) := by
  have hle := hen.1
  cases op with
  | set now env sil => exact complete_set hs hsound hen
  | expire now id =>
    have hputs := Silences.expire_puts hs.compiled.wf s.silences none [] id now
    exact complete_puts hs hle (fun s' e hs' => merges_of_localPut (fun u hu => by cases hu) hs')
      hputs
  | gc now =>
    have hgc := Silences.gc_collected hs.compiled.wf now
    exact ⟨compiled_collected hs.compiled hgc,
      fun lset hl => caught_collected ((hs.caught lset hl).later hle) hgc⟩
  | merge now p order => exact complete_merge hs hsound hen
  | mutes now lset =>
    refine ⟨hs.compiled, fun lset' hl' => ?_⟩
    by_cases heq : lset' = lset
    · subst heq
      exact caught_mutes hs.compiled (hs.caught _ hl') hle
    · have hne : fingerprint lset' ≠ fingerprint lset := fun h => heq (hinj hl' hen.2 h)
      have hentry := Silencer.mutesAt_other s.silences s.cache now now now hne
      simp only [next, Silencer.mutes, hentry]
      exact (hs.caught lset' hl').later hle
  | postGC now fps =>
    refine ⟨hs.compiled, fun lset hl => ?_⟩
    simp only [next]
    rcases Silencer.get_postGC s.cache fps (fingerprint lset) with h | h
    · rw [h]
      exact (hs.caught lset hl).later hle
    · rw [h]
      exact caught_zero hs.compiled.wf

/-- In every run whose operations are sound, `Mutes` finds every active silence
that matches. -/
theorem mutes_of_active [Proto] (hinj : Set.InjOn fingerprint (S : Set LabelSet))
    {retention t : ℤ} {ops : List Op}
    (hrun : Run (Guarded Sound (Fires (Enabled M S) next)) (init retention t) ops s)
    {now : ℤ} (hnow : s.clock ≤ now) {lset : LabelSet} (hl : lset ∈ S) {id : GoString}
    {e : MeshSilence} (he : s.silences.st.lookup id = some e)
    (hactive : e.silence.getState now = .active) (happ : e.silence.appliesTo lset = true) :
    (Silencer.mutes s.silences s.cache now lset).mutes = true := by
  have hs : Complete M S s :=
    hrun.invariant (fun s op s' hs hstep => by
      obtain ⟨hsound, hen, rfl⟩ := hstep
      exact complete_next hinj hs hsound hen) (complete_init retention t)
  rw [Silencer.mutes, Silencer.mutesAt_iff hs.compiled.wf]
  refine ⟨e.silence, ?_, hactive⟩
  have hlive : e.silence.getState now ≠ .expired := by simp [hactive]
  exact found_of_live hs.compiled (hs.caught lset hl) hnow he happ hlive hlive

end

/-! ### A delayed extension of a silence -/

section
attribute [local instance] noRegexp zeroProto fnvLabelHash

/-- The matcher `a="1"`. -/
def oneMatcher : List Silencepb.MatcherSet := [[⟨.equal, str "a", str "1"⟩]]

def oneLabel : LabelSet := (∅ : LabelSet).insert (str "a") (str "1")

/-- A silence that starts at 1. -/
def silenceOf (id : String) (mss : List Silencepb.MatcherSet) (endsAt updatedAt : ℤ) : Silence where
  id := str id
  matchers := []
  startsAt := some 1
  endsAt := some endsAt
  updatedAt := some updatedAt
  comments := []
  createdBy := []
  comment := []
  annotations := ∅
  matcherSets := mss
  receiverMatcherSets := []

/-- The payload that gossips it. -/
def gossiped (id : String) (mss : List Silencepb.MatcherSet) (endsAt updatedAt : ℤ) : Payload :=
  ⟨[⟨some (silenceOf id mss endsAt updatedAt), some 1000⟩], true, 100⟩

/-- A silence that ended at 5 arrives and is found expired at 10; the version that
had extended it to 100 arrives late, at 20. -/
def delayedExtension : List Op :=
  [.merge 10 (gossiped "x" oneMatcher 5 1) [str "x"], .mutes 10 oneLabel,
    .merge 20 (gossiped "x" oneMatcher 100 4) [str "x"]]

/-- After the late arrival the silence is stored and active, and not applied. -/
theorem delayedExtension_not_muted :
    let s := delayedExtension.foldl next (init 0 0)
    Run (Fires (Enabled (fun _ => oneMatcher) {oneLabel}) next) (init 0 0) delayedExtension s ∧
    (s.silences.st.lookup (str "x")).any (fun e =>
      decide (e.silence.getState 30 = .active) && e.silence.appliesTo oneLabel) = true ∧
    (Silencer.mutes s.silences s.cache 30 oneLabel).mutes = false := by
  refine ⟨Run.of_feasible (by decide +kernel), by decide +kernel, by decide +kernel⟩

/-- An extension that arrives while the silence is active is applied. -/
theorem mutes_of_active_extension :
    let ops : List Op :=
      [.merge 3 (gossiped "x" oneMatcher 5 1) [str "x"], .mutes 4 oneLabel,
        .merge 5 (gossiped "x" oneMatcher 100 4) [str "x"]]
    let s := ops.foldl next (init 0 0)
    (Silencer.mutes s.silences s.cache 30 oneLabel).mutes = true := by
  intro ops s
  have hrun : Run (Guarded Sound (Fires (Enabled (fun _ => oneMatcher) {oneLabel}) next))
      (init 0 0) ops s := Run.of_feasible_guarded (by decide +kernel)
  obtain ⟨e, he, hlive⟩ : ∃ e, s.silences.st.lookup (str "x") = some e ∧
      (e.silence.getState 30 = .active ∧ e.silence.appliesTo oneLabel = true) := by
    have hany : (s.silences.st.lookup (str "x")).any (fun e =>
        decide (e.silence.getState 30 = .active) && e.silence.appliesTo oneLabel) = true := by
      decide +kernel
    obtain ⟨e, he, hlive⟩ := (Option.any_eq_true _ _).mp hany
    exact ⟨e, he, by simpa using hlive⟩
  exact mutes_of_active (by simp) hrun (by decide +kernel) (by simp) he hlive.1 hlive.2

end

end Alertmanager.SilencerRuns
