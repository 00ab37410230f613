import Alertmanager.SilencerRuns

/-!
# Interleaved calls of the silencer

`Mutes` reads the cache, the version, the cached silences, the new silences and the
clock one after the other, and writes the entry at the end; `Set`, `Expire` and `GC`
may come between any two of these steps. At each point the call has an entry in hand
that answers for all silences up to its version. The last step can lose a silence: it
classifies copies, and a silence that was extended in place after it was copied is
dropped when the copy has expired.
-/
namespace Alertmanager.SilencerInterleaving

open SilencerRuns (Compiled Caught silenceOf oneMatcher oneLabel merges_of_localPut)

/-- Where a call is, with what it has read so far. -/
inductive Phase
  | idle
  | entered (lset : LabelSet) (entry : CacheEntry)
  | compared (lset : LabelSet) (entry : CacheEntry) (upToDate : Bool)
  | foundOld (lset : LabelSet) (entry : CacheEntry) (upToDate : Bool) (old : List Silence)
  | foundAll (lset : LabelSet) (sils : List Silence) (version : ℕ)
  | classified (lset : LabelSet) (active all : List GoString) (version : ℕ)
  | done (mutes : Bool)

/-- The entry with which the call would answer for the silences up to its version. -/
def Phase.answer : Phase → Option (LabelSet × CacheEntry)
  | .entered lset entry | .compared lset entry _ => some (lset, entry)
  | .foundOld lset entry _ old => some (lset, ⟨old.map Silence.id, entry.version⟩)
  | .foundAll lset sils version => some (lset, ⟨sils.map Silence.id, version⟩)
  | .classified lset _ all version => some (lset, ⟨all, version⟩)
  | .idle | .done _ => none

/-! ### The steps of a call -/

theorem exists_first {sils : List Silence} {sil : Silence} (hsil : sil ∈ sils)
    {seen : List GoString} (hseen : sil.id ∉ seen) :
    ∃ sil' ∈ Silencer.firsts sils seen, sil' ∈ sils ∧ sil'.id = sil.id := by
  induction sils generalizing seen with
  | nil => simp at hsil
  | cons head sils ih =>
    simp only [Silencer.firsts]
    by_cases hid : sil.id = head.id
    · rw [if_neg (hid ▸ hseen)]
      exact ⟨head, List.mem_cons_self, List.mem_cons_self, hid.symm⟩
    · have hsil' : sil ∈ sils := by
        rcases List.mem_cons.mp hsil with rfl | h
        · exact absurd rfl hid
        · exact h
      split_ifs with hhead
      · obtain ⟨sil', hfirst, hmem, hsame⟩ := ih hsil' hseen
        exact ⟨sil', hfirst, List.mem_cons_of_mem _ hmem, hsame⟩
      · have hseen' : sil.id ∉ head.id :: seen := by simp [hid, hseen]
        obtain ⟨sil', hfirst, hmem, hsame⟩ := ih hsil' hseen'
        exact ⟨sil', List.mem_cons_of_mem _ hfirst, List.mem_cons_of_mem _ hmem, hsame⟩

/-- The classification keeps the ID of a silence none of whose copies has expired. -/
theorem mem_classify_of_live {now : ℤ} {sils : List Silence} {sil : Silence} (hsil : sil ∈ sils)
    (hlive : ∀ sil' ∈ sils, sil'.id = sil.id → sil'.getState now ≠ .expired) :
    sil.id ∈ (Silencer.classify now sils []).2 := by
  obtain ⟨sil', hfirst, hmem, hsame⟩ := exists_first hsil (List.not_mem_nil (a := sil.id))
  rw [Silencer.classify_eq]
  refine List.mem_map.mpr ⟨sil', List.mem_filter.mpr ⟨hfirst, ?_⟩, hsame⟩
  simpa using hlive sil' hmem hsame

section
variable [Regexp]

/-- The version is compared, and without new or cached silences the call is over. -/
def Phase.readVersion (s : Silences) : Phase → Phase
  | .entered lset entry =>
    if entry.version = s.version ∧ entry.silenceIDs.length = 0 then .done false
    else .compared lset entry (decide (entry.version = s.version))
  | p => p

def Phase.queryOld (s : Silences) (now : ℤ) : Phase → Phase
  | .compared lset entry upToDate => .foundOld lset entry upToDate (Silencer.queryOld s entry now)
  | p => p

def Phase.queryNew (s : Silences) (now : ℤ) : Phase → Phase
  | .foundOld lset entry upToDate old =>
    if upToDate then .foundAll lset old entry.version
    else
      let r := s.query [.since entry.version, .state Silencer.live, .matches lset] now
      .foundAll lset (old ++ r.1) r.2.1
  | p => p

/-- The second query of a call, after the version was compared in the same store. -/
theorem queryNew_eq (s : Silences) (lset : LabelSet) (entry : CacheEntry) (old : List Silence)
    (now : ℤ) :
    Phase.queryNew s now (.foundOld lset entry (decide (entry.version = s.version)) old) =
      .foundAll lset (old ++ (Silencer.queryNew s entry now lset).1)
        (Silencer.queryNew s entry now lset).2 := by
  by_cases hver : entry.version = s.version
  · simp [Phase.queryNew, Silencer.queryNew, hver]
  · simp [Phase.queryNew, Silencer.queryNew, hver]

end

def Phase.classify (now : ℤ) : Phase → Phase
  | .foundAll lset sils version =>
    let ids := Silencer.classify now sils []
    .classified lset ids.1 ids.2 version
  | p => p

/-- The call is over, and the next one may begin. -/
def Phase.free : Phase → Bool
  | .idle | .done _ => true
  | _ => false

/-- Local changes, the eviction of cache entries, and the steps of the calls. A step
that is not the next one of its call does nothing. -/
inductive Op
  | set (now : ℤ) (env : Silences.SetEnv) (sil : Silence)
  | expire (now : ℤ) (id : GoString)
  | gc (now : ℤ)
  | postGC (fps : List Fingerprint)
  | readEntry (i : ℕ) (lset : LabelSet)
  | readVersion (i : ℕ)
  | queryOld (i : ℕ) (now : ℤ)
  | queryNew (i : ℕ) (now : ℤ)
  | classify (i : ℕ) (now : ℤ)
  | writeEntry (i : ℕ)

/-- The reading of the clock, for the operations that have one. -/
def Op.now : Op → Option ℤ
  | .set now _ _ | .expire now _ | .gc now | .queryOld _ now | .queryNew _ now
  | .classify _ now => some now
  | .postGC _ | .readEntry _ _ | .readVersion _ | .writeEntry _ => none

section
variable [Regexp]

structure State where
  silences : Silences
  cache : SilencerCache
  clock : ℤ
  calls : ℕ → Phase

def init (retention t : ℤ) : State := ⟨Silences.new retention, ∅, t, fun _ => .idle⟩

/-- One call moves on at a reading of the clock. -/
def State.advance (s : State) (i : ℕ) (now : ℤ) (step : Phase → Phase) : State :=
  { s with clock := now, calls := Function.update s.calls i (step (s.calls i)) }

/-- The last step of a call. -/
def State.writeEntry [LabelHash] (s : State) (i : ℕ) : State :=
  match s.calls i with
  | .classified lset active all version =>
    { s with
      cache := s.cache.insert (fingerprint lset) ⟨all, version⟩
      calls := Function.update s.calls i (.done (decide (0 < active.length))) }
  | _ => s

def next [Proto] [LabelHash] (s : State) : Op → State
  | .set now env sil => { s with silences := (s.silences.set env now sil).silences, clock := now }
  | .expire now id => { s with silences := (s.silences.expire id now).2.1, clock := now }
  | .gc now => { s with silences := (s.silences.gc now).1, clock := now }
  | .postGC fps => { s with cache := Silencer.postGC s.cache fps }
  | .readEntry i lset =>
    s.advance i s.clock fun _ => .entered lset (SilencerCache.get s.cache (fingerprint lset))
  | .readVersion i => s.advance i s.clock (Phase.readVersion s.silences)
  | .queryOld i now => s.advance i now (Phase.queryOld s.silences now)
  | .queryNew i now => s.advance i now (Phase.queryNew s.silences now)
  | .classify i now => s.advance i now (Phase.classify now)
  | .writeEntry i => s.writeEntry i

/-- The clock does not go back, a generated ID is not stored yet, a silence that passes
the validation of `Set` compiles, and the label sets are among `S`. -/
def Enabled (S : Finset LabelSet) (s : State) (op : Op) : Prop :=
  (∀ now ∈ op.now, s.clock ≤ now) ∧
  match op with
  | .set now env sil => (∀ u ∈ env.uuid, u ∉ s.silences.st) ∧
      (validateSilence env.scheme (Silences.normalized sil now) = none →
        (compileMatcherSets (Silences.normalized sil now).matcherSets).isSome = true)
  | .readEntry i lset => (s.calls i).free = true ∧ lset ∈ S
  | _ => True

instance (S : Finset LabelSet) (s : State) (op : Op) : Decidable (Enabled S s op) :=
  have : Decidable (∀ now ∈ op.now, s.clock ≤ now) := Option.decidableForallMem op.now
  match op with
  | .set now env sil => inferInstanceAs (Decidable (_ ∧ (∀ u ∈ env.uuid, u ∉ s.silences.st) ∧
      (validateSilence env.scheme (Silences.normalized sil now) = none →
        (compileMatcherSets (Silences.normalized sil now).matcherSets).isSome = true)))
  | .readEntry i lset => inferInstanceAs (Decidable (_ ∧ (s.calls i).free = true ∧ lset ∈ S))
  | .expire _ _ | .gc _ | .postGC _ | .readVersion _ | .queryOld _ _ | .queryNew _ _
  | .classify _ _ | .writeEntry _ => inferInstanceAs (Decidable (_ ∧ True))

/-- What the classification of a call asks for: a silence whose copy has expired has
expired in the store too, if it is still there. -/
def Phase.Unextended (s : Silences) (now : ℤ) : Phase → Prop
  | .foundAll _ sils _ => ∀ sil ∈ sils, sil.getState now = .expired →
      ∀ e ∈ s.st.lookup sil.id, e.silence.getState now = .expired
  | .idle | .entered _ _ | .compared _ _ _ | .foundOld _ _ _ _ | .classified _ _ _ _
  | .done _ => True

instance (s : Silences) (now : ℤ) : (p : Phase) → Decidable (p.Unextended s now)
  | .foundAll _ sils _ => inferInstanceAs (Decidable (∀ sil ∈ sils, sil.getState now = .expired →
      ∀ e ∈ s.st.lookup sil.id, e.silence.getState now = .expired))
  | .idle | .entered _ _ | .compared _ _ _ | .foundOld _ _ _ _ | .classified _ _ _ _
  | .done _ => isTrue trivial

def Unextended (s : State) : Op → Prop
  | .classify i now => (s.calls i).Unextended s.silences now
  | .set _ _ _ | .expire _ _ | .gc _ | .postGC _ | .readEntry _ _ | .readVersion _
  | .queryOld _ _ | .queryNew _ _ | .writeEntry _ => True

instance (s : State) : (op : Op) → Decidable (Unextended s op)
  | .classify i now => inferInstanceAs (Decidable ((s.calls i).Unextended s.silences now))
  | .set _ _ _ | .expire _ _ | .gc _ | .postGC _ | .readEntry _ _ | .readVersion _
  | .queryOld _ _ | .queryNew _ _ | .writeEntry _ => isTrue trivial

/-! ### What the steps of a call keep -/

section
variable {M : GoString → List Silencepb.MatcherSet} {s : Silences} {now : ℤ} {lset : LabelSet}
  {entry : CacheEntry}

theorem caught_queryOld (hc : Caught now lset entry s) (hs : s.WellFormed) :
    Caught now lset ⟨(Silencer.queryOld s entry now).map Silence.id, entry.version⟩ s where
  version := hc.version
  expired sv hsv hver hid e he happ := by
    by_cases hmem : sv.id ∈ entry.silenceIDs
    · by_contra hlive
      refine hid (List.mem_map.mpr ⟨e.silence, ?_, hs.ident _ _ he⟩)
      exact Silencer.mem_queryOld.mpr ⟨sv.id, hmem, by simp [Silences.getSilence, he], hlive⟩
    · exact hc.expired sv hsv hver hmem e he happ

theorem caught_queryNew (hs : Compiled M s) {old : List Silence} {version : ℕ}
    (hc : Caught now lset ⟨old.map Silence.id, version⟩ s) :
    let r := s.query [.since version, .state Silencer.live, .matches lset] now
    Caught now lset ⟨(old ++ r.1).map Silence.id, r.2.1⟩ s := by
  have hquery : s.query [.since version, .state Silencer.live, .matches lset] now =
      ((s.since version).filter (s.hits now Silencer.live lset), s.version, none) := by
    simp [Silences.query_since hs.wf, SilencerRuns.not_blocked hs]
  simp only [hquery]
  refine ⟨le_rfl, fun sv hsv _ hid e he happ => ?_⟩
  rw [List.map_append, List.mem_append, not_or] at hid
  by_cases hver : sv.version ≤ version
  · exact hc.expired sv hsv hver hid.1 e he happ
  · by_contra hlive
    refine hid.2 (List.mem_map.mpr ⟨e.silence, List.mem_filter.mpr ⟨?_, ?_⟩, hs.wf.ident _ _ he⟩)
    · exact Silences.mem_since.mpr ⟨sv, hsv, by omega, by simp [Silences.getSilence, he]⟩
    · exact SilencerRuns.hits_of_live hs he happ hlive

theorem caught_classify {sils : List Silence} {version : ℕ}
    (hc : Caught now lset ⟨sils.map Silence.id, version⟩ s)
    (hguard : ∀ sil ∈ sils, sil.getState now = .expired →
      ∀ e ∈ s.st.lookup sil.id, e.silence.getState now = .expired) :
    Caught now lset ⟨(Silencer.classify now sils []).2, version⟩ s where
  version := hc.version
  expired sv hsv hver hid e he happ := by
    by_cases hmem : sv.id ∈ sils.map Silence.id
    · obtain ⟨sil, hsil, hsv'⟩ := List.mem_map.mp hmem
      by_contra hlive
      rw [← hsv'] at hid he
      refine hid (mem_classify_of_live hsil fun sil' hsil' hsame hexp => hlive ?_)
      exact hguard sil' hsil' hexp e (hsame ▸ he)
    · exact hc.expired sv hsv hver hmem e he happ

/-! ### What local changes keep -/

/-- A change of the store that keeps its indexes and every entry that answers for the
silences up to its version. -/
def Steady (now : ℤ) (s s' : Silences) : Prop :=
  (∃ M, Compiled M s') ∧ ∀ lset entry, Caught now lset entry s → Caught now lset entry s'

theorem compiled_congr {M' : GoString → List Silencepb.MatcherSet} (hs : Compiled M s)
    (h : ∀ id ∈ s.st, M' id = M id) : Compiled M' s where
  wf := hs.wf
  carries id e he := by
    rw [h id (GoMap.mem_of_lookup he)]
    exact hs.carries id e he
  indexed id hid := by
    rw [h id hid]
    exact hs.indexed id hid

theorem steady_puts (hs : Compiled M s) {P : Silences → MeshSilence → Prop} {s' : Silences}
    (hP : ∀ s' e, Compiled M s' → P s' e → SilencerRuns.Merges M now s' e)
    (h : Silences.Puts P now s s') : Steady now s s' :=
  ⟨⟨M, SilencerRuns.compiled_puts hs hP h⟩,
    fun _ _ hc => SilencerRuns.caught_puts hs hc hP h⟩

theorem steady_set [Proto] (hs : Compiled M s) {env : Silences.SetEnv} {sil : Silence}
    (hfresh : ∀ u ∈ env.uuid, u ∉ s.st)
    (hcomp : validateSilence env.scheme (Silences.normalized sil now) = none →
      (compileMatcherSets (Silences.normalized sil now).matcherSets).isSome = true) :
    Steady now s (s.set env now sil).silences := by
  cases hvalid : validateSilence env.scheme (Silences.normalized sil now) with
  | some err =>
    have hsame : (s.set env now sil).silences = s := by simp [Silences.set, hvalid]
    rw [hsame]
    exact ⟨⟨M, hs⟩, fun _ _ hc => hc⟩
  | none =>
    have hputs := Silences.set_puts hs.wf env now sil
    cases huuid : env.uuid with
    | none =>
      rw [huuid] at hputs
      exact steady_puts hs (fun s' e hs' =>
        merges_of_localPut (fun u hu => by cases hu) hs') hputs
    | some uid =>
      rw [huuid] at hputs
      have hnew : uid ∉ s.st := hfresh uid huuid
      have hs' : Compiled (Function.update M uid (Silences.normalized sil now).matcherSets) s :=
        compiled_congr hs fun id hid => by
          have hne : id ≠ uid := fun h => hnew (h ▸ hid)
          exact Function.update_of_ne hne _ _
      refine steady_puts hs' (fun s' e hs'' =>
        merges_of_localPut (fun u hu => ?_) hs'') hputs
      obtain rfl := Option.some.inj hu
      exact ⟨hnew, Function.update_self _ _ _, hcomp hvalid⟩

theorem steady_expire [Proto] (hs : Compiled M s) (id : GoString) :
    Steady now s (s.expire id now).2.1 :=
  steady_puts hs (fun s' e hs' => merges_of_localPut (fun u hu => by cases hu) hs')
    (Silences.expire_puts hs.wf s none [] id now)

theorem steady_gc (hs : Compiled M s) : Steady now s (s.gc now).1 :=
  ⟨⟨M, SilencerRuns.compiled_collected hs (Silences.gc_collected hs.wf now)⟩,
    fun _ _ hc => SilencerRuns.caught_collected hc (Silences.gc_collected hs.wf now)⟩

end

/-! ### The invariant -/

/-- Every cache entry and every call in progress answers for the silences up to its
version. -/
structure Answers [LabelHash] (S : Finset LabelSet) (s : State) : Prop where
  compiled : ∃ M, Compiled M s.silences
  cached : ∀ lset ∈ S,
    Caught s.clock lset (SilencerCache.get s.cache (fingerprint lset)) s.silences
  calls : ∀ i lset entry, (s.calls i).answer = some (lset, entry) →
    lset ∈ S ∧ Caught s.clock lset entry s.silences

variable [LabelHash] {S : Finset LabelSet} {s : State}

theorem answers_init (retention t : ℤ) : Answers S (init retention t) where
  compiled := ⟨fun _ => [],
    { wf := Silences.wellFormed_new retention
      carries := fun id e h => by simp [init, Silences.new] at h
      indexed := fun id h => by simp [init, Silences.new, Finmap.notMem_empty] at h }⟩
  cached lset _ := SilencerRuns.caught_zero (Silences.wellFormed_new retention)
  calls i lset entry h := by simp [init, Phase.answer] at h

theorem answers_steady (hs : Answers S s) {now : ℤ} (hle : s.clock ≤ now) {s' : Silences}
    (h : Steady now s.silences s') : Answers S { s with silences := s', clock := now } where
  compiled := h.1
  cached lset hl := h.2 lset _ ((hs.cached lset hl).later hle)
  calls i lset entry hentry :=
    ⟨(hs.calls i lset entry hentry).1, h.2 lset entry ((hs.calls i lset entry hentry).2.later hle)⟩

/-- A call moves on with an entry that answers still. -/
theorem answers_advance (hs : Answers S s) {now : ℤ} (hle : s.clock ≤ now) {i : ℕ}
    {step : Phase → Phase}
    (hstep : ∀ lset entry, (step (s.calls i)).answer = some (lset, entry) →
      lset ∈ S ∧ Caught now lset entry s.silences) : Answers S (s.advance i now step) where
  compiled := hs.compiled
  cached lset hl := (hs.cached lset hl).later hle
  calls j lset entry hentry := by
    by_cases hj : j = i
    · subst hj
      simp only [State.advance, Function.update_self] at hentry
      exact hstep lset entry hentry
    · simp only [State.advance, Function.update_of_ne hj] at hentry
      exact ⟨(hs.calls j lset entry hentry).1, (hs.calls j lset entry hentry).2.later hle⟩

theorem answers_readEntry (hs : Answers S s) (i : ℕ) {lset : LabelSet} (hl : lset ∈ S) :
    Answers S (s.advance i s.clock fun _ =>
      .entered lset (SilencerCache.get s.cache (fingerprint lset))) := by
  refine answers_advance hs le_rfl ?_
  rintro _ _ ⟨⟩
  exact ⟨hl, hs.cached lset hl⟩

theorem answers_readVersion (hs : Answers S s) (i : ℕ) :
    Answers S (s.advance i s.clock (Phase.readVersion s.silences)) := by
  refine answers_advance hs le_rfl fun lset entry h => hs.calls i lset entry ?_
  cases hp : s.calls i with
  | entered lset' entry' =>
    simp only [hp, Phase.readVersion] at h
    split_ifs at h
    · cases h
    · exact h
  | _ => simpa [hp, Phase.readVersion] using h

theorem answers_queryOld (hs : Answers S s) (i : ℕ) {now : ℤ} (hle : s.clock ≤ now) :
    Answers S (s.advance i now (Phase.queryOld s.silences now)) := by
  obtain ⟨M, hcomp⟩ := hs.compiled
  refine answers_advance hs hle fun lset entry h => ?_
  have hbefore := hs.calls i
  cases hp : s.calls i with
  | compared lset' entry' upToDate =>
    rw [hp] at h hbefore
    obtain ⟨hl, hc⟩ := hbefore lset' entry' rfl
    obtain ⟨rfl, rfl⟩ := Prod.mk.inj (Option.some.inj h)
    exact ⟨hl, caught_queryOld (hc.later hle) hcomp.wf⟩
  | _ =>
    rw [hp] at h hbefore
    exact ⟨(hbefore lset entry h).1, (hbefore lset entry h).2.later hle⟩

theorem answers_queryNew (hs : Answers S s) (i : ℕ) {now : ℤ} (hle : s.clock ≤ now) :
    Answers S (s.advance i now (Phase.queryNew s.silences now)) := by
  obtain ⟨M, hcomp⟩ := hs.compiled
  refine answers_advance hs hle fun lset entry h => ?_
  have hbefore := hs.calls i
  cases hp : s.calls i with
  | foundOld lset' entry' upToDate old =>
    rw [hp] at h hbefore
    obtain ⟨hl, hc⟩ := hbefore lset' _ rfl
    simp only [Phase.queryNew] at h
    split_ifs at h
    · obtain ⟨rfl, rfl⟩ := Prod.mk.inj (Option.some.inj h)
      exact ⟨hl, hc.later hle⟩
    · obtain ⟨rfl, rfl⟩ := Prod.mk.inj (Option.some.inj h)
      exact ⟨hl, caught_queryNew hcomp (hc.later hle)⟩
  | _ =>
    rw [hp] at h hbefore
    exact ⟨(hbefore lset entry h).1, (hbefore lset entry h).2.later hle⟩

theorem answers_classify (hs : Answers S s) (i : ℕ) {now : ℤ} (hle : s.clock ≤ now)
    (hguard : Unextended s (.classify i now)) :
    Answers S (s.advance i now (Phase.classify now)) := by
  refine answers_advance hs hle fun lset entry h => ?_
  have hbefore := hs.calls i
  cases hp : s.calls i with
  | foundAll lset' sils version =>
    rw [hp] at h hbefore
    simp only [Unextended, hp, Phase.Unextended] at hguard
    obtain ⟨hl, hc⟩ := hbefore lset' _ rfl
    obtain ⟨rfl, rfl⟩ := Prod.mk.inj (Option.some.inj h)
    exact ⟨hl, caught_classify (hc.later hle) hguard⟩
  | _ =>
    rw [hp] at h hbefore
    exact ⟨(hbefore lset entry h).1, (hbefore lset entry h).2.later hle⟩

theorem answers_writeEntry (hinj : Set.InjOn fingerprint (S : Set LabelSet)) (hs : Answers S s)
    (i : ℕ) : Answers S (s.writeEntry i) := by
  unfold State.writeEntry
  cases hp : s.calls i with
  | classified lset active all version =>
    obtain ⟨hl, hc⟩ := hs.calls i lset ⟨all, version⟩ (by rw [hp]; rfl)
    dsimp only
    refine ⟨hs.compiled, fun lset' hl' => ?_, fun j lset' entry h => ?_⟩
    · rw [SilencerCache.get_insert]
      split_ifs with hfp
      · rwa [hinj hl' hl hfp]
      · exact hs.cached lset' hl'
    · by_cases hj : j = i
      · subst hj
        simp [Phase.answer] at h
      · simp only [Function.update_of_ne hj] at h
        exact hs.calls j lset' entry h
  | _ => exact hs

theorem answers_postGC (hs : Answers S s) (fps : List Fingerprint) :
    Answers S { s with cache := Silencer.postGC s.cache fps } := by
  obtain ⟨M, hcomp⟩ := hs.compiled
  refine ⟨hs.compiled, fun lset hl => ?_, hs.calls⟩
  rcases Silencer.get_postGC s.cache fps (fingerprint lset) with h | h
  · rw [h]
    exact hs.cached lset hl
  · rw [h]
    exact SilencerRuns.caught_zero hcomp.wf

theorem answers_next [Proto] (hinj : Set.InjOn fingerprint (S : Set LabelSet)) (hs : Answers S s)
    {op : Op} (hguard : Unextended s op) (hen : Enabled S s op) : Answers S (next s op) := by
  obtain ⟨M, hcomp⟩ := hs.compiled
  cases op with
  | set now env sil =>
    exact answers_steady hs (hen.1 now rfl) (steady_set hcomp hen.2.1 hen.2.2)
  | expire now id => exact answers_steady hs (hen.1 now rfl) (steady_expire hcomp id)
  | gc now => exact answers_steady hs (hen.1 now rfl) (steady_gc hcomp)
  | postGC fps => exact answers_postGC hs fps
  | readEntry i lset => exact answers_readEntry hs i hen.2.2
  | readVersion i => exact answers_readVersion hs i
  | queryOld i now => exact answers_queryOld hs i (hen.1 now rfl)
  | queryNew i now => exact answers_queryNew hs i (hen.1 now rfl)
  | classify i now => exact answers_classify hs i (hen.1 now rfl) hguard
  | writeEntry i => exact answers_writeEntry hinj hs i

/-- In every run in which no call classifies an expired copy of a silence that has been
extended, a later call without interference is true whenever an active silence
matches. -/
theorem mutes_of_active_interleaved [Proto] (hinj : Set.InjOn fingerprint (S : Set LabelSet))
    {retention t : ℤ} {ops : List Op}
    (hrun : Run (Guarded Unextended (Fires (Enabled S) next)) (init retention t) ops s)
    {t₁ t₂ t₃ : ℤ} (h₁ : s.clock ≤ t₁) (h₂ : t₁ ≤ t₂) (h₃ : t₂ ≤ t₃) {lset : LabelSet}
    (hl : lset ∈ S) {id : GoString} {e : MeshSilence}
    (he : s.silences.st.lookup id = some e) (hactive : e.silence.getState t₃ = .active)
    (happ : e.silence.appliesTo lset = true) :
    (Silencer.mutesAt s.silences s.cache t₁ t₂ t₃ lset).mutes = true := by
  have hs : Answers S s := hrun.invariant (fun s op s' hs hstep => by
    obtain ⟨hguard, hen, rfl⟩ := hstep
    exact answers_next hinj hs hguard hen) (answers_init retention t)
  obtain ⟨M, hcomp⟩ := hs.compiled
  rw [Silencer.mutesAt_iff hcomp.wf]
  have hlive₁ := Silence.not_expired_of_active_later (h₂.trans h₃) hactive
  have hlive₂ := Silence.not_expired_of_active_later h₃ hactive
  exact ⟨e.silence, SilencerRuns.found_of_live hcomp (hs.cached lset hl) h₁ he happ hlive₁ hlive₂,
    hactive⟩

/-- The steps of one call. -/
def call (i : ℕ) (lset : LabelSet) (t₁ t₂ t₃ : ℤ) : List Op :=
  [.readEntry i lset, .readVersion i, .queryOld i t₁, .queryNew i t₂, .classify i t₃,
    .writeEntry i]

/-- Without interference the steps of a call are `Mutes`. -/
theorem call_eq_mutesAt [Proto] (s : State) (i : ℕ) (lset : LabelSet) (t₁ t₂ t₃ : ℤ) :
    let s' := (call i lset t₁ t₂ t₃).foldl next s
    s'.silences = s.silences ∧
      s'.cache = (Silencer.mutesAt s.silences s.cache t₁ t₂ t₃ lset).cache ∧
      s'.calls i = .done (Silencer.mutesAt s.silences s.cache t₁ t₂ t₃ lset).mutes := by
  simp only [call, List.foldl_cons, List.foldl_nil, next, State.advance, Function.update_self,
    Phase.readVersion, Silencer.mutesAt]
  split_ifs with hfast
  · simp [Phase.queryOld, Phase.queryNew, Phase.classify, State.writeEntry]
  · simp only [Phase.queryOld, queryNew_eq, Phase.classify, State.writeEntry, Function.update_self,
      (Silencer.finish_eq _ _ _ _ _).1, (Silencer.finish_eq _ _ _ _ _).2, and_self]

end

section
attribute [local instance] noRegexp zeroProto fnvLabelHash

def setEnv (uuid : String) : Silences.SetEnv := ⟨.classic, none, none, some (str uuid)⟩

/-- A silence for `a="1"` from 1 on; a call copies it at 5, it is extended at 6 from 10
to 100, and the call classifies the copy at 11. -/
def extendedBetween : List Op :=
  [.set 1 (setEnv "x") (silenceOf "" oneMatcher 10 0),
    .readEntry 0 oneLabel, .readVersion 0, .queryOld 0 5, .queryNew 0 5,
    .set 6 (setEnv "y") (silenceOf "x" oneMatcher 100 0),
    .classify 0 11, .writeEntry 0]

/-- The silence is stored and active, and a later call is false. -/
theorem extendedBetween_not_muted :
    let s := extendedBetween.foldl next (init 0 0)
    Run (Fires (Enabled {oneLabel}) next) (init 0 0) extendedBetween s ∧
    (s.silences.st.lookup (str "x")).any (fun e => decide (e.silence.getState 20 = .active) &&
      e.silence.appliesTo oneLabel) = true ∧
    (Silencer.mutesAt s.silences s.cache 20 20 20 oneLabel).mutes = false := by
  refine ⟨Run.of_feasible (by decide +kernel), by decide +kernel, by decide +kernel⟩

/-- If the call classifies its copy before the copy expires, a later call is true. -/
theorem mutes_of_active_interleaved_extension :
    let ops : List Op :=
      [.set 1 (setEnv "x") (silenceOf "" oneMatcher 10 0),
        .readEntry 0 oneLabel, .readVersion 0, .queryOld 0 5, .queryNew 0 5,
        .set 6 (setEnv "y") (silenceOf "x" oneMatcher 100 0),
        .classify 0 7, .writeEntry 0]
    let s := ops.foldl next (init 0 0)
    (Silencer.mutesAt s.silences s.cache 20 21 22 oneLabel).mutes = true := by
  intro ops s
  have hrun : Run (Guarded Unextended (Fires (Enabled {oneLabel}) next))
      (init 0 0) ops s := Run.of_feasible_guarded (by decide +kernel)
  obtain ⟨e, he, hlive⟩ : ∃ e, s.silences.st.lookup (str "x") = some e ∧
      (e.silence.getState 22 = .active ∧ e.silence.appliesTo oneLabel = true) := by
    have hany : (s.silences.st.lookup (str "x")).any (fun e =>
        decide (e.silence.getState 22 = .active) && e.silence.appliesTo oneLabel) =
        true := by
      decide +kernel
    obtain ⟨e, he, hlive⟩ := (Option.any_eq_true _ _).mp hany
    exact ⟨e, he, by simpa using hlive⟩
  exact mutes_of_active_interleaved (by simp) hrun (by decide +kernel) (by decide) (by decide)
    (by simp) he hlive.1 hlive.2

end

end Alertmanager.SilencerInterleaving
