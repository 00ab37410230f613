import Alertmanager.SilenceQueries

/-!
# The silencer

`Silencer.Mutes` of `silence/silence.go` and its cache. For each fingerprint the
cache keeps the IDs of the matching silences that had not expired, and the store
version that list is based on. A call looks up the cached IDs and the silences
that were added since, and decides by their state. The three clock readings of a
call are separate arguments.
-/
namespace Alertmanager

structure CacheEntry where
  silenceIDs : List GoString
  version : ℕ
  deriving DecidableEq, Repr

abbrev SilencerCache := GoMap Fingerprint CacheEntry

/-- `cache.get`: a missing entry is the zero entry. -/
def SilencerCache.get (c : SilencerCache) (fp : Fingerprint) : CacheEntry :=
  (c.lookup fp).getD ⟨[], 0⟩

theorem SilencerCache.get_insert (c : SilencerCache) (fp fp' : Fingerprint) (e : CacheEntry) :
    SilencerCache.get (c.insert fp e) fp' = if fp' = fp then e else SilencerCache.get c fp' := by
  unfold SilencerCache.get
  rw [GoMap.lookup_insert_eq]
  split_ifs <;> rfl

namespace Silencer

/-- The states of silences that a cache entry keeps. -/
def live : List SilenceState := [.active, .pending]

theorem mem_live {st : SilenceState} : st ∈ live ↔ st ≠ .expired := by
  cases st <;> simp [live]

/-- The loop over the found silences: the IDs of the active and of all that have
not expired, each ID taken once. -/
def classify (now : ℤ) : List Silence → List GoString → List GoString × List GoString
  | [], _ => ([], [])
  | sil :: sils, seen =>
    if sil.id ∈ seen then classify now sils seen
    else
      let r := classify now sils (sil.id :: seen)
      match sil.getState now with
      | .pending => (r.1, sil.id :: r.2)
      | .active => (sil.id :: r.1, sil.id :: r.2)
      | .expired => r

structure Result where
  mutes : Bool
  cache : SilencerCache
  marked : List GoString

section
variable [Regexp]

/-- The query for the cached IDs. -/
def queryOld (s : Silences) (e : CacheEntry) (now : ℤ) : List Silence :=
  if 0 < e.silenceIDs.length then (s.query [.ids e.silenceIDs, .state live] now).1 else []

/-- The query for the silences added since the cached version, and the version
the new entry is based on. A failed query finds nothing but has a version. -/
def queryNew (s : Silences) (e : CacheEntry) (now : ℤ) (lset : LabelSet) : List Silence × ℕ :=
  if e.version = s.version then ([], e.version)
  else
    let r := s.query [.since e.version, .state live, .matches lset] now
    (r.1, r.2.1)

/-- The rest of `Mutes` after the queries. -/
def finish (cache : SilencerCache) (fp : Fingerprint) (old : List Silence)
    (new : List Silence × ℕ) (now : ℤ) : Result :=
  if old.length + new.1.length = 0 then ⟨false, cache.insert fp ⟨[], new.2⟩, []⟩
  else
    let ids := classify now (old ++ new.1) []
    ⟨decide (0 < ids.1.length), cache.insert fp ⟨ids.2, new.2⟩,
      if 0 < ids.1.length then ids.1 else []⟩

/-- `Mutes`, with the clock read by the two queries and by the classification. -/
def mutesAt [LabelHash] (s : Silences) (cache : SilencerCache) (t₁ t₂ t₃ : ℤ)
    (lset : LabelSet) : Result :=
  let fp := fingerprint lset
  let e := SilencerCache.get cache fp
  if e.version = s.version ∧ e.silenceIDs.length = 0 then ⟨false, cache, []⟩
  else finish cache fp (queryOld s e t₁) (queryNew s e t₂ lset) t₃

/-- `Mutes` at one reading of the clock. -/
def mutes [LabelHash] (s : Silences) (cache : SilencerCache) (now : ℤ) (lset : LabelSet) :
    Result :=
  mutesAt s cache now now now lset

/-- `PostGC`: the entries of collected alerts are dropped. -/
def postGC (cache : SilencerCache) : List Fingerprint → SilencerCache
  | [] => cache
  | fp :: fps => postGC (cache.erase fp) fps

end

theorem get_postGC_eq (cache : SilencerCache) (fps : List Fingerprint) (fp : Fingerprint) :
    SilencerCache.get (postGC cache fps) fp =
      if fp ∈ fps then ⟨[], 0⟩ else SilencerCache.get cache fp := by
  induction fps generalizing cache with
  | nil => rfl
  | cons fp₀ fps ih =>
    have herase : SilencerCache.get (cache.erase fp₀) fp =
        if fp = fp₀ then ⟨[], 0⟩ else SilencerCache.get cache fp := by
      unfold SilencerCache.get
      rw [GoMap.lookup_erase_eq]
      split_ifs <;> rfl
    rw [postGC, ih, herase]
    grind

theorem get_postGC (cache : SilencerCache) (fps : List Fingerprint) (fp : Fingerprint) :
    SilencerCache.get (postGC cache fps) fp = SilencerCache.get cache fp ∨
      SilencerCache.get (postGC cache fps) fp = ⟨[], 0⟩ := by
  rw [get_postGC_eq]
  split_ifs
  · exact Or.inr rfl
  · exact Or.inl rfl

/-! ### Classification -/

/-- Found silences with one ID are one silence. -/
def SameById (sils : List Silence) : Prop :=
  ∀ a ∈ sils, ∀ b ∈ sils, a.id = b.id → a = b

/-- The silences the loop does not skip. -/
def firsts : List Silence → List GoString → List Silence
  | [], _ => []
  | sil :: sils, seen =>
    if sil.id ∈ seen then firsts sils seen else sil :: firsts sils (sil.id :: seen)

theorem classify_eq (now : ℤ) (sils : List Silence) (seen : List GoString) :
    classify now sils seen =
      (((firsts sils seen).filter fun sil => decide (sil.getState now = .active)).map Silence.id,
        ((firsts sils seen).filter fun sil => decide (sil.getState now ≠ .expired)).map
          Silence.id) := by
  induction sils generalizing seen with
  | nil => rfl
  | cons sil sils ih =>
    simp only [classify, firsts]
    split_ifs with hseen
    · exact ih seen
    · rw [ih (sil.id :: seen)]
      cases hst : sil.getState now <;> simp [hst]

theorem mem_firsts {sils : List Silence} (hsame : SameById sils) (seen : List GoString)
    (sil : Silence) : sil ∈ firsts sils seen ↔ sil ∈ sils ∧ sil.id ∉ seen := by
  induction sils generalizing seen with
  | nil => simp [firsts]
  | cons head sils ih =>
    have htail : SameById sils := fun a ha b hb =>
      hsame a (List.mem_cons_of_mem _ ha) b (List.mem_cons_of_mem _ hb)
    simp only [firsts]
    split_ifs with hseen
    · rw [ih htail seen, List.mem_cons]
      constructor
      · rintro ⟨hmem, hnot⟩
        exact ⟨Or.inr hmem, hnot⟩
      · rintro ⟨rfl | hmem, hnot⟩
        · exact absurd hseen hnot
        · exact ⟨hmem, hnot⟩
    · rw [List.mem_cons, ih htail (head.id :: seen), List.mem_cons, List.mem_cons, not_or]
      constructor
      · rintro (rfl | ⟨hmem, -, hnot⟩)
        · exact ⟨Or.inl rfl, hseen⟩
        · exact ⟨Or.inr hmem, hnot⟩
      · rintro ⟨rfl | hmem, hnot⟩
        · exact Or.inl rfl
        · by_cases hid : sil.id = head.id
          · exact Or.inl (hsame sil (List.mem_cons_of_mem _ hmem) head List.mem_cons_self hid)
          · exact Or.inr ⟨hmem, hid, hnot⟩

theorem mem_classify_active {now : ℤ} {sils : List Silence} (hsame : SameById sils)
    {id : GoString} : id ∈ (classify now sils []).1 ↔
      ∃ sil ∈ sils, sil.id = id ∧ sil.getState now = .active := by
  rw [classify_eq]
  simp only [List.mem_map, List.mem_filter, mem_firsts hsame, decide_eq_true_eq]
  grind

theorem mem_classify_all {now : ℤ} {sils : List Silence} (hsame : SameById sils)
    {id : GoString} : id ∈ (classify now sils []).2 ↔
      ∃ sil ∈ sils, sil.id = id ∧ sil.getState now ≠ .expired := by
  rw [classify_eq]
  simp only [List.mem_map, List.mem_filter, mem_firsts hsame, decide_eq_true_eq]
  grind

/-- The case of no found silence is no exception. -/
theorem finish_eq (cache : SilencerCache) (fp : Fingerprint) (old : List Silence)
    (new : List Silence × ℕ) (now : ℤ) :
    (finish cache fp old new now).mutes = decide (0 < (classify now (old ++ new.1) []).1.length) ∧
      (finish cache fp old new now).cache =
        cache.insert fp ⟨(classify now (old ++ new.1) []).2, new.2⟩ := by
  unfold finish
  by_cases hnone : old.length + new.1.length = 0
  · have hold : old = [] := List.length_eq_zero_iff.mp (by omega)
    have hnew : new.1 = [] := List.length_eq_zero_iff.mp (by omega)
    simp [hold, hnew, classify]
  · rw [if_neg hnone]
    exact ⟨rfl, rfl⟩

/-! ### What a call finds -/

section
variable [Regexp] {s : Silences}

theorem getSilence_id (hs : s.WellFormed) {id : GoString} {sil : Silence}
    (h : s.getSilence id = some sil) : sil.id = id := by
  obtain ⟨e, he, rfl⟩ := Silences.lookup_of_getSilence h
  exact hs.ident id e he

theorem mem_queryOld {e : CacheEntry} {now : ℤ} {sil : Silence} :
    sil ∈ queryOld s e now ↔
      ∃ id ∈ e.silenceIDs, s.getSilence id = some sil ∧ sil.getState now ≠ .expired := by
  unfold queryOld
  split_ifs with hcount
  · rw [Silences.query_ids (List.length_pos_iff.mp hcount)]
    simp only [List.mem_filter, List.mem_filterMap, decide_eq_true_eq, mem_live]
    grind
  · have hnil : e.silenceIDs = [] := List.length_eq_zero_iff.mp (by omega)
    simp [hnil]

/-- A call that looks for new silences bases its entry on the store's version. -/
theorem queryNew_version (hs : s.WellFormed) (e : CacheEntry) (now : ℤ) (lset : LabelSet) :
    (queryNew s e now lset).2 = s.version := by
  unfold queryNew
  split_ifs with hver
  · exact hver
  · rw [Silences.query_since hs]
    split_ifs <;> rfl

theorem queryNew_eq (hs : s.WellFormed) (e : CacheEntry) (now : ℤ) (lset : LabelSet) :
    (queryNew s e now lset).1 =
      if (s.since e.version).any (s.blocks now live) then []
      else (s.since e.version).filter (s.hits now live lset) := by
  unfold queryNew
  by_cases heq : e.version = s.version
  · rw [if_pos heq, Silences.since_eq_nil hs heq.ge]
    rfl
  · rw [if_neg heq, Silences.query_since hs]
    split_ifs <;> rfl

/-- All silences a call finds are stored under their own ID. -/
theorem stored_of_found (hs : s.WellFormed) {e : CacheEntry} {t₁ t₂ : ℤ} {lset : LabelSet}
    {sil : Silence} (h : sil ∈ queryOld s e t₁ ++ (queryNew s e t₂ lset).1) :
    s.getSilence sil.id = some sil := by
  rw [List.mem_append] at h
  rcases h with h | h
  · obtain ⟨id, -, hget, -⟩ := mem_queryOld.mp h
    rwa [getSilence_id hs hget]
  · unfold queryNew at h
    split_ifs at h with hver
    · simp at h
    · rw [Silences.query_since hs] at h
      split_ifs at h
      · simp at h
      · obtain ⟨sv, -, -, hget⟩ := Silences.mem_since.mp (List.mem_of_mem_filter h)
        rwa [getSilence_id hs hget]

theorem sameById_found (hs : s.WellFormed) (e : CacheEntry) (t₁ t₂ : ℤ) (lset : LabelSet) :
    SameById (queryOld s e t₁ ++ (queryNew s e t₂ lset).1) := by
  intro a ha b hb hid
  have ha' := stored_of_found hs ha
  have hb' := stored_of_found hs hb
  rw [hid, hb'] at ha'
  exact (Option.some.inj ha').symm

variable [LabelHash] {cache : SilencerCache} {t₁ t₂ t₃ : ℤ} {lset : LabelSet}

/-- `Mutes` is true exactly when a silence it found is active at the last reading. -/
theorem mutesAt_iff (hs : s.WellFormed) :
    (mutesAt s cache t₁ t₂ t₃ lset).mutes = true ↔
      ∃ sil ∈ queryOld s (SilencerCache.get cache (fingerprint lset)) t₁ ++
        (queryNew s (SilencerCache.get cache (fingerprint lset)) t₂ lset).1,
        sil.getState t₃ = .active := by
  have hsame := sameById_found hs (SilencerCache.get cache (fingerprint lset)) t₁ t₂ lset
  unfold mutesAt
  simp only
  split_ifs with hfast
  · simp [queryOld, queryNew, hfast.1, hfast.2]
  · rw [(finish_eq _ _ _ _ _).1, decide_eq_true_eq, List.length_pos_iff_exists_mem]
    simp only [mem_classify_active hsame]
    grind

/-- The entry a call leaves: the store's version, and the IDs of the silences it
found that have not expired at the last reading. -/
theorem mutesAt_entry (hs : s.WellFormed) (cache : SilencerCache) (t₁ t₂ t₃ : ℤ)
    (lset : LabelSet) :
    (SilencerCache.get (mutesAt s cache t₁ t₂ t₃ lset).cache (fingerprint lset)).version =
      s.version ∧
    ∀ id, id ∈ (SilencerCache.get (mutesAt s cache t₁ t₂ t₃ lset).cache
        (fingerprint lset)).silenceIDs ↔
      ∃ sil ∈ queryOld s (SilencerCache.get cache (fingerprint lset)) t₁ ++
        (queryNew s (SilencerCache.get cache (fingerprint lset)) t₂ lset).1,
        sil.id = id ∧ sil.getState t₃ ≠ .expired := by
  have hsame := sameById_found hs (SilencerCache.get cache (fingerprint lset)) t₁ t₂ lset
  have hver := queryNew_version hs (SilencerCache.get cache (fingerprint lset)) t₂ lset
  unfold mutesAt
  simp only
  split_ifs with hfast
  · refine ⟨hfast.1, fun id => ?_⟩
    simp [List.length_eq_zero_iff.mp hfast.2, queryOld, queryNew, hfast.1]
  · rw [(finish_eq _ _ _ _ _).2, SilencerCache.get_insert, if_pos rfl]
    exact ⟨hver, fun id => mem_classify_all hsame⟩

/-- A call leaves the entries of other fingerprints alone. -/
theorem mutesAt_other (s : Silences) (cache : SilencerCache) (t₁ t₂ t₃ : ℤ) {fp : Fingerprint}
    (hne : fp ≠ fingerprint lset) :
    SilencerCache.get (mutesAt s cache t₁ t₂ t₃ lset).cache fp = SilencerCache.get cache fp := by
  unfold mutesAt
  simp only
  split_ifs with hfast
  · rfl
  · rw [(finish_eq _ _ _ _ _).2, SilencerCache.get_insert, if_neg hne]

end

end Silencer

end Alertmanager
