import Alertmanager.SilenceIndexes

/-!
# Queries on the silence store

In a store whose indexes mirror the state, a query visits exactly the stored
silences it is meant to visit. A query by state and labels fails as a whole when
one of the visited silences has the right state but no entry in the matcher
index; otherwise it returns the visited silences that match.
-/
namespace Alertmanager.Silences

theorem applyParams_error {params : List QueryParam} {q : Query} {err : SilenceError}
    (h : applyParams params q = .error err) : err = .noIDs ∨ err = .sinceWithIDs := by
  induction params generalizing q with
  | nil => simp [applyParams] at h
  | cons param params ih =>
    cases param with
    | ids l =>
      simp only [applyParams, QueryParam.apply] at h
      split_ifs at h
      · exact Or.inl (Except.error.inj h).symm
      · exact Or.inr (Except.error.inj h).symm
      · exact ih h
    | since version =>
      simp only [applyParams, QueryParam.apply] at h
      split_ifs at h
      · exact Or.inr (Except.error.inj h).symm
      · exact ih h
    | «matches» lset => exact ih h
    | state states => exact ih h

variable [Regexp] {s : Silences}

/-- The silences behind the entries of the version index after a version. -/
def since (s : Silences) (version : ℕ) : List Silence :=
  (s.vi.filter fun sv => decide (version < sv.version)).filterMap fun sv => s.getSilence sv.id

/-- A visited silence that makes a query by state and labels fail. -/
def blocks (s : Silences) (now : ℤ) (states : List SilenceState) (sil : Silence) : Bool :=
  decide (sil.getState now ∈ states) && (s.mi.lookup sil.id).isNone

/-- A visited silence that a query by state and labels returns. -/
def hits (s : Silences) (now : ℤ) (states : List SilenceState) (lset : LabelSet)
    (sil : Silence) : Bool :=
  decide (sil.getState now ∈ states) &&
    (s.mi.lookup sil.id).any fun ms => MatcherSet.matches ms lset

theorem runFilters_state_matches (now : ℤ) (states : List SilenceState) (lset : LabelSet)
    (sil : Silence) :
    s.runFilters now sil [.state states, .matches lset] =
      if s.blocks now states sil then .error .notFound else .ok (s.hits now states lset sil) := by
  by_cases hstate : sil.getState now ∈ states
  · cases hmi : s.mi.lookup sil.id with
    | none => simp [runFilters, SilenceFilter.run, blocks, hstate, hmi]
    | some ms =>
      cases hm : MatcherSet.matches ms lset with
      | false => simp [runFilters, SilenceFilter.run, blocks, hits, hstate, hmi, hm]
      | true => simp [runFilters, SilenceFilter.run, blocks, hits, hstate, hmi, hm]
  · simp [runFilters, SilenceFilter.run, blocks, hits, hstate]

theorem collect_state_matches (now : ℤ) (states : List SilenceState) (lset : LabelSet)
    (sils : List Silence) :
    s.collect now [.state states, .matches lset] (sils.map Except.ok) =
      if sils.any (s.blocks now states) then .error .notFound
      else .ok (sils.filter (s.hits now states lset)) := by
  induction sils with
  | nil => rfl
  | cons sil sils ih =>
    simp only [List.map_cons, collect, runFilters_state_matches, ih, List.any_cons]
    by_cases hb : s.blocks now states sil = true
    · simp [hb]
    · by_cases hany : sils.any (s.blocks now states) = true
      · simp [hb, hany]
      · simp only [hb, hany, List.filter_cons, Bool.or_self]
        rfl

theorem collect_state (now : ℤ) (states : List SilenceState) (sils : List Silence) :
    s.collect now [.state states] (sils.map Except.ok) =
      .ok (sils.filter fun sil => decide (sil.getState now ∈ states)) := by
  induction sils with
  | nil => rfl
  | cons sil sils ih =>
    by_cases hstate : sil.getState now ∈ states
    · simp [collect, ih, runFilters, SilenceFilter.run, hstate]
    · simp [collect, ih, runFilters, SilenceFilter.run, hstate]

/-- Entries of the index that lead to stored silences. -/
theorem map_visit {l : List SilenceVersion} (hl : ∀ sv ∈ l, ∃ e, s.st.lookup sv.id = some e) :
    l.map s.visit = (l.filterMap fun sv => s.getSilence sv.id).map Except.ok := by
  induction l with
  | nil => rfl
  | cons sv l ih =>
    obtain ⟨e, he⟩ := hl sv List.mem_cons_self
    have hget : s.getSilence sv.id = some e.silence := by simp [getSilence, he]
    have htail := ih fun sv' h => hl sv' (List.mem_cons_of_mem _ h)
    simp [visit, hget, htail]

theorem map_visit_drop (hs : WellFormed s) (version : ℕ) :
    (s.vi.drop (findVersionGreaterThan s.vi version)).map s.visit =
      (s.since version).map Except.ok := by
  have hmono : s.vi.Pairwise fun a b =>
      decide (version < a.version) = true → decide (version < b.version) = true :=
    hs.sorted.imp fun hab ha => by
      simp only [decide_eq_true_eq] at ha ⊢
      omega
  have hdrop := BinarySearch.drop_search_eq_filter
    (fun sv : SilenceVersion => decide (version < sv.version)) s.vi hmono
  rw [findVersionGreaterThan, hdrop]
  exact map_visit fun sv h => hs.exists_stored (List.mem_of_mem_filter h)

theorem runQuery_visits (hs : WellFormed s) (q : Query) (now : ℤ) :
    ∃ sils : List Silence, s.runQuery q now = s.collect now q.filters (sils.map Except.ok) := by
  unfold runQuery
  split_ifs with hids
  · exact ⟨_, rfl⟩
  · cases q.since with
    | none => exact ⟨_, congrArg _ (map_visit fun sv h => hs.exists_stored h)⟩
    | some version => exact ⟨_, congrArg _ (map_visit_drop hs version)⟩

/-- The only error of a filter is a silence without an entry in the matcher index. -/
theorem runFilters_error {now : ℤ} {sil : Silence} {fs : List SilenceFilter} {err : SilenceError}
    (h : s.runFilters now sil fs = .error err) : err = .notFound := by
  induction fs with
  | nil => simp [runFilters] at h
  | cons f fs ih =>
    cases f with
    | state states =>
      by_cases hstate : sil.getState now ∈ states
      · simp only [runFilters, SilenceFilter.run, hstate, decide_true] at h
        exact ih h
      · simp [runFilters, SilenceFilter.run, hstate] at h
    | «matches» lset =>
      cases hmi : s.mi.lookup sil.id with
      | none =>
        simp only [runFilters, SilenceFilter.run, hmi, Except.error.injEq] at h
        exact h.symm
      | some ms =>
        cases hm : MatcherSet.matches ms lset with
        | false => simp [runFilters, SilenceFilter.run, hmi, hm] at h
        | true =>
          simp only [runFilters, SilenceFilter.run, hmi, hm] at h
          exact ih h

theorem collect_error {now : ℤ} {fs : List SilenceFilter} {sils : List Silence}
    {err : SilenceError} (h : s.collect now fs (sils.map Except.ok) = .error err) :
    err = .notFound := by
  induction sils with
  | nil => simp [collect] at h
  | cons sil sils ih =>
    simp only [List.map_cons, collect] at h
    cases hrun : s.runFilters now sil fs with
    | error e =>
      simp only [hrun, Except.error.injEq] at h
      exact h ▸ runFilters_error hrun
    | ok keep =>
      simp only [hrun] at h
      cases hrest : s.collect now fs (sils.map Except.ok) with
      | error e =>
        simp only [hrest, Except.error.injEq] at h
        exact ih (hrest.trans (congrArg _ h))
      | ok res => simp [hrest] at h

/-- No query meets an entry of the version index without a stored silence. -/
theorem query_ne_missingState (hs : WellFormed s) (params : List QueryParam) (now : ℤ)
    (id : GoString) : (s.query params now).2.2 ≠ some (.missingState id) := by
  intro h
  unfold query at h
  cases hparams : applyParams params ⟨[], none, []⟩ with
  | error e =>
    simp only [hparams, Option.some.injEq] at h
    rcases applyParams_error hparams with rfl | rfl <;> cases h
  | ok q =>
    obtain ⟨sils, hvisits⟩ := runQuery_visits hs q now
    simp only [hparams, hvisits] at h
    cases hres : s.collect now q.filters (sils.map Except.ok) with
    | error e =>
      simp only [hres, Option.some.injEq] at h
      have he := collect_error hres
      rw [h] at he
      cases he
    | ok res => simp [hres] at h

theorem countLoop_eq {states : List SilenceState} {now : ℤ} {l : List SilenceVersion}
    (hl : ∀ sv ∈ l, ∃ e, s.st.lookup sv.id = some e) :
    s.countLoop states now l = .ok ((l.filterMap fun sv => s.getSilence sv.id).countP
      fun sil => decide (sil.getState now ∈ states)) := by
  induction l with
  | nil => rfl
  | cons sv l ih =>
    obtain ⟨e, he⟩ := hl sv List.mem_cons_self
    have hget : s.getSilence sv.id = some e.silence := by simp [getSilence, he]
    have htail := ih fun sv' h => hl sv' (List.mem_cons_of_mem _ h)
    simp only [countLoop, visit, htail, List.filterMap_cons, hget, List.countP_cons,
      decide_eq_true_eq]
    split_ifs <;> rfl

theorem countState_eq (hs : WellFormed s) (states : List SilenceState) (now : ℤ) :
    s.countState states now = .ok ((s.vi.filterMap fun sv => s.getSilence sv.id).countP
      fun sil => decide (sil.getState now ∈ states)) :=
  countLoop_eq fun _ h => hs.exists_stored h

theorem mem_since {version : ℕ} {sil : Silence} :
    sil ∈ s.since version ↔ ∃ sv ∈ s.vi, version < sv.version ∧ s.getSilence sv.id = some sil := by
  simp [since, and_assoc]

/-- Nothing was added after the version of the store. -/
theorem since_eq_nil (hs : WellFormed s) {version : ℕ} (h : s.version ≤ version) :
    s.since version = [] := by
  rw [since, List.filter_eq_nil_iff.mpr, List.filterMap_nil]
  intro sv hsv
  have hle := (hs.bound sv hsv).2
  simpa using by omega

theorem query_ids {ids : List GoString} (hids : ids ≠ []) (states : List SilenceState) (now : ℤ) :
    (s.query [.ids ids, .state states] now).1 =
      (ids.filterMap s.getSilence).filter fun sil => decide (sil.getState now ∈ states) := by
  simp [query, applyParams, QueryParam.apply, hids, runQuery, collect_state]

theorem query_since (hs : WellFormed s) (version : ℕ) (states : List SilenceState)
    (lset : LabelSet) (now : ℤ) :
    s.query [.since version, .state states, .matches lset] now =
      if (s.since version).any (s.blocks now states) then ([], s.version, some .notFound)
      else ((s.since version).filter (s.hits now states lset), s.version, none) := by
  simp only [query, applyParams, QueryParam.apply, List.length_nil, ne_eq, not_true_eq_false,
    if_false, List.nil_append, List.cons_append, runQuery, map_visit_drop hs,
    collect_state_matches]
  split_ifs <;> rfl

theorem query_all (hs : WellFormed s) (states : List SilenceState) (lset : LabelSet) (now : ℤ) :
    (s.query [.state states, .matches lset] now).1 =
      if (s.since 0).any (s.blocks now states) then []
      else (s.since 0).filter (s.hits now states lset) := by
  have hall : s.vi.filter (fun sv => decide (0 < sv.version)) = s.vi :=
    List.filter_eq_self.mpr fun sv h => by simpa using (hs.bound sv h).1
  have hvisit : s.vi.map s.visit = (s.since 0).map Except.ok := by
    rw [since, hall]
    exact map_visit fun sv h => hs.exists_stored h
  simp only [query, applyParams, QueryParam.apply, List.nil_append, List.cons_append, runQuery,
    ne_eq, not_true_eq_false, if_false, List.drop_zero, hvisit, collect_state_matches]
  split_ifs <;> rfl

end Alertmanager.Silences
