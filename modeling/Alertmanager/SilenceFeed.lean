import Alertmanager.SilenceStore

/-!
# Incremental queries

A client repeats a query and passes the version that the last one returned. The
versions of the index grow, a replaced silence keeps its version, and a collected one
that comes back gets a new one. So each query returns the silences whose ID was added
since the last query, and an ID comes twice only if it was collected in between.
-/
namespace Alertmanager.Silences

/-- `QMatches` or `QState`. -/
def SilenceFilter.param : SilenceFilter → QueryParam
  | .matches lset => .matches lset
  | .state states => .state states

theorem applyParams_filters (fs : List SilenceFilter) (params : List QueryParam) (q : Query) :
    applyParams (fs.map SilenceFilter.param ++ params) q =
      applyParams params { q with filters := q.filters ++ fs } := by
  induction fs generalizing q with
  | nil => simp
  | cons f fs ih =>
    cases f with
    | «matches» lset =>
      simp only [List.map_cons, List.cons_append, SilenceFilter.param, applyParams,
        QueryParam.apply, ih]
      simp
    | state states =>
      simp only [List.map_cons, List.cons_append, SilenceFilter.param, applyParams,
        QueryParam.apply, ih]
      simp

section
variable [Regexp] {s s' : Silences} {now : ℤ}

/-! ### The matcher index -/

/-- Every stored silence is in the matcher index. -/
def Indexed (s : Silences) : Prop := ∀ id ∈ s.st, ∃ ms, s.mi.lookup id = some ms

/-- Every stored silence has matchers that compile. -/
def Compiles (s : Silences) : Prop :=
  ∀ id ∈ s.st.keys, ∀ e ∈ s.st.lookup id, (compileMatcherSets e.silence.matcherSets).isSome = true

instance (s : Silences) : Decidable (Compiles s) :=
  inferInstanceAs (Decidable (∀ id ∈ s.st.keys, ∀ e ∈ s.st.lookup id,
    (compileMatcherSets e.silence.matcherSets).isSome = true))

/-- During an operation that began in `s₀`, the silences missing in the matcher index
are new and do not compile. -/
def Covers (s₀ s : Silences) : Prop :=
  ∀ id e, s.st.lookup id = some e → (∃ ms, s.mi.lookup id = some ms) ∨
    (id ∉ s₀.st ∧ compileMatcherSets e.silence.matcherSets = none)

theorem covers_mergeSilence {s₀ : Silences} (hg : Grows s₀ s) (h : Covers s₀ s) {e : MeshSilence}
    (he : ∀ prev, s.st.lookup e.silence.id = some prev →
      e.silence.id ∈ s₀.st ∨ e.silence.matcherSets = prev.silence.matcherSets) :
    Covers s₀ (s.mergeSilence e now).1 := by
  intro id e' he'
  have hout := mergeSilence_outcome s e now
  generalize s.mergeSilence e now = r at hout he'
  cases hout with
  | kept => exact h id e' he'
  | added hexp hfresh =>
    simp only [indexSilence] at he' ⊢
    rw [GoMap.lookup_insert_eq] at he'
    split_ifs at he' with hid
    · obtain rfl := Option.some.inj he'
      subst hid
      cases hc : compileMatcherSets e.silence.upgradeComments.matcherSets with
      | none =>
        exact Or.inr ⟨fun hmem => Finmap.lookup_eq_none.mp hfresh (hg.keys _ hmem), rfl⟩
      | some ms => exact Or.inl ⟨ms, by simp⟩
    · rcases h id e' he' with ⟨ms, hms⟩ | hnew
      · refine Or.inl ⟨ms, ?_⟩
        cases hc : compileMatcherSets e.silence.upgradeComments.matcherSets with
        | none => exact hms
        | some cs => simpa [GoMap.lookup_insert_eq, hid] using hms
      · exact Or.inr hnew
  | replaced hexp prev hprev hnewer =>
    dsimp only at he' ⊢
    rw [GoMap.lookup_insert_eq] at he'
    split_ifs at he' with hid
    · obtain rfl := Option.some.inj he'
      subst hid
      rcases h _ prev hprev with hmi | ⟨hnot, hc⟩
      · exact Or.inl hmi
      · refine Or.inr ⟨hnot, ?_⟩
        rcases he prev hprev with hmem | hsame
        · exact absurd hmem hnot
        · simpa [hsame] using hc
    · exact h id e' he'

theorem indexed_collected (h : Indexed s) (hgc : Collected now s s') : Indexed s' := by
  intro id hid
  obtain ⟨e, he⟩ := Finmap.mem_iff.mp hid
  rw [hgc.st, Option.filter_eq_some_iff] at he
  obtain ⟨ms, hms⟩ := h id (GoMap.mem_of_lookup he.1)
  refine ⟨ms, ?_⟩
  rw [hgc.mi, if_neg]
  · exact hms
  · simpa [he.1] using he.2

/-! ### Queries in an indexed store -/

/-- A filter accepts a silence. -/
def SilenceFilter.passes (s : Silences) (now : ℤ) (sil : Silence) (f : SilenceFilter) : Bool :=
  match f.run s now sil with
  | .ok b => b
  | .error _ => false

theorem SilenceFilter.passes_iff {sil : Silence} {f : SilenceFilter} :
    SilenceFilter.passes s now sil f = true ↔ f.run s now sil = .ok true := by
  unfold SilenceFilter.passes
  cases f.run s now sil <;> simp

theorem runFilters_of_indexed {sil : Silence} (hmi : ∃ ms, s.mi.lookup sil.id = some ms)
    (fs : List SilenceFilter) :
    s.runFilters now sil fs = .ok (fs.all (SilenceFilter.passes s now sil)) := by
  obtain ⟨ms, hms⟩ := hmi
  induction fs with
  | nil => rfl
  | cons f fs ih =>
    obtain ⟨b, hb⟩ : ∃ b, f.run s now sil = .ok b := by
      cases f with
      | «matches» lset =>
        exact ⟨MatcherSet.matches ms lset, by simp only [SilenceFilter.run, hms]⟩
      | state states => exact ⟨_, rfl⟩
    cases b with
    | false => simp [runFilters, SilenceFilter.passes, hb]
    | true => simp [runFilters, SilenceFilter.passes, hb, ih]

theorem collect_of_indexed {sils : List Silence} (fs : List SilenceFilter)
    (hmi : ∀ sil ∈ sils, ∃ ms, s.mi.lookup sil.id = some ms) :
    s.collect now fs (sils.map Except.ok) =
      .ok (sils.filter fun sil => fs.all (SilenceFilter.passes s now sil)) := by
  induction sils with
  | nil => rfl
  | cons sil sils ih =>
    have htail := ih fun sil' h => hmi sil' (List.mem_cons_of_mem _ h)
    simp only [List.map_cons, collect, htail,
      runFilters_of_indexed (hmi sil List.mem_cons_self), List.filter_cons]

theorem query_since_filters (hs : WellFormed s) (hi : Indexed s) (version : ℕ)
    (before after : List SilenceFilter) :
    s.query (before.map SilenceFilter.param ++
        .since version :: after.map SilenceFilter.param) now =
      ((s.since version).filter fun sil =>
        (before ++ after).all (SilenceFilter.passes s now sil), s.version, none) := by
  have hparams : applyParams (before.map SilenceFilter.param ++
      .since version :: after.map SilenceFilter.param) ⟨[], none, []⟩ =
      .ok ⟨[], some version, before ++ after⟩ := by
    rw [applyParams_filters]
    simp only [applyParams, QueryParam.apply, List.length_nil, ne_eq, not_true_eq_false, if_false]
    rw [← List.append_nil (after.map SilenceFilter.param), applyParams_filters]
    simp [applyParams]
  have hmi : ∀ sil ∈ s.since version, ∃ ms, s.mi.lookup sil.id = some ms := by
    intro sil hsil
    obtain ⟨sv, -, -, hget⟩ := mem_since.mp hsil
    obtain ⟨e, he, rfl⟩ := lookup_of_getSilence hget
    rw [hs.ident _ _ he]
    exact hi _ (GoMap.mem_of_lookup he)
  simp only [query, hparams, runQuery, ne_eq, not_true_eq_false, if_false, map_visit_drop hs,
    collect_of_indexed _ hmi]

theorem map_id_stored (hs : WellFormed s) {l : List SilenceVersion} (hl : ∀ sv ∈ l, sv ∈ s.vi) :
    (l.filterMap fun sv => s.getSilence sv.id).map Silence.id = l.map SilenceVersion.id := by
  induction l with
  | nil => rfl
  | cons sv l ih =>
    obtain ⟨e, he, hid⟩ := hs.stored_under_id (hl sv List.mem_cons_self)
    have hget : s.getSilence sv.id = some e.silence := by simp [getSilence, he]
    have htail := ih fun sv' h => hl sv' (List.mem_cons_of_mem _ h)
    simp [hget, hid, htail]

theorem nodup_since (hs : WellFormed s) (version : ℕ) :
    ((s.since version).map Silence.id).Nodup := by
  rw [since, map_id_stored hs fun sv h => List.mem_of_mem_filter h]
  exact hs.nodup.sublist (List.filter_sublist.map _)

end

end Alertmanager.Silences

namespace Alertmanager.SilenceFeed

/-- The filters of a query, before and after `QSince`. -/
structure Request where
  before : List Silences.SilenceFilter
  after : List Silences.SilenceFilter

def Request.params (r : Request) (since : ℕ) : List Silences.QueryParam :=
  r.before.map Silences.SilenceFilter.param ++
    .since since :: r.after.map Silences.SilenceFilter.param

inductive Op
  | store (op : SilenceStore.Op)
  | query (now : ℤ) (r : Request)

section
variable [Regexp]

/-- The store, the version the client passes next, and the IDs that were added to the
state after its last query. -/
structure State where
  silences : Silences
  since : ℕ
  added : Finset GoString

def init (retention : ℤ) : State := ⟨Silences.new retention, 0, ∅⟩

/-- What a query of the client returns. -/
def State.query (s : State) (now : ℤ) (r : Request) : List Silence × ℕ × Option SilenceError :=
  s.silences.query (r.params s.since) now

theorem covers_offer {s₀ s : Silences} {op : SilenceStore.Op} {e : MeshSilence}
    (h : SilenceStore.Offers s₀ op s e) :
    ∀ prev, s.st.lookup e.silence.id = some prev →
      e.silence.id ∈ s₀.st ∨ e.silence.matcherSets = prev.silence.matcherSets := by
  intro prev hprev
  have hlocal : ∀ uuid mss now, s₀.LocalPut uuid mss now s e →
      e.silence.id ∈ s₀.st ∨ e.silence.matcherSets = prev.silence.matcherSets := by
    rintro uuid mss now (⟨prev', hprev', -, hms⟩ | ⟨-, -, hkeys⟩)
    · obtain rfl := Option.some.inj (hprev.symm.trans hprev')
      exact Or.inr hms
    · exact Or.inl (hkeys _ (GoMap.mem_of_lookup hprev))
  cases op with
  | set now env sil => exact hlocal _ _ _ h
  | expire now id => exact hlocal _ _ _ h
  | merge now p order =>
    rw [h.2] at hprev
    exact Or.inl (GoMap.mem_of_lookup hprev)
  | gc now => exact h.elim

/-- The invariant: the versions after the client's are those of the added IDs. -/
structure InStep (s : State) : Prop where
  wf : s.silences.WellFormed
  indexed : s.silences.Indexed
  since : s.since ≤ s.silences.version
  added : ∀ sv ∈ s.silences.vi, s.since < sv.version ↔ sv.id ∈ s.added

theorem inStep_init (retention : ℤ) : InStep (init retention) where
  wf := Silences.wellFormed_new retention
  indexed id hid := absurd hid Finmap.notMem_empty
  since := le_rfl
  added sv hsv := by simp [init, Silences.new] at hsv

theorem query_eq {s : State} (hs : InStep s) (now : ℤ) (r : Request) :
    s.query now r = ((s.silences.since s.since).filter fun sil =>
      (r.before ++ r.after).all (Silences.SilenceFilter.passes s.silences now sil),
      s.silences.version, none) :=
  Silences.query_since_filters hs.wf hs.indexed s.since r.before r.after

theorem mem_query {s : State} (hs : InStep s) {now : ℤ} {r : Request} {sil : Silence} :
    sil ∈ (s.query now r).1 ↔ (∃ sv ∈ s.silences.vi, s.since < sv.version ∧
      s.silences.getSilence sv.id = some sil) ∧
      (r.before ++ r.after).all (Silences.SilenceFilter.passes s.silences now sil) = true := by
  rw [query_eq hs, List.mem_filter, Silences.mem_since]

/-- The client has got the ID, and it has not been removed since. -/
def Delivered (id : GoString) (s : State) : Prop :=
  ∃ sv ∈ s.silences.vi, sv.id = id ∧ sv.version ≤ s.since

theorem not_delivered_of_returned {s : State} (hs : InStep s) {now : ℤ} {r : Request}
    {sil : Silence} (h : sil ∈ (s.query now r).1) : ¬ Delivered sil.id s := by
  rintro ⟨sv', hsv', hid, hle⟩
  obtain ⟨⟨sv, hsv, hlt, hget⟩, -⟩ := (mem_query hs).mp h
  obtain ⟨e, he, rfl⟩ := Silences.lookup_of_getSilence hget
  rw [hs.wf.ident _ _ he] at hid
  obtain rfl := List.inj_on_of_nodup_map hs.wf.nodup hsv' hsv hid
  omega

variable [Proto]

def next (s : State) : Op → State
  | .store op =>
    let silences := SilenceStore.apply s.silences op
    ⟨silences, s.since, s.added ∪ (silences.st.keys \ s.silences.st.keys)⟩
  | .query now r => ⟨s.silences, (s.query now r).2.1, ∅⟩

/-- `Merge` ranges over what it has decoded, and all stored matchers compile. -/
def Enabled (s : State) : Op → Prop
  | .store op => SilenceStore.Ranged op ∧ (SilenceStore.apply s.silences op).Compiles
  | .query _ _ => True

instance (s : State) : (op : Op) → Decidable (Enabled s op)
  | .store op => inferInstanceAs (Decidable (SilenceStore.Ranged op ∧
      (SilenceStore.apply s.silences op).Compiles))
  | .query _ _ => isTrue trivial

/-- All stored silences stay in the matcher index while all of them compile. -/
theorem indexed_apply {s : Silences} (hs : s.WellFormed) (hi : s.Indexed)
    {op : SilenceStore.Op} (hop : SilenceStore.Ranged op)
    (hc : (SilenceStore.apply s op).Compiles) : (SilenceStore.apply s op).Indexed := by
  obtain ⟨now, rfl, hgc⟩ | hputs := SilenceStore.apply_cases hs hop
  · exact Silences.indexed_collected hi hgc
  · have hcovers := hputs.invariant (I := fun s' => s.Grows s' ∧ s.Covers s')
      (fun s' e hI hoffer => ⟨hI.1.mergeSilence e op.now,
        Silences.covers_mergeSilence hI.1 hI.2 (covers_offer hoffer)⟩)
      ⟨.refl s, fun id e he => Or.inl (hi id (GoMap.mem_of_lookup he))⟩
    intro id hid
    obtain ⟨e, he⟩ := Finmap.mem_iff.mp hid
    rcases hcovers.2 id e he with hmi | ⟨-, hnone⟩
    · exact hmi
    · have hsome := hc id (Finmap.mem_keys.mpr hid) e he
      rw [hnone] at hsome
      cases hsome

theorem mem_added {s : State} {op : SilenceStore.Op} {id : GoString} :
    id ∈ (next s (.store op)).added ↔
      id ∈ s.added ∨ (id ∈ (SilenceStore.apply s.silences op).st ∧ id ∉ s.silences.st) := by
  simp [next, Finmap.mem_keys]

theorem inStep_store {s : State} (hs : InStep s) {op : SilenceStore.Op}
    (hen : Enabled s (.store op)) : InStep (next s (.store op)) := by
  have hwf := SilenceStore.wellFormed_apply hs.wf op
  have hold : ∀ sv ∈ s.silences.vi, s.since < sv.version ↔
      sv.id ∈ (next s (.store op)).added := by
    intro sv hsv
    have hmem := (hs.wf.mem sv.id).mp (List.mem_map_of_mem hsv)
    rw [hs.added sv hsv, mem_added]
    simp [hmem]
  obtain ⟨now, hop, hgc⟩ | hputs := SilenceStore.apply_cases hs.wf hen.1
  · refine ⟨hwf, indexed_apply hs.wf hs.indexed hen.1 hen.2, ?_, fun sv hsv => ?_⟩
    · exact hs.since.trans hgc.version.ge
    · rw [next, hgc.vi] at hsv
      exact hold sv (List.mem_of_mem_filter hsv)
  · have hg := hputs.grows
    refine ⟨hwf, indexed_apply hs.wf hs.indexed hen.1 hen.2, hs.since.trans hg.version,
      fun sv hsv => ?_⟩
    rcases hg.fresh sv hsv with hsv' | ⟨hnew, hversion⟩
    · exact hold sv hsv'
    · have hstored := (hwf.mem sv.id).mp (List.mem_map_of_mem hsv)
      rw [mem_added]
      exact iff_of_true (hs.since.trans_lt hversion) (Or.inr ⟨hstored, hnew⟩)

theorem inStep_query {s : State} (hs : InStep s) (now : ℤ) (r : Request) :
    InStep (next s (.query now r)) := by
  have hsince : (next s (.query now r)).since = s.silences.version := by
    simp [next, query_eq hs]
  refine ⟨hs.wf, hs.indexed, hsince.le, fun sv hsv => ?_⟩
  have hbound := (hs.wf.bound sv hsv).2
  rw [hsince]
  simpa [next] using hbound

theorem inStep_next {s : State} (hs : InStep s) {op : Op} (hen : Enabled s op) :
    InStep (next s op) := by
  cases op with
  | store op => exact inStep_store hs hen
  | query now r => exact inStep_query hs now r

/-! ### Repetitions -/

/-- A collection removes the ID. -/
def Removes (id : GoString) (s : State) (op : Op) : Prop :=
  ∃ now, op = .store (.gc now) ∧ id ∈ s.silences.st ∧ id ∉ (next s op).silences.st

theorem delivered_or_removed {id : GoString} {s : State} (hs : InStep s) (hd : Delivered id s)
    {op : Op} (hen : Enabled s op) : Delivered id (next s op) ∨ Removes id s op := by
  obtain ⟨sv, hsv, rfl, hle⟩ := hd
  cases op with
  | query now r =>
    have hbound := (hs.wf.bound sv hsv).2
    exact Or.inl ⟨sv, hsv, rfl, by simpa [next, query_eq hs] using hbound⟩
  | store op =>
    obtain ⟨now, rfl, hgc⟩ | hputs := SilenceStore.apply_cases hs.wf hen.1
    · obtain ⟨e, he⟩ := hs.wf.exists_stored hsv
      cases hc : Silences.collectable e now with
      | true =>
        refine Or.inr ⟨now, rfl, GoMap.mem_of_lookup he, Finmap.lookup_eq_none.mp ?_⟩
        simp only [next, hgc.st, he]
        simp [Option.filter, hc]
      | false =>
        refine Or.inl ⟨sv, ?_, rfl, hle⟩
        simp only [next, hgc.vi, List.mem_filter]
        exact ⟨hsv, by simp [he, hc]⟩
    · exact Or.inl ⟨sv, hputs.grows.kept sv hsv, rfl, hle⟩

/-- In the course of a run a collection removes the ID and a later operation adds it. -/
def Readded (id : GoString) (s : State) (ops : List Op) (s' : State) : Prop :=
  ∃ ops₁ gc ops₂ add ops₃ s₁ s₂, ops = ops₁ ++ gc :: (ops₂ ++ add :: ops₃) ∧
    Run (Fires Enabled next) s ops₁ s₁ ∧ Removes id s₁ gc ∧
    Run (Fires Enabled next) (next s₁ gc) ops₂ s₂ ∧ id ∉ s₂.silences.st ∧
    id ∈ (next s₂ add).silences.st ∧ Run (Fires Enabled next) (next s₂ add) ops₃ s'

theorem delivered_of_returned {s : State} (hs : InStep s) {now : ℤ} {r : Request}
    {sil : Silence} (h : sil ∈ (s.query now r).1) : Delivered sil.id (next s (.query now r)) := by
  obtain ⟨⟨sv, hsv, -, hget⟩, -⟩ := (mem_query hs).mp h
  obtain ⟨e, he, rfl⟩ := Silences.lookup_of_getSilence hget
  refine ⟨sv, hsv, (hs.wf.ident _ _ he).symm, ?_⟩
  simpa [next, query_eq hs] using (hs.wf.bound sv hsv).2

/-- An ID that is returned again was removed and added again. -/
theorem readded_of_returned_again {s s' : State} (hs : InStep s) {now now' : ℤ}
    {r r' : Request} {ops : List Op}
    (hrun : Run (Fires Enabled next) (next s (.query now r)) ops s') {sil sil' : Silence}
    (h : sil ∈ (s.query now r).1) (h' : sil' ∈ (s'.query now' r').1) (hid : sil'.id = sil.id) :
    Readded sil.id (next s (.query now r)) ops s' := by
  have hstep : ∀ s op t, InStep s → Fires Enabled next s op t → InStep t := by
    rintro s op t hs ⟨hen, rfl⟩
    exact inStep_next hs hen
  have hs' := hrun.invariant hstep (inStep_query hs now r)
  have hend : ¬ Delivered sil.id s' := hid ▸ not_delivered_of_returned hs' h'
  obtain hd | ⟨ops₁, gc, ops₂, s₁, s₂, rfl, hrun₁, ⟨-, rfl⟩, hrun₂, hgc⟩ :=
    hrun.kept_or_broken (P := Delivered sil.id) (B := Removes sil.id) hstep
      (fun s op t hs hd ⟨hen, ht⟩ => ht ▸ delivered_or_removed hs hd hen) (inStep_query hs now r)
      (delivered_of_returned hs h)
  · exact absurd hd hend
  · have hgone : sil.id ∉ (next s₁ gc).silences.st := hgc.choose_spec.2.2
    have hthere : sil.id ∈ s'.silences.st := by
      obtain ⟨⟨sv, -, -, hget⟩, -⟩ := (mem_query hs').mp h'
      obtain ⟨e, he, rfl⟩ := Silences.lookup_of_getSilence hget
      rw [← hid, hs'.wf.ident _ _ he]
      exact GoMap.mem_of_lookup he
    obtain ⟨ops₂, add, ops₃, s₂, s₃, rfl, hrun₂, hnot, ⟨hen, rfl⟩, hadd, hrun₃⟩ :=
      hrun₂.last_entry (P := fun s => sil.id ∈ s.silences.st) hgone hthere
    exact ⟨ops₁, gc, ops₂, add, ops₃, s₁, s₂, rfl, hrun₁, hgc, hrun₂, hnot, hadd,
      hrun₃.mono fun _ _ _ h => h.1⟩

/-- Incremental queries miss nothing and repeat nothing: each returns, once each, the
stored silences that pass the filters and whose ID was added after the last query; and
an ID is returned again only if it was collected and added again. -/
theorem queries_exact {retention : ℤ} {ops : List Op} {s : State}
    (hrun : Run (Fires Enabled next) (init retention) ops s) (now : ℤ) (r : Request) :
    (s.query now r).2.2 = none ∧ ((s.query now r).1.map Silence.id).Nodup ∧
    (∀ sil, sil ∈ (s.query now r).1 ↔ ∃ id ∈ s.added, s.silences.getSilence id = some sil ∧
      ∀ f ∈ r.before ++ r.after, f.run s.silences now sil = .ok true) ∧
    ∀ ops' s' now' r', Run (Fires Enabled next) (next s (.query now r)) ops' s' →
      ∀ sil ∈ (s.query now r).1, ∀ sil' ∈ (s'.query now' r').1, sil'.id = sil.id →
        Readded sil.id (next s (.query now r)) ops' s' := by
  have hs : InStep s := hrun.invariant (fun s op t hs hstep => by
    obtain ⟨hen, rfl⟩ := hstep
    exact inStep_next hs hen) (inStep_init retention)
  refine ⟨by rw [query_eq hs], ?_, fun sil => ?_, fun ops' s' now' r' hrun' sil h sil' h' hid =>
    readded_of_returned_again hs hrun' h h' hid⟩
  · rw [query_eq hs]
    exact (Silences.nodup_since hs.wf s.since).sublist (List.filter_sublist.map _)
  · rw [mem_query hs, List.all_eq_true]
    constructor
    · rintro ⟨⟨sv, hsv, hlt, hget⟩, hpass⟩
      exact ⟨sv.id, (hs.added sv hsv).mp hlt, hget, fun f hf =>
        Silences.SilenceFilter.passes_iff.mp (hpass f hf)⟩
    · rintro ⟨id, hadded, hget, hpass⟩
      obtain ⟨e, he, rfl⟩ := Silences.lookup_of_getSilence hget
      obtain ⟨sv, hsv, rfl⟩ := hs.wf.exists_version he
      exact ⟨⟨sv, hsv, (hs.added sv hsv).mpr hadded, hget⟩, fun f hf =>
        Silences.SilenceFilter.passes_iff.mpr (hpass f hf)⟩

end

section
attribute [local instance] noRegexp zeroProto

/-- All silences that have not expired. -/
def unexpired : Request := ⟨[], [.state [.active, .pending]]⟩

/-- A silence is returned, collected, and added again. -/
def readdedHistory : List Op :=
  [.store (.merge 1 (SilenceStore.carrying (SilenceStore.silenceFrom "x" 1 10 1) 10) [str "x"]),
    .query 5 unexpired, .store (.gc 20),
    .store (.merge 30 (SilenceStore.carrying (SilenceStore.silenceFrom "x" 1 100 2) 100) [str "x"])]

/-- The query after it returns the ID again, and nothing else. -/
theorem queries_exact_readded :
    let s := readdedHistory.foldl next (init 0)
    (s.query 40 unexpired).1.map Silence.id = [str "x"] ∧
    ∀ sil, sil ∈ (s.query 40 unexpired).1 ↔
      ∃ id ∈ s.added, s.silences.getSilence id = some sil ∧
        ∀ f ∈ unexpired.before ++ unexpired.after, f.run s.silences 40 sil = .ok true := by
  intro s
  have hrun : Run (Fires Enabled next) (init 0) readdedHistory s :=
    Run.of_feasible (by decide +kernel)
  exact ⟨by decide +kernel, (queries_exact hrun 40 unexpired).2.2.1⟩

end

end Alertmanager.SilenceFeed
