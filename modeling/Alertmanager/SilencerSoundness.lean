import Alertmanager.SilenceEdits
import Alertmanager.SilencerRuns

/-!
# What a muted label set rests on

Cached IDs are used without another look at the matchers. A cache entry is sound
because the matchers of an ID never change, the matcher index has the matchers of the
stored silences, and an entry only gets the IDs of silences that the index found.
-/
namespace Alertmanager.Silences

variable [Regexp] {s : Silences} {now : ℤ}

/-- The matcher index of the later store has entries of the earlier one, and of
silences as they are stored now. -/
def IndexedFrom (s s' : Silences) : Prop :=
  ∀ id ms, s'.mi.lookup id = some ms → s.mi.lookup id = some ms ∨
    ∃ e, s'.st.lookup id = some e ∧ compileMatcherSets e.silence.matcherSets = some ms

theorem IndexedFrom.refl (s : Silences) : IndexedFrom s s := fun _ _ h => Or.inl h

/-- Merging a silence adds at most its own entry to the matcher index. -/
theorem mi_mergeSilence {e : MeshSilence} {id : GoString} {ms : MatcherSet}
    (h : (s.mergeSilence e now).1.mi.lookup id = some ms) :
    s.mi.lookup id = some ms ∨ (id = e.silence.id ∧ ∃ e',
      (s.mergeSilence e now).1.st.lookup id = some e' ∧
        compileMatcherSets e'.silence.matcherSets = some ms) := by
  have hout := mergeSilence_outcome s e now
  generalize s.mergeSilence e now = r at hout h
  cases hout with
  | kept => exact Or.inl h
  | added hexp hfresh =>
    simp only [indexSilence] at h ⊢
    cases hc : compileMatcherSets e.silence.upgradeComments.matcherSets with
    | none =>
      simp only [hc] at h
      exact Or.inl h
    | some cs =>
      simp only [hc, Silence.upgradeComments_id] at h
      rw [GoMap.lookup_insert_eq] at h
      split_ifs at h with hid
      · obtain rfl := Option.some.inj h
        exact Or.inr ⟨hid, _, by rw [hid, Finmap.lookup_insert], hc⟩
      · exact Or.inl h
  | replaced hexp prev hprev hnewer => exact Or.inl h

theorem indexedFrom_mergeSilence (s : Silences) (e : MeshSilence) (now : ℤ) :
    IndexedFrom s (s.mergeSilence e now).1 :=
  fun _ _ h => (mi_mergeSilence h).imp_right And.right

/-- A new version of a stored silence leaves the matcher index alone. -/
theorem mi_mergeSilence_of_mem {e : MeshSilence} (h : e.silence.id ∈ s.st) :
    (s.mergeSilence e now).1.mi = s.mi := by
  have hout := mergeSilence_outcome s e now
  generalize s.mergeSilence e now = r at hout
  cases hout with
  | kept => rfl
  | added hexp hfresh => exact absurd h (Finmap.lookup_eq_none.mp hfresh)
  | replaced hexp prev hprev hnewer => rfl

theorem indexedFrom_collected {s' : Silences} (h : Collected now s s') : IndexedFrom s s' := by
  intro id ms hms
  rw [h.mi] at hms
  split_ifs at hms
  exact Or.inl hms

theorem lookup_mergeLoop_of_notMem (p : Payload) {st : GoMap GoString MeshSilence}
    (hst : ∀ id e, st.lookup id = some e → e.silence.id = id) {order : List GoString}
    {id : GoString} (hid : id ∉ order) (s : Silences) :
    (mergeLoop p st now order s).1.st.lookup id = s.st.lookup id := by
  induction order generalizing s with
  | nil => rfl
  | cons id' order ih =>
    rw [List.mem_cons, not_or] at hid
    simp only [mergeLoop]
    cases he : st.lookup id' with
    | none => exact ih hid.2 s
    | some e =>
      rw [ih hid.2]
      exact lookup_mergeSilence_of_ne (by rw [hst id' e he]; exact hid.1)

theorem indexedFrom_mergeLoop (p : Payload) {st : GoMap GoString MeshSilence}
    (hst : ∀ id e, st.lookup id = some e → e.silence.id = id) {order : List GoString}
    (hnodup : order.Nodup) (s : Silences) : IndexedFrom s (mergeLoop p st now order s).1 := by
  induction order generalizing s with
  | nil => exact .refl s
  | cons id' order ih =>
    rw [List.nodup_cons] at hnodup
    simp only [mergeLoop]
    cases he : st.lookup id' with
    | none => exact ih hnodup.2 s
    | some e =>
      intro id ms hms
      rcases ih hnodup.2 _ id ms hms with hms | hstored
      · rcases mi_mergeSilence hms with hold | ⟨hid, e', he', hc⟩
        · exact Or.inl hold
        · have hnot : id ∉ order := by
            rw [hid, hst id' e he]
            exact hnodup.1
          exact Or.inr ⟨e', (lookup_mergeLoop_of_notMem p hst hnot _).trans he', hc⟩
      · exact Or.inr hstored

section
variable [Proto]

theorem mi_expirePrevious (hs : Filed s) (prev : Option Silence) :
    (s.expirePrevious prev now).2.1.mi = s.mi := by
  rcases expirePrevious_eq s prev now with hsame | ⟨p, q, b, -, -, hq, -, -, -, heq⟩
  · rw [hsame]
  · obtain ⟨e, he, rfl⟩ := lookup_of_getSilence hq
    rw [heq]
    exact mi_mergeSilence_of_mem (GoMap.mem_of_lookup (lookup_retired hs he now))

theorem indexedFrom_expire (s : Silences) (id : GoString) (now : ℤ) :
    IndexedFrom s (s.expire id now).2.1 := by
  have hout := expire_outcome s id now
  generalize s.expire id now = r at hout
  cases hout with
  | notFound hnone => exact .refl s
  | already prev hprev hexp => exact .refl s
  | unmarshallable prev hprev hlive hm => exact .refl s
  | offered prev hprev hlive b hm => exact indexedFrom_mergeSilence s _ now

theorem indexedFrom_set (hs : Filed s) (env : SetEnv) (now : ℤ) (sil : Silence) :
    IndexedFrom s (s.set env now sil).silences := by
  have hout := set_outcome s env now sil
  generalize s.set env now sil = r at hout
  cases hout with
  | refused err sil' => exact .refl s
  | updated prev h b hm => exact indexedFrom_mergeSilence s _ now
  | created prev uid h b hm =>
    intro id ms hms
    have hstep := indexedFrom_mergeSilence _ (s.creation sil uid now) now id ms hms
    rwa [mi_expirePrevious hs prev] at hstep
  | torn prev uid h hm =>
    intro id ms hms
    rw [mi_expirePrevious hs prev] at hms
    exact Or.inl hms

end

end Alertmanager.Silences

namespace Alertmanager.Silencer

/-! ### The marked IDs -/

theorem nodup_firsts (sils : List Silence) (seen : List GoString) :
    ((firsts sils seen).map Silence.id).Nodup ∧ ∀ sil ∈ firsts sils seen, sil.id ∉ seen := by
  induction sils generalizing seen with
  | nil => simp [firsts]
  | cons sil sils ih =>
    simp only [firsts]
    split_ifs with hseen
    · exact ih seen
    · obtain ⟨hnodup, hnew⟩ := ih (sil.id :: seen)
      rw [List.map_cons, List.nodup_cons]
      refine ⟨⟨fun hmem => ?_, hnodup⟩, ?_⟩
      · obtain ⟨sil', hsil', hid⟩ := List.mem_map.mp hmem
        exact hnew sil' hsil' (hid ▸ List.mem_cons_self)
      · intro sil' hsil'
        rcases List.mem_cons.mp hsil' with rfl | hsil'
        · exact hseen
        · exact fun h => hnew sil' hsil' (List.mem_cons_of_mem _ h)

theorem nodup_classify_active (now : ℤ) (sils : List Silence) :
    (classify now sils []).1.Nodup := by
  rw [classify_eq]
  exact (nodup_firsts sils []).1.sublist (List.filter_sublist.map _)

theorem finish_marked (cache : SilencerCache) (fp : Fingerprint) (old : List Silence)
    (new : List Silence × ℕ) (now : ℤ) :
    (finish cache fp old new now).marked = (classify now (old ++ new.1) []).1 := by
  unfold finish
  split_ifs with hnone
  · have hold : old = [] := List.length_eq_zero_iff.mp (by omega)
    have hnew : new.1 = [] := List.length_eq_zero_iff.mp (by omega)
    simp [hold, hnew, classify]
  · dsimp only
    split_ifs with hpos
    · rfl
    · exact (List.length_eq_zero_iff.mp (by omega)).symm

variable [Regexp] [LabelHash]

/-- The silences a call finds. -/
def found (s : Silences) (cache : SilencerCache) (t₁ t₂ : ℤ) (lset : LabelSet) : List Silence :=
  queryOld s (SilencerCache.get cache (fingerprint lset)) t₁ ++
    (queryNew s (SilencerCache.get cache (fingerprint lset)) t₂ lset).1

/-- The marked IDs are those of the found silences that are active at the last
reading, each once. -/
theorem marked_spec {s : Silences} (hs : s.WellFormed) (cache : SilencerCache) (t₁ t₂ t₃ : ℤ)
    (lset : LabelSet) :
    (mutesAt s cache t₁ t₂ t₃ lset).marked.Nodup ∧
    (∀ id, id ∈ (mutesAt s cache t₁ t₂ t₃ lset).marked ↔
      ∃ sil ∈ found s cache t₁ t₂ lset, sil.id = id ∧ sil.getState t₃ = .active) := by
  have hsame := sameById_found hs (SilencerCache.get cache (fingerprint lset)) t₁ t₂ lset
  have hmarked : (mutesAt s cache t₁ t₂ t₃ lset).marked =
      (classify t₃ (found s cache t₁ t₂ lset) []).1 := by
    unfold mutesAt
    simp only
    split_ifs with hfast
    · simp [found, queryOld, queryNew, hfast.1, hfast.2, classify]
    · exact finish_marked _ _ _ _ _
  rw [hmarked]
  exact ⟨nodup_classify_active t₃ _, fun id => mem_classify_active hsame⟩

end Alertmanager.Silencer

namespace Alertmanager.SilencerSoundness

/-! ### Histories -/

inductive Op
  | store (op : SilenceStore.Op)
  | mutes (t₁ t₂ t₃ : ℤ) (lset : LabelSet)
  | postGC (fps : List Fingerprint)

structure State [Regexp] where
  silences : Silences
  cache : SilencerCache

section
variable [Regexp]

/-- The stored versions of an ID have the matcher sets that `M` assigns to it. -/
def Carries (M : GoString → List Silencepb.MatcherSet) (s : Silences) : Prop :=
  ∀ id ∈ s.st.keys, ∀ e ∈ s.st.lookup id, e.silence.matcherSets = M id

instance (M : GoString → List Silencepb.MatcherSet) (s : Silences) : Decidable (Carries M s) :=
  inferInstanceAs (Decidable (∀ id ∈ s.st.keys, ∀ e ∈ s.st.lookup id, e.silence.matcherSets = M id))

theorem Carries.lookup {M : GoString → List Silencepb.MatcherSet} {s : Silences}
    (h : Carries M s) {id : GoString} {e : MeshSilence}
    (he : s.st.lookup id = some e) : e.silence.matcherSets = M id :=
  h id (Finmap.mem_keys.mpr (GoMap.mem_of_lookup he)) e he

/-- Every operation on the store indexes what is stored after it. -/
theorem indexedFrom_apply [Proto] {s : Silences} (hs : s.WellFormed) {op : SilenceStore.Op}
    (hop : SilenceStore.Ranged op) :
    s.IndexedFrom (SilenceStore.apply s op) := by
  cases op with
  | set now env sil => exact Silences.indexedFrom_set hs.ident env now sil
  | expire now id => exact Silences.indexedFrom_expire s id now
  | merge now p order =>
    simp only [SilenceStore.apply, Silences.merge]
    cases hdec : decodeState p with
    | error err => exact .refl s
    | ok st =>
      simp only [SilenceStore.Ranged, SilenceStore.Visits, hdec] at hop
      exact Silences.indexedFrom_mergeLoop p (decodeState_id hdec) hop.nodup s
  | gc now => exact Silences.indexedFrom_collected (Silences.gc_collected hs now)

def init (retention : ℤ) : State := ⟨Silences.new retention, ∅⟩

variable [LabelHash]

/-- The matchers of an ID match a label set. -/
def Fits (M : GoString → List Silencepb.MatcherSet) (lset : LabelSet) (id : GoString) : Prop :=
  (compileMatcherSets (M id)).any (fun ms => MatcherSet.matches ms lset) = true

/-- The invariant: the matcher index has the matchers of the IDs, and cached IDs match
the label set of their entry. -/
structure Sound (M : GoString → List Silencepb.MatcherSet) (S : Finset LabelSet) (s : State) :
    Prop where
  wf : s.silences.WellFormed
  carries : Carries M s.silences
  indexed : ∀ id ms, s.silences.mi.lookup id = some ms → compileMatcherSets (M id) = some ms
  cached : ∀ lset ∈ S, ∀ id ∈ (SilencerCache.get s.cache (fingerprint lset)).silenceIDs,
    Fits M lset id

section
variable {M : GoString → List Silencepb.MatcherSet} {S : Finset LabelSet} {s : State}

theorem sound_init (retention : ℤ) : Sound M S (init retention) where
  wf := Silences.wellFormed_new retention
  carries id hid := by simp [init, Silences.new] at hid
  indexed id ms h := by simp [init, Silences.new] at h
  cached lset _ id hid := by simp [init, SilencerCache.get] at hid

/-- The matchers of the silences a call finds match. -/
theorem fits_found (hs : Sound M S s) {lset : LabelSet} (hl : lset ∈ S) {t₁ t₂ : ℤ}
    {sil : Silence} (h : sil ∈ Silencer.found s.silences s.cache t₁ t₂ lset) :
    Fits M lset sil.id := by
  rw [Silencer.found, List.mem_append] at h
  rcases h with h | h
  · obtain ⟨id, hid, hget, -⟩ := Silencer.mem_queryOld.mp h
    rw [Silencer.getSilence_id hs.wf hget]
    exact hs.cached lset hl id hid
  · rw [Silencer.queryNew_eq hs.wf] at h
    split_ifs at h
    · simp at h
    · have hhit := (List.mem_filter.mp h).2
      simp only [Silences.hits, Bool.and_eq_true] at hhit
      obtain ⟨ms, hms, hmatch⟩ := (Option.any_eq_true _ _).mp hhit.2
      simp [Fits, hs.indexed sil.id ms hms, hmatch]

end

variable [Proto]

def next (s : State) : Op → State
  | .store op => ⟨SilenceStore.apply s.silences op, s.cache⟩
  | .mutes t₁ t₂ t₃ lset =>
    ⟨s.silences, (Silencer.mutesAt s.silences s.cache t₁ t₂ t₃ lset).cache⟩
  | .postGC fps => ⟨s.silences, Silencer.postGC s.cache fps⟩

/-- The assumptions on a history: `Merge` ranges over what it has decoded, all stored
versions of an ID have the same matcher sets, and the label sets are among `S`. -/
def Enabled (M : GoString → List Silencepb.MatcherSet) (S : Finset LabelSet) (s : State)
    (op : Op) : Prop :=
  Carries M (next s op).silences ∧
  match op with
  | .store op => SilenceStore.Ranged op
  | .mutes _ _ _ lset => lset ∈ S
  | .postGC _ => True

instance (M : GoString → List Silencepb.MatcherSet) (S : Finset LabelSet) (s : State) :
    (op : Op) → Decidable (Enabled M S s op)
  | .store op => inferInstanceAs (Decidable (Carries M (next s (.store op)).silences ∧
      SilenceStore.Ranged op))
  | .mutes t₁ t₂ t₃ lset => inferInstanceAs (Decidable (Carries M
      (next s (.mutes t₁ t₂ t₃ lset)).silences ∧ lset ∈ S))
  | .postGC fps => inferInstanceAs (Decidable (Carries M (next s (.postGC fps)).silences ∧ True))

variable {M : GoString → List Silencepb.MatcherSet} {S : Finset LabelSet} {s : State}

theorem sound_store (hs : Sound M S s) {op : SilenceStore.Op} (hen : Enabled M S s (.store op)) :
    Sound M S (next s (.store op)) := by
  refine ⟨SilenceStore.wellFormed_apply hs.wf op, hen.1, fun id ms hms => ?_, hs.cached⟩
  rcases indexedFrom_apply hs.wf hen.2 id ms hms with hold | ⟨e, he, hc⟩
  · exact hs.indexed id ms hold
  · rwa [hen.1.lookup he] at hc

theorem sound_mutes (hinj : Set.InjOn fingerprint (S : Set LabelSet)) (hs : Sound M S s)
    {t₁ t₂ t₃ : ℤ} {lset : LabelSet} (hl : lset ∈ S) :
    Sound M S (next s (.mutes t₁ t₂ t₃ lset)) := by
  refine ⟨hs.wf, hs.carries, hs.indexed, fun lset' hl' id hid => ?_⟩
  by_cases heq : lset' = lset
  · subst heq
    have hentry := (Silencer.mutesAt_entry hs.wf s.cache t₁ t₂ t₃ lset').2 id
    obtain ⟨sil, hfound, rfl, -⟩ := hentry.mp hid
    exact fits_found hs hl' hfound
  · have hne : fingerprint lset' ≠ fingerprint lset := fun h => heq (hinj hl' hl h)
    simp only [next, Silencer.mutesAt_other s.silences s.cache t₁ t₂ t₃ hne] at hid
    exact hs.cached lset' hl' id hid

theorem sound_postGC (hs : Sound M S s) (fps : List Fingerprint) :
    Sound M S (next s (.postGC fps)) := by
  refine ⟨hs.wf, hs.carries, hs.indexed, fun lset hl id hid => ?_⟩
  simp only [next] at hid
  rcases Silencer.get_postGC s.cache fps (fingerprint lset) with h | h
  · rw [h] at hid
    exact hs.cached lset hl id hid
  · rw [h] at hid
    simp at hid

theorem sound_of_run (hinj : Set.InjOn fingerprint (S : Set LabelSet)) {retention : ℤ}
    {ops : List Op} (hrun : Run (Fires (Enabled M S) next) (init retention) ops s) :
    Sound M S s := by
  refine hrun.invariant (fun s op s' hs hstep => ?_) (sound_init retention)
  obtain ⟨hen, rfl⟩ := hstep
  cases op with
  | store op => exact sound_store hs hen
  | mutes t₁ t₂ t₃ lset => exact sound_mutes hinj hs hen.2
  | postGC fps => exact sound_postGC hs fps

/-- A silence is stored, matches the label set and is active. -/
def Silenced (s : Silences) (lset : LabelSet) (now : ℤ) (id : GoString) : Prop :=
  ∃ e, s.st.lookup id = some e ∧ e.silence.appliesTo lset = true ∧
    e.silence.getState now = .active

/-- The silencer is sound: a muted label set has a stored silence that matches it and
is active when the call classifies the silences; the marked IDs do not repeat and are
those of such silences; and without one no ID is marked. -/
theorem silencer_sound (hinj : Set.InjOn fingerprint (S : Set LabelSet)) {retention : ℤ}
    {ops : List Op} (hrun : Run (Fires (Enabled M S) next) (init retention) ops s)
    (t₁ t₂ t₃ : ℤ) {lset : LabelSet} (hl : lset ∈ S) :
    ((Silencer.mutesAt s.silences s.cache t₁ t₂ t₃ lset).mutes = true →
      ∃ id, Silenced s.silences lset t₃ id) ∧
    (Silencer.mutesAt s.silences s.cache t₁ t₂ t₃ lset).marked.Nodup ∧
    (∀ id ∈ (Silencer.mutesAt s.silences s.cache t₁ t₂ t₃ lset).marked,
      Silenced s.silences lset t₃ id) ∧
    ((Silencer.mutesAt s.silences s.cache t₁ t₂ t₃ lset).mutes = false →
      (Silencer.mutesAt s.silences s.cache t₁ t₂ t₃ lset).marked = []) := by
  have hs := sound_of_run hinj hrun
  have hsilenced : ∀ sil ∈ Silencer.found s.silences s.cache t₁ t₂ lset,
      sil.getState t₃ = .active → Silenced s.silences lset t₃ sil.id := by
    intro sil hsil hactive
    obtain ⟨e, he, rfl⟩ := Silences.lookup_of_getSilence (Silencer.stored_of_found hs.wf hsil)
    refine ⟨e, he, ?_, hactive⟩
    rw [Silence.appliesTo, hs.carries.lookup he]
    exact fits_found hs hl hsil
  obtain ⟨hnodup, hmarked⟩ := Silencer.marked_spec hs.wf s.cache t₁ t₂ t₃ lset
  refine ⟨fun hmutes => ?_, hnodup, fun id hid => ?_, fun hmutes => ?_⟩
  · obtain ⟨sil, hsil, hactive⟩ := (Silencer.mutesAt_iff hs.wf).mp hmutes
    exact ⟨sil.id, hsilenced sil hsil hactive⟩
  · obtain ⟨sil, hsil, rfl, hactive⟩ := (hmarked id).mp hid
    exact hsilenced sil hsil hactive
  · refine List.eq_nil_iff_forall_not_mem.mpr fun id hid => ?_
    obtain ⟨sil, hsil, -, hactive⟩ := (hmarked id).mp hid
    rw [← Bool.not_eq_true] at hmutes
    exact hmutes ((Silencer.mutesAt_iff hs.wf).mpr ⟨sil, hsil, hactive⟩)

end

section
attribute [local instance] noRegexp zeroProto fnvLabelHash

/-- A silence that was found once is found again by its cached ID, and marked. -/
theorem silencer_sound_cached :
    let ops : List Op := [.store (.merge 1
        (SilenceStore.carrying (SilenceStore.silenceFrom "x" 1 100 1) 100) [str "x"]),
      .mutes 5 5 6 SilencerRuns.oneLabel]
    let s := ops.foldl next (init 0)
    let r := Silencer.mutesAt s.silences s.cache 7 8 9 SilencerRuns.oneLabel
    r.mutes = true ∧ r.marked = [str "x"] ∧
      ∀ id ∈ r.marked, Silenced s.silences SilencerRuns.oneLabel 9 id := by
  intro ops s r
  have hrun : Run (Fires (Enabled (fun _ => SilencerRuns.oneMatcher) {SilencerRuns.oneLabel}) next)
      (init 0) ops s := Run.of_feasible (by decide +kernel)
  have hsound := silencer_sound (by simp) hrun 7 8 9 (Finset.mem_singleton_self _)
  exact ⟨by decide +kernel, by decide +kernel, hsound.2.2.1⟩

end

end Alertmanager.SilencerSoundness
