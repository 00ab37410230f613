import Alertmanager.StoreTwins

/-!
# A gossiped silence that does not compile

`Merge` stores a silence whose matchers do not compile and gives it a version,
but no entry in the matcher index. From then on a query by labels fails at it,
for every label set, as long as its state is asked for. A failed query finds
nothing, and `Mutes` records the version all the same, so the silences it should
have found are never looked for again. Two runs with the same operations are
compared, with and without the merge.
-/
namespace Alertmanager.UncompilableSilence

/-! ### The merge -/

section
variable [Regexp]

/-- A payload whose only effect is to add one silence that does not compile. -/
structure Adds (σ : Silences) (p : Payload) (order : List GoString) (now : ℤ) (e : MeshSilence)
    (st : GoMap GoString MeshSilence) : Prop where
  decoded : decodeState p = .ok st
  ranges : GoMap.Ranges st order
  mem : st.lookup e.silence.id = some e
  fresh : σ.st.lookup e.silence.id = none
  unexpired : now ≤ asTime e.expiresAt
  uncompilable : compileMatcherSets e.silence.matcherSets = none
  others : ∀ id e', st.lookup id = some e' → id ≠ e.silence.id →
    asTime e'.expiresAt < now ∨ ∃ prev, σ.st.lookup id = some prev ∧
      asTime e'.silence.updatedAt ≤ asTime prev.silence.updatedAt

/-- The store with the silence added. -/
def withSilence (σ : Silences) (e : MeshSilence) : Silences :=
  { σ with
    st := σ.st.insert e.silence.id ⟨e.silence.upgradeComments, e.expiresAt⟩
    version := σ.version + 1
    vi := σ.vi ++ [⟨e.silence.id, σ.version + 1⟩] }

variable {σ : Silences} {p : Payload} {order : List GoString} {now : ℤ} {e : MeshSilence}
  {st : GoMap GoString MeshSilence}

theorem mergeSilence_withSilence (h : Adds σ p order now e st) :
    (σ.mergeSilence e now).1 = withSilence σ e := by
  have hacc : Silences.Accepts σ e now := ⟨h.unexpired, by simp [h.fresh]⟩
  rw [mergeSilence_fst σ hacc, h.fresh]
  simp [Silences.indexSilence, withSilence, h.uncompilable]

/-- The other silences of the payload change nothing, before or after. -/
theorem mergeSilence_other (h : Adds σ p order now e st) {τ : Silences}
    (hτ : τ = σ ∨ τ = withSilence σ e) {id : GoString} {e' : MeshSilence}
    (he' : st.lookup id = some e') (hne : id ≠ e.silence.id) :
    (τ.mergeSilence e' now).1 = τ := by
  have hid := decodeState_id h.decoded id e' he'
  have hlook : τ.st.lookup id = σ.st.lookup id := by
    rcases hτ with rfl | rfl
    · rfl
    · exact Finmap.lookup_insert_of_ne _ hne
  rcases h.others id e' he' hne with hexp | ⟨prev, hprev, hle⟩
  · exact Silences.mergeSilence_eq_self e (Or.inl hexp)
  · refine Silences.mergeSilence_eq_self prev (Or.inr ⟨?_, hle⟩)
    rw [hid, hlook, hprev]

theorem mergeLoop_other (h : Adds σ p order now e st) {τ : Silences}
    (hτ : τ = σ ∨ τ = withSilence σ e) {ids : List GoString} (hids : e.silence.id ∉ ids) :
    (Silences.mergeLoop p st now ids τ).1 = τ := by
  induction ids with
  | nil => rfl
  | cons id ids ih =>
    rw [List.mem_cons, not_or] at hids
    simp only [Silences.mergeLoop]
    cases he' : st.lookup id with
    | none => exact ih hids.2
    | some e' =>
      simp only [mergeSilence_other h hτ he' (Ne.symm hids.1)]
      exact ih hids.2

theorem mergeLoop_adds (h : Adds σ p order now e st) {ids : List GoString} (hnodup : ids.Nodup)
    (hmem : e.silence.id ∈ ids) :
    (Silences.mergeLoop p st now ids σ).1 = withSilence σ e := by
  induction ids with
  | nil => simp at hmem
  | cons id ids ih =>
    rw [List.nodup_cons] at hnodup
    simp only [Silences.mergeLoop]
    by_cases hid : id = e.silence.id
    · rw [hid, h.mem]
      simp only [mergeSilence_withSilence h]
      exact mergeLoop_other h (Or.inr rfl) (hid ▸ hnodup.1)
    · have htail : e.silence.id ∈ ids := by
        rcases List.mem_cons.mp hmem with heq | hmem
        · exact absurd heq.symm hid
        · exact hmem
      cases he' : st.lookup id with
      | none => exact ih hnodup.2 htail
      | some e' =>
        simp only [mergeSilence_other h (Or.inl rfl) he' hid]
        exact ih hnodup.2 htail

/-- `Merge` of the payload adds the silence, whatever the visiting order. -/
theorem merge_eq (h : Adds σ p order now e st) :
    (σ.merge p now order).2.1 = withSilence σ e := by
  have hmem : e.silence.id ∈ order := (h.ranges.mem _).mpr (GoMap.mem_of_lookup h.mem)
  simp only [Silences.merge, h.decoded]
  exact mergeLoop_adds h h.ranges.nodup hmem

theorem beside_withSilence (hσ : σ.WellFormed) (h : Adds σ p order now e st) :
    Beside e.silence.id σ.version σ (withSilence σ e) where
  wf := hσ
  wf' := by
    rw [← mergeSilence_withSilence h]
    exact Silences.wellFormed_mergeSilence hσ e now
  retention := rfl
  others k hk := Finmap.lookup_insert_of_ne _ hk
  absent := h.fresh
  mi _ := rfl
  le := le_rfl
  version := rfl
  vi := by
    have hold : σ.vi.filter (fun sv => decide (sv.id ≠ e.silence.id)) = σ.vi := by
      rw [List.filter_eq_self]
      intro sv hsv
      obtain ⟨e₀, he₀⟩ := hσ.exists_stored hsv
      refine decide_eq_true fun hid => ?_
      rw [hid, h.fresh] at he₀
      cases he₀
    have hshift : σ.vi.map (fun sv => (⟨sv.id, shift σ.version sv.version⟩ : SilenceVersion)) =
        σ.vi := by
      conv_rhs => rw [← List.map_id σ.vi]
      refine List.map_congr_left fun sv hsv => ?_
      simp [shift, (hσ.bound sv hsv).2]
    rw [hshift, withSilence, List.filter_append, hold]
    simp

/-! ### The two runs -/

theorem grows_mergeLoop {τ : Silences} (h : Silences.Grows σ τ) (p : Payload)
    (st : GoMap GoString MeshSilence) (now : ℤ) (order : List GoString) :
    Silences.Grows σ (Silences.mergeLoop p st now order τ).1 := by
  induction order generalizing τ with
  | nil => exact h
  | cons k order ih =>
    simp only [Silences.mergeLoop]
    cases st.lookup k with
    | none => exact ih h
    | some e => exact ih (h.mergeSilence e now)

section
open SilencerRuns
variable [LabelHash] {id : GoString} {v : ℕ} {s s' : SilencerRuns.State}

/-- The cache entry of a label set. -/
def entryOf (s : SilencerRuns.State) (lset : LabelSet) : CacheEntry :=
  SilencerCache.get s.cache (fingerprint lset)

/-- The entry of the label set lists the ID, and the silence is active. -/
def Lists (s : SilencerRuns.State) (t : ℤ) (lset : LabelSet) (k : GoString) : Prop :=
  k ∈ (entryOf s lset).silenceIDs ∧ ∃ y ∈ s.silences.getSilence k, y.getState t = .active

/-- A silence newer than the entry is active and matches, and none makes the query fail. -/
def Finds (s : SilencerRuns.State) (t : ℤ) (lset : LabelSet) : Prop :=
  (∀ y ∈ s.silences.since (entryOf s lset).version,
    s.silences.blocks t Silencer.live y = false) ∧
  ∃ y ∈ s.silences.since (entryOf s lset).version,
    s.silences.hits t Silencer.live lset y = true ∧ y.getState t = .active

/-- An operation that the silence with the ID does not stand in the way of. A local
change is of another silence, and the limit on their number is not reached by just
this one; a message does not carry it; a `Mutes` call is spared, and if its entry
lists the silence while it is active, it lists or finds another that is. -/
def Clear (id : GoString) (s : SilencerRuns.State) : Op → Prop
  | .set _ env sil => sil.id ≠ id ∧ env.uuid ≠ some id ∧
      (id ∈ s.silences.st → env.maxSilences ≠ some (GoMap.len s.silences.st : ℤ))
  | .merge _ p _ => id ∉ decoded p
  | .mutes t lset =>
    Spares s.silences id (entryOf s lset).version t Silencer.live lset ∧
      (Lists s t lset id → Finds s t lset ∨
        ∃ k ∈ (entryOf s lset).silenceIDs, k ≠ id ∧ Lists s t lset k)
  | _ => True

instance (τ : Silences) (id : GoString) (w : ℕ) (t : ℤ) (states : List SilenceState)
    (lset : LabelSet) : Decidable (Spares τ id w t states lset) :=
  inferInstanceAs (Decidable (_ ∨ _ ∨ _))

instance (s : SilencerRuns.State) (t : ℤ) (lset : LabelSet) (k : GoString) :
    Decidable (Lists s t lset k) :=
  inferInstanceAs (Decidable (_ ∧ ∃ y ∈ s.silences.getSilence k, _))

instance (s : SilencerRuns.State) (t : ℤ) (lset : LabelSet) : Decidable (Finds s t lset) :=
  inferInstanceAs (Decidable ((∀ y ∈ _, _) ∧ ∃ y ∈ _, _ ∧ _))

instance (id : GoString) (s : SilencerRuns.State) : (op : Op) → Decidable (Clear id s op)
  | .set .. => inferInstanceAs (Decidable (_ ∧ _ ∧ _))
  | .merge _ p _ => inferInstanceAs (Decidable (id ∉ decoded p))
  | .mutes .. => inferInstanceAs (Decidable (_ ∧ (_ → _)))
  | .expire .. | .gc _ | .postGC .. => isTrue trivial

/-- What the states of the two runs have in common. -/
structure Twins (id : GoString) (v : ℕ) (s s' : SilencerRuns.State) : Prop where
  stores : Beside id v s.silences s'.silences
  ids : ∀ fp k, k ≠ id → (k ∈ (SilencerCache.get s'.cache fp).silenceIDs ↔
    k ∈ (SilencerCache.get s.cache fp).silenceIDs)
  versions : ∀ fp,
    SameSince v (SilencerCache.get s.cache fp).version (SilencerCache.get s'.cache fp).version

/-- The silences that the two queries of a `Mutes` call return. -/
def visited (s : SilencerRuns.State) (t : ℤ) (lset : LabelSet) : List Silence :=
  Silencer.queryOld s.silences (entryOf s lset) t ++
    (Silencer.queryNew s.silences (entryOf s lset) t lset).1

/-- A call that is spared finds the same silences, but for the one with the ID. -/
theorem Twins.mem_visited (h : Twins id v s s') {t : ℤ} {lset : LabelSet}
    (hspares : Spares s'.silences id (entryOf s' lset).version t Silencer.live lset)
    (x : Silence) :
    x ∈ visited s t lset ↔ x ∈ visited s' t lset ∧ x.id ≠ id := by
  have hnew : found s'.silences (entryOf s' lset).version t Silencer.live lset =
      found s.silences (entryOf s lset).version t Silencer.live lset :=
    (found_eq_iff h.stores (h.versions (fingerprint lset)) t Silencer.live lset).mpr hspares
  have hne : ∀ y, s.silences.getSilence y.id = some y → y.id ≠ id := by
    rintro y hy rfl
    simp [Silences.getSilence, h.stores.absent] at hy
  have hstored : x ∈ visited s t lset → x.id ≠ id := fun hx =>
    hne x (Silencer.stored_of_found h.stores.wf hx)
  unfold visited at hstored ⊢
  simp only [List.mem_append, Silencer.mem_queryOld, queryNew_eq_found h.stores.wf,
    queryNew_eq_found h.stores.wf', hnew] at hstored ⊢
  constructor
  · intro hx
    refine ⟨hx.imp ?_ fun hx => hx, hstored hx⟩
    rintro ⟨k, hk, hget, hlive⟩
    have hkid : k ≠ id := Silencer.getSilence_id h.stores.wf hget ▸ hstored hx
    exact ⟨k, (h.ids _ k hkid).mpr hk, (h.stores.getSilence hkid).trans hget, hlive⟩
  · rintro ⟨hx, hid⟩
    refine hx.imp ?_ fun hx => hx
    rintro ⟨k, hk, hget, hlive⟩
    have hkid : k ≠ id := Silencer.getSilence_id h.stores.wf' hget ▸ hid
    exact ⟨k, (h.ids _ k hkid).mp hk, (h.stores.getSilence hkid).symm.trans hget, hlive⟩

/-- The silence is only among those that the entry lists. -/
theorem Twins.lists_of_visited (h : Twins id v s s') {t : ℤ} {lset : LabelSet} {x : Silence}
    (hx : x ∈ visited s' t lset) (hid : x.id = id) (hactive : x.getState t = .active) :
    Lists s' t lset id := by
  rcases List.mem_append.mp hx with hx | hx
  · obtain ⟨k, hk, hget, -⟩ := Silencer.mem_queryOld.mp hx
    obtain rfl : k = id := (Silencer.getSilence_id h.stores.wf' hget).symm.trans hid
    exact ⟨hk, x, hget, hactive⟩
  · rw [queryNew_eq_found h.stores.wf', ← filter_found h.stores] at hx
    exact absurd hid (of_decide_eq_true (List.mem_filter.mp hx).2)

theorem Twins.visited_of_lists (h : Twins id v s s') {t : ℤ} {lset : LabelSet}
    (hother : Finds s' t lset ∨
      ∃ k ∈ (entryOf s' lset).silenceIDs, k ≠ id ∧ Lists s' t lset k) :
    ∃ y ∈ visited s' t lset, y.id ≠ id ∧ y.getState t = .active := by
  rcases hother with ⟨hblocks, y, hy, hhits, hactive⟩ | ⟨k, hk, hkid, -, y, hget, hactive⟩
  · have hfound : y ∈ found s'.silences (entryOf s' lset).version t Silencer.live lset := by
      rw [found, if_neg (by simpa using hblocks)]
      exact List.mem_filter.mpr ⟨hy, hhits⟩
    have hother := filter_found h.stores (entryOf s' lset).version t Silencer.live lset
    rw [← hother] at hfound
    refine ⟨y, List.mem_append_right _ ?_, of_decide_eq_true (List.mem_filter.mp hfound).2, hactive⟩
    rw [queryNew_eq_found h.stores.wf']
    exact List.mem_of_mem_filter hfound
  · refine ⟨y, List.mem_append_left _ (Silencer.mem_queryOld.mpr ⟨k, hk, hget, ?_⟩), ?_, hactive⟩
    · simp [hactive]
    · rw [Silencer.getSilence_id h.stores.wf' hget]
      exact hkid

/-- A clear call gets the same answer in both runs. -/
theorem Twins.mutes_eq (h : Twins id v s s') {t : ℤ} {lset : LabelSet}
    (hclear : Clear id s' (.mutes t lset)) :
    (Silencer.mutes s'.silences s'.cache t lset).mutes =
      (Silencer.mutes s.silences s.cache t lset).mutes := by
  obtain ⟨hspares, hlisted⟩ := hclear
  have hmem := h.mem_visited hspares
  rw [Bool.eq_iff_iff, Silencer.mutes, Silencer.mutes, Silencer.mutesAt_iff h.stores.wf',
    Silencer.mutesAt_iff h.stores.wf]
  constructor
  · rintro ⟨x, hx, hactive⟩
    by_cases hid : x.id = id
    · obtain ⟨y, hy, hyid, hyactive⟩ :=
        h.visited_of_lists (hlisted (h.lists_of_visited hx hid hactive))
      exact ⟨y, (hmem y).mpr ⟨hy, hyid⟩, hyactive⟩
    · exact ⟨x, (hmem x).mpr ⟨hx, hid⟩, hactive⟩
  · rintro ⟨x, hx, hactive⟩
    exact ⟨x, ((hmem x).mp hx).1, hactive⟩

theorem twins_mutes (h : Twins id v s s') {t : ℤ} {lset : LabelSet}
    (hclear : Clear id s' (.mutes t lset)) [Proto] :
    Twins id v (next s (.mutes t lset)) (next s' (.mutes t lset)) := by
  have hmem := h.mem_visited hclear.1
  obtain ⟨hversion, hids⟩ := Silencer.mutesAt_entry h.stores.wf s.cache t t t lset
  obtain ⟨hversion', hids'⟩ := Silencer.mutesAt_entry h.stores.wf' s'.cache t t t lset
  refine ⟨h.stores, fun fp k hk => ?_, fun fp => ?_⟩
  · by_cases hfp : fp = fingerprint lset
    · subst hfp
      refine (hids' k).trans (Iff.trans ?_ (hids k).symm)
      constructor
      · rintro ⟨x, hx, rfl, hlive⟩
        exact ⟨x, (hmem x).mpr ⟨hx, hk⟩, rfl, hlive⟩
      · rintro ⟨x, hx, rfl, hlive⟩
        exact ⟨x, ((hmem x).mp hx).1, rfl, hlive⟩
    · simp only [next, Silencer.mutes, Silencer.mutesAt_other _ _ _ _ _ hfp]
      exact h.ids fp k hk
  · by_cases hfp : fp = fingerprint lset
    · subst hfp
      simp only [next, Silencer.mutes, hversion, hversion', h.stores.version]
      exact sameSince_version h.stores.le
    · simp only [next, Silencer.mutes, Silencer.mutesAt_other _ _ _ _ _ hfp]
      exact h.versions fp

/-- A clear operation does the same in both runs. -/
theorem twins_next [Proto] (h : Twins id v s s') {op : Op} (hclear : Clear id s' op) :
    Twins id v (next s op) (next s' op) := by
  cases op with
  | set now env sil =>
    exact ⟨beside_set h.stores hclear.1 hclear.2.1 hclear.2.2, h.ids, h.versions⟩
  | expire now k =>
    refine ⟨?_, h.ids, h.versions⟩
    by_cases hk : k = id
    · rw [hk]
      exact beside_expire_self h.stores now
    · exact (beside_expire h.stores hk now).2
  | gc now => exact ⟨beside_gc h.stores now, h.ids, h.versions⟩
  | merge now p order => exact ⟨beside_merge h.stores hclear now order, h.ids, h.versions⟩
  | mutes t lset => exact twins_mutes h hclear
  | postGC now fps =>
    refine ⟨h.stores, fun fp k hk => ?_, fun fp => ?_⟩
    · simp only [next, Silencer.get_postGC_eq]
      split_ifs
      · exact Iff.rfl
      · exact h.ids fp k hk
    · simp only [next, Silencer.get_postGC_eq]
      split_ifs
      · exact sameSince_self (Nat.zero_le v)
      · exact h.versions fp

/-! ### From the merge on -/

theorem version_le_next [Proto] (hs : s.silences.WellFormed) (op : Op) :
    s.silences.version ≤ (next s op).silences.version := by
  cases op with
  | set now env sil => exact (Silences.set_puts hs env now sil).grows.version
  | expire now id => exact (Silences.expire_puts hs s.silences none [] id now).grows.version
  | gc now => exact (Silences.gc_collected hs now).version.ge
  | merge now p order =>
    simp only [next, Silences.merge]
    cases decodeState p with
    | error err => exact le_rfl
    | ok st => exact (grows_mergeLoop (.refl s.silences) p st now order).version
  | mutes t lset => exact le_rfl
  | postGC now fps => exact le_rfl

/-- The indexes mirror the state, and no cache entry is ahead of the store. -/
structure Sane (s : SilencerRuns.State) : Prop where
  wf : s.silences.WellFormed
  cached : ∀ fp, (SilencerCache.get s.cache fp).version ≤ s.silences.version

theorem sane_next [Proto] (hs : Sane s) (op : Op) : Sane (next s op) := by
  have hle := version_le_next hs.wf op
  refine ⟨wellFormed_next hs.wf op, fun fp => ?_⟩
  cases op with
  | set now env sil => exact (hs.cached fp).trans hle
  | expire now id => exact (hs.cached fp).trans hle
  | gc now => exact (hs.cached fp).trans hle
  | merge now p order => exact (hs.cached fp).trans hle
  | mutes t lset =>
    by_cases hfp : fp = fingerprint lset
    · subst hfp
      exact (Silencer.mutesAt_entry hs.wf s.cache t t t lset).1.le
    · simp only [next, Silencer.mutes, Silencer.mutesAt_other _ _ _ _ _ hfp]
      exact hs.cached fp
  | postGC now fps =>
    simp only [next, Silencer.get_postGC_eq]
    split_ifs
    · exact Nat.zero_le _
    · exact hs.cached fp

theorem sane_run [Proto] (retention t : ℤ) (ops : List Op) :
    Sane (ops.foldl next (init retention t)) := by
  induction ops using List.reverseRecOn with
  | nil => exact ⟨Silences.wellFormed_new retention, fun fp => Nat.zero_le _⟩
  | append_singleton ops op ih =>
    rw [List.foldl_append]
    exact sane_next ih op

theorem twins_run [Proto] {s₁ : State} {ops : List Op} (h : Twins id v s s₁)
    (hrun : Run (Fires (Clear id) next) s₁ ops s') : Twins id v (ops.foldl next s) s' := by
  induction hrun generalizing s with
  | nil => exact h
  | cons hop _ ih =>
    obtain ⟨hclear, rfl⟩ := hop
    exact ih (twins_next h hclear)

theorem twins_merge [Proto] (hs : Sane s) (h : Adds s.silences p order now e st) :
    Twins e.silence.id s.silences.version s (next s (.merge now p order)) := by
  refine ⟨?_, fun fp k _ => Iff.rfl, fun fp => sameSince_self (hs.cached fp)⟩
  simp only [next, merge_eq h]
  exact beside_withSilence hs.wf h

/-- After a message that adds one silence that does not compile, a run of clear
operations is as if the message had not come: a clear `Mutes` call gets the answer that
it gets without the merge, and a query by states and labels finds the same silences
exactly when the silence spares it. -/
theorem unaffected_of_clear [Proto] {retention t₀ : ℤ} {before after : List Op}
    (h : Adds (before.foldl next (init retention t₀)).silences p order now e st)
    (hrun : Run (Fires (Clear e.silence.id) next)
      (next (before.foldl next (init retention t₀)) (.merge now p order)) after s') :
    let s := (before ++ after).foldl next (init retention t₀)
    (∀ t lset, Clear e.silence.id s' (.mutes t lset) →
      (Silencer.mutes s'.silences s'.cache t lset).mutes =
        (Silencer.mutes s.silences s.cache t lset).mutes) ∧
    ∀ t states lset,
      ((s'.silences.query [.state states, .matches lset] t).1.filter
          (fun x => decide (x.id ≠ e.silence.id)) =
        (s.silences.query [.state states, .matches lset] t).1 ↔
          Spares s'.silences e.silence.id 0 t states lset) := by
  intro s
  have hsane := sane_run retention t₀ before
  have htwins : Twins e.silence.id
      (before.foldl next (init retention t₀)).silences.version s s' := by
    rw [show s = _ from List.foldl_append]
    exact twins_run (twins_merge hsane h) hrun
  refine ⟨fun t lset => htwins.mutes_eq, fun t states lset => ?_⟩
  rw [Silences.query_all htwins.stores.wf', Silences.query_all htwins.stores.wf]
  have hsame := found_eq_iff htwins.stores (sameSince_self (Nat.zero_le _)) t states lset
  rwa [← filter_found htwins.stores] at hsame

end

end

section
open SilencerRuns
attribute [local instance] noRegexp zeroProto fnvLabelHash

/-- A matcher of a type this version does not know. -/
def unknownMatcher : List Silencepb.MatcherSet := [[⟨.unknown 9, str "b", str "2"⟩]]

/-- The message with a silence of that kind. -/
def unknownSilence (now : ℤ) : Op := .merge now (gossiped "y" unknownMatcher 100 1) [str "y"]

/-- The message with a silence for `a="1"`. -/
def knownSilence (now : ℤ) : Op := .merge now (gossiped "x" oneMatcher 100 1) [str "x"]

/-- A silence is active and applied until an unrelated silence arrives that does not
compile; then neither the first nor the second call applies it. -/
theorem unknownMatcher_unmutes :
    let s := next (init 0 0) (knownSilence 10)
    let s' := next s (unknownSilence 20)
    let muted := fun (s : SilencerRuns.State) t =>
      (Silencer.mutes s.silences s.cache t oneLabel).mutes
    let queried := fun (s : SilencerRuns.State) =>
      (s.silences.query [.state Silencer.live, .matches oneLabel] 30).1.map Silence.id
    compileMatcherSets unknownMatcher = none ∧
    muted s 30 = true ∧ muted s' 30 = false ∧
    muted (next s (.mutes 30 oneLabel)) 40 = true ∧
    muted (next s' (.mutes 30 oneLabel)) 40 = false ∧
    queried s = [str "x"] ∧ queried s' = [] := by
  decide +kernel

/-- Where a call has been made since the silence of the unknown kind came, a silence
that comes later is found as without it. -/
theorem unaffected_of_later :
    let after : List Op := [.mutes 25 oneLabel, knownSilence 30]
    let s := after.foldl next (init 0 0)
    let s' := after.foldl next (next (init 0 0) (unknownSilence 20))
    (Silencer.mutes s'.silences s'.cache 40 oneLabel).mutes =
      (Silencer.mutes s.silences s.cache 40 oneLabel).mutes ∧
    (Silencer.mutes s.silences s.cache 40 oneLabel).mutes = true := by
  intro after s s'
  let e : MeshSilence := ⟨silenceOf "y" unknownMatcher 100 1, some 1000⟩
  have hadds : Adds (([] : List Op).foldl next (init 0 0)).silences
      (gossiped "y" unknownMatcher 100 1) [str "y"] 20 e ((∅ : GoMap _ _).insert (str "y") e) :=
    { decoded := rfl
      ranges := by decide +kernel
      mem := by decide +kernel
      fresh := by decide +kernel
      unexpired := by decide +kernel
      uncompilable := rfl
      others := by
        intro id e' he' hne
        have hne' : id ≠ str "y" := hne
        rw [GoMap.lookup_insert_eq, if_neg hne'] at he'
        simp at he' }
  have hrun : Run (Fires (Clear (str "y")) next) (next (init 0 0) (unknownSilence 20)) after s' :=
    Run.of_feasible (by decide +kernel)
  exact ⟨(unaffected_of_clear hadds hrun).1 40 oneLabel (by decide +kernel), by decide +kernel⟩

end

end Alertmanager.UncompilableSilence
