import Alertmanager.SilencerRuns

/-!
# A silence store beside the same store without one silence

Two stores that go through the same operations, of which the second has one more
silence that is not in its matcher index. The silences added after it have versions
that are greater by one. Every operation on other silences keeps the two stores in
this relation, and a query by labels gives both the same result exactly when the
silence does not make it fail.
-/
namespace Alertmanager.UncompilableSilence

/-! ### Versions -/

/-- The version that a later silence has where one more was added after `v`. -/
def shift (v w : ℕ) : ℕ := if w ≤ v then w else w + 1

/-- Versions after which the two stores have the same silences. -/
def SameSince (v w w' : ℕ) : Prop := ∀ u, w < u ↔ w' < shift v u

theorem sameSince_self {v w : ℕ} (h : w ≤ v) : SameSince v w w := by
  intro u
  unfold shift
  split_ifs <;> omega

theorem sameSince_version {v w : ℕ} (h : v ≤ w) : SameSince v w (w + 1) := by
  intro u
  unfold shift
  split_ifs <;> omega

section
variable [Regexp]

/-! ### A store beside the same store without the silence -/

/-- The second store is the first one and a silence that is not in the matcher
index, added after version `v`, unless a collection has removed it. -/
structure Beside (id : GoString) (v : ℕ) (τ τ' : Silences) : Prop where
  wf : τ.WellFormed
  wf' : τ'.WellFormed
  retention : τ'.retention = τ.retention
  others : ∀ k, k ≠ id → τ'.st.lookup k = τ.st.lookup k
  absent : τ.st.lookup id = none
  mi : ∀ k, τ'.mi.lookup k = τ.mi.lookup k
  le : v ≤ τ.version
  version : τ'.version = τ.version + 1
  vi : τ'.vi.filter (fun sv => decide (sv.id ≠ id)) =
    τ.vi.map fun sv => ⟨sv.id, shift v sv.version⟩

section
variable {id : GoString} {v : ℕ} {τ τ' : Silences}

theorem Beside.getSilence (h : Beside id v τ τ') {k : GoString} (hk : k ≠ id) :
    τ'.getSilence k = τ.getSilence k := by
  simp only [Silences.getSilence, h.others k hk]

theorem Beside.toMeshSilence (h : Beside id v τ τ') (sil : Silence) :
    τ'.toMeshSilence sil = τ.toMeshSilence sil := by
  rw [Silences.toMeshSilence, Silences.toMeshSilence, h.retention]

theorem Beside.accepts_iff (h : Beside id v τ τ') {m : MeshSilence} (hm : m.silence.id ≠ id)
    (now : ℤ) : Silences.Accepts τ' m now ↔ Silences.Accepts τ m now := by
  simp only [Silences.Accepts, h.others _ hm]

theorem Beside.mem_iff (h : Beside id v τ τ') {k : GoString} (hk : k ≠ id) :
    k ∈ τ'.st ↔ k ∈ τ.st := by
  rw [Finmap.mem_iff, Finmap.mem_iff, h.others k hk]

/-- The silence counts as one more while it is stored. -/
theorem Beside.len_eq (h : Beside id v τ τ') :
    GoMap.len τ'.st = GoMap.len τ.st + if id ∈ τ'.st then 1 else 0 := by
  have habsent : id ∉ τ.st.keys := fun hmem => Finmap.lookup_eq_none.mp h.absent
    (Finmap.mem_keys.mp hmem)
  have hkeys : τ'.st.keys = if id ∈ τ'.st then insert id τ.st.keys else τ.st.keys := by
    ext k
    by_cases hk : k = id
    · subst hk
      split_ifs with hmem
      · simp [Finmap.mem_keys, hmem]
      · simp [Finmap.mem_keys, hmem, habsent]
    · split_ifs
      · simp [Finmap.mem_keys, h.mem_iff hk, hk]
      · simp [Finmap.mem_keys, h.mem_iff hk]
  unfold GoMap.len
  rw [hkeys]
  split_ifs
  · exact Finset.card_insert_of_notMem habsent
  · rfl

/-- The limit on their number is reached in both stores or in neither. -/
theorem Beside.checkCountLimit (h : Beside id v τ τ') {env : Silences.SetEnv}
    (hcount : id ∈ τ'.st → env.maxSilences ≠ some (GoMap.len τ'.st : ℤ)) :
    (τ'.checkCountLimit env).isSome = (τ.checkCountLimit env).isSome := by
  have hlen := h.len_eq
  unfold Silences.checkCountLimit
  cases hmax : env.maxSilences with
  | none => rfl
  | some m =>
    have hne : id ∈ τ'.st → m ≠ (GoMap.len τ'.st : ℤ) := fun hmem heq =>
      hcount hmem (hmax.trans (congrArg some heq))
    have hiff : (0 < m ∧ m < (GoMap.len τ'.st : ℤ) + 1) ↔
        (0 < m ∧ m < (GoMap.len τ.st : ℤ) + 1) := by
      split_ifs at hlen with hmem
      · have := hne hmem
        omega
      · omega
    simp only [hiff]
    split_ifs <;> rfl

theorem mergeSilence_fst (s : Silences) {m : MeshSilence} {now : ℤ}
    (h : Silences.Accepts s m now) :
    (s.mergeSilence m now).1 =
      let s' := { s with st := s.st.insert m.silence.id ⟨m.silence.upgradeComments, m.expiresAt⟩ }
      if (s.st.lookup m.silence.id).isNone then s'.indexSilence m.silence.upgradeComments
      else s' := by
  have hexp : ¬ asTime m.expiresAt < now := not_lt.mpr h.1
  have hacc : LastWriter.accepts MeshSilence.stamp s.st m.silence.id
      ⟨m.silence.upgradeComments, m.expiresAt⟩ = true :=
    LastWriter.accepts_iff.mpr fun prev hprev => by
      simpa [MeshSilence.stamp] using h.2 prev hprev
  simp only [Silences.mergeSilence, stateMerge_of_live hexp, hacc, if_true,
    MeshSilence.upgraded, if_neg hexp]

theorem beside_mergeSilence (h : Beside id v τ τ') {m : MeshSilence} (hm : m.silence.id ≠ id)
    (now : ℤ) : Beside id v (τ.mergeSilence m now).1 (τ'.mergeSilence m now).1 := by
  have hwf := Silences.wellFormed_mergeSilence h.wf m now
  have hwf' := Silences.wellFormed_mergeSilence h.wf' m now
  by_cases hacc : Silences.Accepts τ m now
  · have hacc' := (h.accepts_iff hm now).mpr hacc
    rw [mergeSilence_fst τ hacc] at hwf ⊢
    rw [mergeSilence_fst τ' hacc', h.others _ hm] at hwf' ⊢
    have hothers : ∀ k, k ≠ id →
        (τ'.st.insert m.silence.id ⟨m.silence.upgradeComments, m.expiresAt⟩).lookup k =
          (τ.st.insert m.silence.id ⟨m.silence.upgradeComments, m.expiresAt⟩).lookup k := by
      intro k hk
      rw [GoMap.lookup_insert_eq, GoMap.lookup_insert_eq, h.others k hk]
    have habsent : (τ.st.insert m.silence.id
        ⟨m.silence.upgradeComments, m.expiresAt⟩).lookup id = none := by
      rw [Finmap.lookup_insert_of_ne _ (Ne.symm hm), h.absent]
    dsimp only at hwf hwf' ⊢
    split_ifs at hwf hwf' ⊢ with hnew
    · have hle := h.le
      refine ⟨hwf, hwf', h.retention, hothers, habsent, fun k => ?_, hle.trans (Nat.le_succ _),
        congrArg (· + 1) h.version, ?_⟩
      · simp only [Silences.indexSilence]
        cases compileMatcherSets m.silence.upgradeComments.matcherSets with
        | none => exact h.mi k
        | some ms => simp only [GoMap.lookup_insert_eq, h.mi k]
      · simp only [Silences.indexSilence, List.filter_append, h.vi, List.map_append, h.version]
        simp [hm, shift, show ¬ τ.version + 1 ≤ v by omega]
    · exact ⟨hwf, hwf', h.retention, hothers, habsent, h.mi, h.le, h.version, h.vi⟩
  · rw [Silences.mergeSilence_of_not_accepts hacc,
      Silences.mergeSilence_of_not_accepts fun h' => hacc ((h.accepts_iff hm now).mp h')]
    exact h

/-- A new version of the silence itself leaves the other store alone. -/
theorem beside_mergeSilence_self (h : Beside id v τ τ') {m : MeshSilence} (hm : m.silence.id = id)
    (hmem : id ∈ τ'.st) (now : ℤ) : Beside id v τ (τ'.mergeSilence m now).1 := by
  have hwf' := Silences.wellFormed_mergeSilence h.wf' m now
  by_cases hacc : Silences.Accepts τ' m now
  · obtain ⟨prev, hprev⟩ := Finmap.mem_iff.mp hmem
    rw [mergeSilence_fst τ' hacc, hm, hprev] at hwf' ⊢
    exact ⟨h.wf, hwf', h.retention,
      fun k hk => (Finmap.lookup_insert_of_ne _ hk).trans (h.others k hk), h.absent, h.mi, h.le,
      h.version, h.vi⟩
  · rw [Silences.mergeSilence_of_not_accepts hacc]
    exact h

/-! ### The operations on both stores -/

section
variable [Proto]

theorem beside_setSilence {α : Type*} (h : Beside id v τ τ') {m : MeshSilence}
    (hm : m.silence.id ≠ id) (now : ℤ) {f : SilenceError → α} {g : Silences × List Payload → α}
    {f' : SilenceError → α} {g' : Silences × List Payload → α} {R : α → α → Prop}
    (herr : ∀ e, R (f e) (f' e)) (hok : ∀ r r', Beside id v r.1 r'.1 → R (g r) (g' r')) :
    R (match τ.setSilence m now with | .error e => f e | .ok r => g r)
      (match τ'.setSilence m now with | .error e => f' e | .ok r => g' r) := by
  unfold Silences.setSilence
  cases m.marshal with
  | none => exact herr _
  | some b => exact hok _ _ (beside_mergeSilence h hm now)

theorem beside_expire (h : Beside id v τ τ') {k : GoString} (hk : k ≠ id) (now : ℤ) :
    (τ'.expire k now).1 = (τ.expire k now).1 ∧
      Beside id v (τ.expire k now).2.1 (τ'.expire k now).2.1 := by
  unfold Silences.expire
  rw [h.getSilence hk]
  cases hget : τ.getSilence k with
  | none => exact ⟨rfl, h⟩
  | some sil =>
    simp only [h.toMeshSilence]
    split_ifs with hexp
    · exact ⟨rfl, h⟩
    · have hid : sil.id ≠ id := Silencer.getSilence_id h.wf hget ▸ hk
      exact beside_setSilence (m := τ.toMeshSilence (Silences.expiredVersion sil now))
        (R := fun (a b : Option SilenceError × Silences × List Payload) =>
          b.1 = a.1 ∧ Beside id v a.2.1 b.2.1) h hid now (fun _ => ⟨rfl, h⟩)
        fun _ _ hr => ⟨rfl, hr⟩

theorem beside_expire_self (h : Beside id v τ τ') (now : ℤ) :
    Beside id v (τ.expire id now).2.1 (τ'.expire id now).2.1 := by
  have habsent : τ.getSilence id = none := by simp [Silences.getSilence, h.absent]
  have hplain : (τ.expire id now).2.1 = τ := by simp [Silences.expire, habsent]
  rw [hplain]
  have hout := Silences.expire_outcome τ' id now
  generalize τ'.expire id now = r at hout
  cases hout with
  | notFound hnone => exact h
  | already prev hprev hexp => exact h
  | unmarshallable prev hprev hlive hm => exact h
  | offered prev hprev hlive b hm =>
    obtain ⟨e, he, rfl⟩ := Silences.lookup_of_getSilence hprev
    refine beside_mergeSilence_self h (m := τ'.retired e.silence now) ?_
      (GoMap.mem_of_lookup he) now
    exact h.wf'.ident id e he

theorem beside_expirePrevious (h : Beside id v τ τ') {prev : Option Silence}
    (hprev : ∀ p ∈ prev, p.id ≠ id) (now : ℤ) :
    (τ'.expirePrevious prev now).1 = (τ.expirePrevious prev now).1 ∧
      Beside id v (τ.expirePrevious prev now).2.1 (τ'.expirePrevious prev now).2.1 := by
  cases prev with
  | none => exact ⟨rfl, h⟩
  | some p =>
    have hexpire := beside_expire h (hprev p rfl) now
    simp only [Silences.expirePrevious]
    split_ifs with hexp
    · exact ⟨rfl, h⟩
    · revert hexpire
      rcases τ.expire p.id now with ⟨_ | err, r⟩ <;>
        rcases τ'.expire p.id now with ⟨_ | err', r'⟩
      · exact fun hr => ⟨rfl, hr.2⟩
      · exact fun hr => absurd hr.1 (by simp)
      · exact fun hr => absurd hr.1 (by simp)
      · rintro ⟨herr, hr⟩
        exact ⟨by rw [Option.some.inj herr], hr⟩

/-- Two calls of `Set` leave stores in the relation. -/
def SetAlike (id : GoString) (v : ℕ) (r r' : Silences.SetResult) : Prop :=
  Beside id v r.silences r'.silences

theorem beside_setCreate (h : Beside id v τ τ') {env : Silences.SetEnv} {now : ℤ}
    {prev : Option Silence} {sil : Silence} (hprev : ∀ p ∈ prev, p.id ≠ id)
    (huuid : env.uuid ≠ some id)
    (hcount : id ∈ τ'.st → env.maxSilences ≠ some (GoMap.len τ'.st : ℤ)) :
    SetAlike id v (τ.setCreate env now prev sil) (τ'.setCreate env now prev sil) := by
  have hlimit := h.checkCountLimit hcount
  have hexpire := beside_expirePrevious h hprev now
  unfold Silences.setCreate
  revert hlimit
  rcases τ.checkCountLimit env with _ | err <;> rcases τ'.checkCountLimit env with _ | err'
  · intro _
    cases hu : env.uuid with
    | none => exact h
    | some uid =>
      have huid : (Silences.created sil uid now).id ≠ id := by
        rintro rfl
        exact huuid hu
      simp only [h.toMeshSilence]
      cases Silences.checkSizeLimits env (τ.toMeshSilence (Silences.created sil uid now)) with
      | some err => exact h
      | none =>
        revert hexpire
        rcases τ.expirePrevious prev now with ⟨_ | err, r⟩ <;>
          rcases τ'.expirePrevious prev now with ⟨_ | err', r'⟩
        · rintro ⟨-, hr⟩
          exact beside_setSilence (R := SetAlike id v) hr huid now (fun _ => hr)
            fun _ _ hrr => hrr
        · exact fun hr => absurd hr.1 (by simp)
        · exact fun hr => absurd hr.1 (by simp)
        · exact fun hr => hr.2
  · exact fun hne => absurd hne (by simp)
  · exact fun hne => absurd hne (by simp)
  · exact fun _ => h

theorem beside_set (h : Beside id v τ τ') {env : Silences.SetEnv} {now : ℤ} {sil : Silence}
    (hid : sil.id ≠ id) (huuid : env.uuid ≠ some id)
    (hcount : id ∈ τ'.st → env.maxSilences ≠ some (GoMap.len τ'.st : ℤ)) :
    SetAlike id v (τ.set env now sil) (τ'.set env now sil) := by
  have hnorm : (Silences.normalized sil now).id ≠ id := by simpa [Silences.normalized] using hid
  simp only [Silences.set, h.getSilence hnorm]
  cases validateSilence env.scheme (Silences.normalized sil now) with
  | some err => exact h
  | none =>
    cases hget : τ.getSilence (Silences.normalized sil now).id with
    | none =>
      dsimp only
      split_ifs
      · exact h
      · exact beside_setCreate h (fun p hp => by cases hp) huuid hcount
    | some prev =>
      dsimp only
      split_ifs
      · simp only [Silences.setUpdate, h.toMeshSilence]
        cases Silences.checkSizeLimits env _ with
        | some err => exact h
        | none =>
          exact beside_setSilence (R := SetAlike id v) h hnorm now (fun _ => h)
            fun _ _ hr => hr
      · refine beside_setCreate h (fun p hp => ?_) huuid hcount
        obtain rfl := Option.some.inj hp
        rw [Silencer.getSilence_id h.wf hget]
        exact hnorm

end

/-- The silence is not in the matcher index of either store. -/
theorem Beside.not_indexed (h : Beside id v τ τ') : τ.mi.lookup id = none := by
  cases hmi : τ.mi.lookup id with
  | none => rfl
  | some ms => exact absurd (h.wf.indexed id ms hmi) (Finmap.lookup_eq_none.mp h.absent)

theorem beside_gc (h : Beside id v τ τ') (now : ℤ) : Beside id v (τ.gc now).1 (τ'.gc now).1 := by
  have hc := Silences.gc_collected h.wf now
  have hc' := Silences.gc_collected h.wf' now
  refine ⟨Silences.wellFormed_collected h.wf hc, Silences.wellFormed_collected h.wf' hc', ?_,
    fun k hk => ?_, ?_, fun k => ?_, ?_, ?_, ?_⟩
  · rw [hc'.retention, hc.retention, h.retention]
  · rw [hc'.st, hc.st, h.others k hk]
  · rw [hc.st, h.absent]
    rfl
  · rw [hc'.mi, hc.mi, h.mi]
    by_cases hk : k = id
    · subst hk
      simp [h.not_indexed]
    · rw [h.others k hk]
  · rw [hc.version]
    exact h.le
  · rw [hc'.version, hc.version, h.version]
  · rw [hc'.vi, hc.vi, List.filter_comm]
    have hkeep : (τ'.vi.filter fun sv => decide (sv.id ≠ id)).filter
        (fun sv => (τ'.st.lookup sv.id).any fun e => !Silences.collectable e now) =
        (τ'.vi.filter fun sv => decide (sv.id ≠ id)).filter
          (fun sv => (τ.st.lookup sv.id).any fun e => !Silences.collectable e now) := by
      refine List.filter_congr fun sv hsv => ?_
      rw [h.others sv.id (by simpa using (List.mem_filter.mp hsv).2)]
    rw [hkeep, h.vi, List.filter_map]
    rfl

theorem beside_mergeLoop (h : Beside id v τ τ') (p : Payload) {st : GoMap GoString MeshSilence}
    (hst : ∀ k e, st.lookup k = some e → e.silence.id ≠ id) (now : ℤ) (order : List GoString) :
    Beside id v (Silences.mergeLoop p st now order τ).1
      (Silences.mergeLoop p st now order τ').1 := by
  induction order generalizing τ τ' with
  | nil => exact h
  | cons k order ih =>
    simp only [Silences.mergeLoop]
    cases he : st.lookup k with
    | none => exact ih h
    | some e => exact ih (beside_mergeSilence h (hst k e he) now)

theorem beside_merge (h : Beside id v τ τ') {p : Payload} (hp : id ∉ SilencerRuns.decoded p)
    (now : ℤ) (order : List GoString) :
    Beside id v (τ.merge p now order).2.1 (τ'.merge p now order).2.1 := by
  unfold Silences.merge SilencerRuns.decoded at *
  cases hdec : decodeState p with
  | error err => exact h
  | ok st =>
    simp only [hdec] at hp
    refine beside_mergeLoop h p (fun k e he hid => hp ?_) now order
    rw [← hid, decodeState_id hdec k e he]
    exact GoMap.mem_of_lookup he

/-! ### What the two stores find -/

/-- The result of a query by states and labels over the silences after a version. -/
def found (τ : Silences) (version : ℕ) (t : ℤ) (states : List SilenceState) (lset : LabelSet) :
    List Silence :=
  if (τ.since version).any (τ.blocks t states) then []
  else (τ.since version).filter (τ.hits t states lset)

theorem queryNew_eq_found {τ : Silences} (hτ : τ.WellFormed) (entry : CacheEntry) (t : ℤ)
    (lset : LabelSet) :
    (Silencer.queryNew τ entry t lset).1 = found τ entry.version t Silencer.live lset :=
  Silencer.queryNew_eq hτ entry t lset

/-- Such a query does not suffer from the silence with the ID: it does not visit it in
one of the states, or visits another one that is not in the matcher index, or has
nothing to find. -/
def Spares (τ : Silences) (id : GoString) (version : ℕ) (t : ℤ) (states : List SilenceState)
    (lset : LabelSet) : Prop :=
  (∀ y ∈ τ.since version, y.id = id → y.getState t ∉ states) ∨
  (∃ y ∈ τ.since version, y.id ≠ id ∧ τ.blocks t states y = true) ∨
  ∀ x ∈ τ.since version, τ.hits t states lset x = false

theorem Beside.since (h : Beside id v τ τ') {w w' : ℕ} (hw : SameSince v w w') :
    (τ'.since w').filter (fun x => decide (x.id ≠ id)) = τ.since w := by
  have hne : ∀ sv ∈ τ.vi, sv.id ≠ id := by
    rintro sv hsv rfl
    obtain ⟨e, he⟩ := h.wf.exists_stored hsv
    rw [h.absent] at he
    cases he
  have hvi : (τ'.vi.filter fun sv => decide (w' < sv.version)).filter
      (fun sv => decide (sv.id ≠ id)) =
      (τ.vi.filter fun sv => decide (w < sv.version)).map
        fun sv => ⟨sv.id, shift v sv.version⟩ := by
    rw [List.filter_comm, h.vi, List.filter_map]
    refine congrArg _ (List.filter_congr fun sv _ => ?_)
    simp [(hw sv.version).symm]
  have hfilter : (τ'.since w').filter (fun x => decide (x.id ≠ id)) =
      ((τ'.vi.filter fun sv => decide (w' < sv.version)).filter
        (fun sv => decide (sv.id ≠ id))).filterMap fun sv => τ'.getSilence sv.id := by
    rw [Silences.since, List.filter_filterMap]
    generalize τ'.vi.filter (fun sv => decide (w' < sv.version)) = l
    rw [List.filterMap_filter]
    refine List.filterMap_congr fun sv _ => ?_
    cases hget : τ'.getSilence sv.id with
    | none => simp
    | some x => simp [Option.filter, Silencer.getSilence_id h.wf' hget]
  rw [hfilter, hvi, List.filterMap_map, Silences.since]
  exact List.filterMap_congr fun sv hsv => h.getSilence (hne sv (List.mem_of_mem_filter hsv))

/-- The two stores give a query the same result exactly when the query is spared. -/
theorem found_eq_iff (h : Beside id v τ τ') {w w' : ℕ} (hw : SameSince v w w') (t : ℤ)
    (states : List SilenceState) (lset : LabelSet) :
    found τ' w' t states lset = found τ w t states lset ↔ Spares τ' id w' t states lset := by
  have hblocks : τ.blocks t states = τ'.blocks t states := by
    funext x
    simp [Silences.blocks, h.mi]
  have hhits : τ.hits t states lset = τ'.hits t states lset := by
    funext x
    simp [Silences.hits, h.mi]
  have hmine : ∀ y : Silence, y.id = id →
      τ'.blocks t states y = decide (y.getState t ∈ states) ∧ τ'.hits t states lset y = false := by
    rintro y rfl
    simp [Silences.blocks, Silences.hits, h.mi, h.not_indexed]
  have hfilter : (τ.since w).filter (τ'.hits t states lset) =
      (τ'.since w').filter (τ'.hits t states lset) := by
    rw [← h.since hw, List.filter_filter]
    refine List.filter_congr fun x _ => ?_
    by_cases hid : x.id = id
    · simp [(hmine x hid).2]
    · simp [hid]
  unfold found Spares
  rw [hblocks, hhits, hfilter]
  by_cases hblocked : ∃ y ∈ τ'.since w', y.id ≠ id ∧ τ'.blocks t states y = true
  · obtain ⟨y, hy, hid, hblock⟩ := hblocked
    have hany : (τ'.since w').any (τ'.blocks t states) = true :=
      List.any_eq_true.mpr ⟨y, hy, hblock⟩
    have hany' : (τ.since w).any (τ'.blocks t states) = true := by
      refine List.any_eq_true.mpr ⟨y, ?_, hblock⟩
      rw [← h.since hw]
      exact List.mem_filter.mpr ⟨hy, decide_eq_true hid⟩
    rw [if_pos hany, if_pos hany']
    exact iff_of_true rfl (Or.inr (Or.inl ⟨y, hy, hid, hblock⟩))
  · have hany : ¬ (τ.since w).any (τ'.blocks t states) = true := by
      rw [List.any_eq_true]
      rintro ⟨y, hy, hblock⟩
      rw [← h.since hw, List.mem_filter, decide_eq_true_eq] at hy
      exact hblocked ⟨y, hy.1, hy.2, hblock⟩
    rw [if_neg hany]
    by_cases hvisits : ∀ y ∈ τ'.since w', y.id = id → y.getState t ∉ states
    · rw [if_neg, eq_self_iff_true, true_iff]
      · exact Or.inl hvisits
      · rw [List.any_eq_true]
        rintro ⟨y, hy, hblock⟩
        by_cases hid : y.id = id
        · rw [(hmine y hid).1, decide_eq_true_eq] at hblock
          exact hvisits y hy hid hblock
        · exact hblocked ⟨y, hy, hid, hblock⟩
    · rw [if_pos, eq_comm, List.filter_eq_nil_iff]
      · simp [hvisits, hblocked]
      · push Not at hvisits
        obtain ⟨y, hy, hid, hstate⟩ := hvisits
        refine List.any_eq_true.mpr ⟨y, hy, ?_⟩
        rw [(hmine y hid).1]
        exact decide_eq_true hstate

/-- The silence itself is never found. -/
theorem filter_found (h : Beside id v τ τ') (w : ℕ) (t : ℤ) (states : List SilenceState)
    (lset : LabelSet) :
    (found τ' w t states lset).filter (fun x => decide (x.id ≠ id)) =
      found τ' w t states lset := by
  rw [List.filter_eq_self]
  intro x hx
  refine decide_eq_true ?_
  rintro rfl
  unfold found at hx
  split_ifs at hx
  · cases hx
  · simp [Silences.hits, h.mi, h.not_indexed] at hx

end

end

end Alertmanager.UncompilableSilence
