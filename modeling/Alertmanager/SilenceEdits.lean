import Alertmanager.SilenceStore

/-!
# Local edits of silences

`Set` and `Expire` offer silences to the state, and the merge into the state may still
refuse them: a version that is not newer than the stored one is ignored, also when the
edit is acknowledged. A replacement whose new silence cannot be marshalled fails after
the silence it replaces has been expired.
-/
namespace Alertmanager.Silences

theorem expiredVersion_expired {now : ℤ} {prev : Silence} (hlive : prev.getState now ≠ .expired)
    {t : ℤ} (ht : now < t) : (expiredVersion prev now).getState t = .expired := by
  rw [Silence.getState_expired]
  cases hstate : prev.getState now with
  | expired => exact absurd hstate hlive
  | pending =>
    simp only [expiredVersion, hstate, if_true, asTime_some]
    omega
  | active =>
    rw [Silence.getState_active] at hstate
    simp only [expiredVersion, asTime_some]
    refine ⟨?_, ht⟩
    split_ifs
    · exact ht.le
    · omega

section
variable [Regexp] {s : Silences} {now : ℤ}

theorem upgraded_of_accepts {e : MeshSilence} (h : Accepts s e now) :
    (e.upgraded now).silence = e.silence.upgradeComments := by
  unfold MeshSilence.upgraded
  rw [if_neg (not_lt.mpr h.1)]

/-- When the version offered by `expire` is accepted. -/
theorem accepts_retired_iff {id : GoString} {e : MeshSilence} (hs : Filed s)
    (he : s.st.lookup id = some e) :
    Accepts s (s.retired e.silence now) now ↔
      0 ≤ s.retention ∧ asTime e.silence.updatedAt < now := by
  simp only [Accepts, lookup_retired hs he now, Option.mem_some_iff, forall_eq']
  simp [retired, toMeshSilence, expiredVersion]

end

/-! ### Failed edits -/

section
variable [Regexp] [Proto] {s : Silences} {env : SetEnv} {now : ℤ} {sil : Silence}

/-- What `Set` does to the silence it replaces. -/
theorem expirePrevious_eq (s : Silences) (prev : Option Silence) (now : ℤ) :
    (s.expirePrevious prev now).2 = (s, []) ∨
      ∃ p q b, prev = some p ∧ p.getState now ≠ .expired ∧ s.getSilence p.id = some q ∧
        q.getState now ≠ .expired ∧ (s.retired q now).marshal = some b ∧
        Accepts s (s.retired q now) now ∧
        (s.expirePrevious prev now).2 = ((s.mergeSilence (s.retired q now) now).1, [b]) := by
  rcases expirePrevious_cases s prev now with hsame | ⟨p, hp, hexp, heq⟩
  · exact Or.inl (congrArg Prod.snd hsame)
  · rw [heq]
    have hout := expire_outcome s p.id now
    generalize s.expire p.id now = r at hout
    cases hout with
    | notFound hnone => exact Or.inl rfl
    | already q hq hqexp => exact Or.inl rfl
    | unmarshallable q hq hlive hm => exact Or.inl rfl
    | offered q hq hlive b hm =>
      by_cases hacc : Accepts s (s.retired q now) now
      · refine Or.inr ⟨p, q, b, hp, hexp, hq, hlive, hm, hacc, ?_⟩
        simp [(mergeSilence_of_accepts hacc).2]
      · left
        simp [mergeSilence_of_not_accepts hacc]

/-- A replacement that fails after its first write: the new silence cannot be
marshalled, and the one it replaces has been expired already. -/
structure Torn (s : Silences) (env : SetEnv) (now : ℤ) (sil prev : Silence) (uid : GoString) :
    Prop where
  creates : Creates s env now sil (some prev) uid
  marshal : (s.creation sil uid now).marshal = none
  live : prev.getState now ≠ .expired
  expires : ∃ q, s.getSilence prev.id = some q ∧ q.getState now ≠ .expired ∧
    (s.retired q now).marshal ≠ none ∧ Accepts s (s.retired q now) now

/-- A failed `Set` leaves the store as it was and broadcasts nothing, except for a
replacement whose new silence cannot be marshalled. -/
theorem failed_set_changes_nothing_iff (s : Silences) (env : SetEnv) (now : ℤ) (sil : Silence) :
    ((s.set env now sil).err ≠ none →
      (s.set env now sil).silences = s ∧ (s.set env now sil).broadcasts = []) ↔
    ¬ ∃ prev uid, Torn s env now sil prev uid := by
  constructor
  · rintro h ⟨prev, uid, htorn⟩
    have hset := set_of_creates_none htorn.creates htorn.marshal
    obtain ⟨q, hq, hqlive, hm, hacc⟩ := htorn.expires
    obtain ⟨b, hb⟩ := Option.ne_none_iff_exists'.mp hm
    have hbroadcasts : (s.expirePrevious (some prev) now).2.2 = [b] := by
      simp [expirePrevious, htorn.live, expire_of_marshal hq hqlive hb,
        (mergeSilence_of_accepts hacc).2]
    rw [hset] at h
    have hnil := (h (by simp)).2
    rw [hbroadcasts] at hnil
    cases hnil
  · intro hnot herr
    have hout := set_outcome s env now sil
    generalize s.set env now sil = r at hout herr
    cases hout with
    | refused err sil' => exact ⟨rfl, rfl⟩
    | updated prev h b hm => exact absurd rfl herr
    | created prev uid h b hm => exact absurd rfl herr
    | torn prev uid h hm =>
      rcases expirePrevious_eq s prev now with hsame |
        ⟨p, q, b, rfl, hlive, hq, hqlive, hb, hacc, -⟩
      · simp [hsame]
      · exact absurd ⟨p, uid, h, hm, hlive, q, hq, hqlive, by simp [hb], hacc⟩ hnot

/-! ### Acknowledged edits -/

/-- What an acknowledged `Expire` promises. -/
def ExpireEffective (s : Silences) (id : GoString) (now : ℤ) : Prop :=
  (s.expire id now).1 = none → ∀ t, now < t →
    ∃ e, (s.expire id now).2.1.st.lookup id = some e ∧ e.silence.getState t = .expired

/-- The stored version is older than now, or is about to expire anyway. -/
def ExpireWins (s : Silences) (id : GoString) (now : ℤ) : Prop :=
  ∀ prev, s.getSilence id = some prev → (s.retired prev now).marshal ≠ none →
    (0 ≤ s.retention ∧ asTime prev.updatedAt < now) ∨ ∀ t, now < t → prev.getState t = .expired

/-- Two silences have the content that a user sees. -/
def SameContent (a b : Silence) : Prop :=
  a.matcherSets = b.matcherSets ∧ a.startsAt = b.startsAt ∧ a.endsAt = b.endsAt ∧
    a.comment = b.comment

/-- What an acknowledged `Set` promises for a silence that has not ended. -/
def SetEffective (s : Silences) (env : SetEnv) (now : ℤ) (sil : Silence) : Prop :=
  (s.set env now sil).err = none → now ≤ asTime (s.set env now sil).sil.endsAt →
    ∃ e, (s.set env now sil).silences.st.lookup (s.set env now sil).sil.id = some e ∧
      SameContent e.silence (s.set env now sil).sil

/-- The offered silence is not expired for the mesh; and an updated version is older
than now, or has the content already. -/
def SetWins (s : Silences) (env : SetEnv) (now : ℤ) (sil : Silence) : Prop :=
  now ≤ asTime sil.endsAt →
    (∀ prev, Updates s env now sil prev → (s.update sil now).marshal ≠ none →
      (now ≤ asTime sil.endsAt + s.retention ∧ asTime prev.updatedAt < now) ∨
        SameContent prev ((s.update sil now).upgraded now).silence) ∧
    ∀ prev uid, Creates s env now sil prev uid → (s.creation sil uid now).marshal ≠ none →
      now ≤ asTime sil.endsAt + s.retention

/-- `Expire` takes effect exactly if it wins over the stored version. -/
theorem expireEffective_iff (hs : Filed s) (id : GoString) (now : ℤ) :
    ExpireEffective s id now ↔ ExpireWins s id now := by
  unfold ExpireEffective ExpireWins
  have hout := expire_outcome s id now
  generalize s.expire id now = r at hout
  cases hout with
  | notFound hnone => simp [hnone]
  | already prev hprev hexp =>
    obtain ⟨e, he, rfl⟩ := lookup_of_getSilence hprev
    have hlater : ∀ t, now < t → e.silence.getState t = .expired :=
      fun t ht => Silence.expired_mono ht.le hexp
    simp only [hprev, Option.some.injEq, forall_eq', he, exists_eq_left', forall_const]
    exact ⟨fun h _ => Or.inr h, fun _ => hlater⟩
  | unmarshallable prev hprev hlive hm => simp [hprev, hm]
  | offered prev hprev hlive b hm =>
    obtain ⟨e, he, rfl⟩ := lookup_of_getSilence hprev
    simp only [hprev, Option.some.injEq, forall_eq', hm, ne_eq, reduceCtorEq, not_false_eq_true,
      forall_const, ← accepts_retired_iff hs he, lookup_mergeSilence]
    have hid : id = (s.retired e.silence now).silence.id := (hs id e he).symm
    by_cases hacc : Accepts s (s.retired e.silence now) now
    · simp only [hacc, and_true, ← hid, if_true, true_or, iff_true]
      intro t ht
      refine ⟨_, rfl, ?_⟩
      rw [Silence.upgradeComments_getState]
      exact expiredVersion_expired hlive ht
    · simp [hacc, he]

theorem accepts_update_iff {prev : Silence} (h : Updates s env now sil prev) :
    Accepts s (s.update sil now) now ↔
      now ≤ asTime sil.endsAt + s.retention ∧ asTime prev.updatedAt < now := by
  obtain ⟨e, he, rfl⟩ := lookup_of_getSilence h.found
  have hlook : s.st.lookup (s.update sil now).silence.id = some e := he
  simp only [Accepts, hlook, Option.mem_some_iff, forall_eq']
  rfl

theorem setEffective_of_updates {prev : Silence} (h : Updates s env now sil prev) {b : Payload}
    (hm : (s.update sil now).marshal = some b) :
    SetEffective s env now sil ↔ (now ≤ asTime sil.endsAt →
      (now ≤ asTime sil.endsAt + s.retention ∧ asTime prev.updatedAt < now) ∨
        SameContent prev ((s.update sil now).upgraded now).silence) := by
  have hends : asTime (s.update sil now).silence.endsAt = asTime sil.endsAt := rfl
  rw [← accepts_update_iff h, SetEffective, set_of_updates h hm]
  dsimp only
  rw [MeshSilence.upgraded_endsAt, MeshSilence.upgraded_id, lookup_mergeSilence, hends]
  simp only [forall_const, true_and]
  obtain ⟨e, he, rfl⟩ := lookup_of_getSilence h.found
  have hlook : s.st.lookup (s.update sil now).silence.id = some e := he
  by_cases hacc : Accepts s (s.update sil now) now
  · simp only [hacc, if_true, true_or, implies_true, iff_true, upgraded_of_accepts hacc]
    exact fun _ => ⟨_, rfl, rfl, rfl, rfl, rfl⟩
  · simp [hacc, hlook]

theorem setEffective_of_creates (hs : WellFormed s) (hfresh : ∀ u ∈ env.uuid, u ∉ s.st)
    {prev : Option Silence} {uid : GoString} (h : Creates s env now sil prev uid) {b : Payload}
    (hm : (s.creation sil uid now).marshal = some b) :
    SetEffective s env now sil ↔ (now ≤ asTime sil.endsAt →
      now ≤ asTime sil.endsAt + s.retention) := by
  have hends : asTime (s.creation sil uid now).silence.endsAt = asTime sil.endsAt := rfl
  have hnone : (s.expirePrevious prev now).2.1.st.lookup (s.creation sil uid now).silence.id =
      none := by
    refine Finmap.lookup_eq_none.mpr fun hmem => hfresh uid h.uuid ?_
    exact (expirePrevious_spec hs prev none [] now).2 uid hmem
  have hacc : Accepts (s.expirePrevious prev now).2.1 (s.creation sil uid now) now ↔
      now ≤ asTime sil.endsAt + s.retention := by
    simp only [Accepts, hnone, Option.mem_def, reduceCtorEq, false_implies, implies_true, and_true]
    rfl
  rw [SetEffective, set_of_creates h hm]
  dsimp only
  rw [MeshSilence.upgraded_endsAt, MeshSilence.upgraded_id, lookup_mergeSilence, hends, hnone]
  simp only [forall_const, true_and, hacc]
  by_cases hle : now ≤ asTime sil.endsAt + s.retention
  · simp only [hle, if_true, implies_true, iff_true, upgraded_of_accepts (hacc.mpr hle)]
    exact fun _ => ⟨_, rfl, rfl, rfl, rfl, rfl⟩
  · simp [hle]

/-- `Set` takes effect exactly if what it offers wins over the stored version. -/
theorem setEffective_iff (hs : WellFormed s) (hfresh : ∀ u ∈ env.uuid, u ∉ s.st) :
    SetEffective s env now sil ↔ SetWins s env now sil := by
  constructor
  · refine fun heff hends => ⟨fun prev h hm => ?_, fun prev uid h hm => ?_⟩
    · obtain ⟨b, hb⟩ := Option.ne_none_iff_exists'.mp hm
      exact (setEffective_of_updates h hb).mp heff hends
    · obtain ⟨b, hb⟩ := Option.ne_none_iff_exists'.mp hm
      exact (setEffective_of_creates hs hfresh h hb).mp heff hends
  · intro hwins
    have hout := set_outcome s env now sil
    generalize hr : s.set env now sil = r at hout
    cases hout with
    | refused err sil' => simp [SetEffective, hr]
    | updated prev h b hm =>
      exact (setEffective_of_updates h hm).mpr fun hends => (hwins hends).1 prev h (by simp [hm])
    | created prev uid h b hm =>
      exact (setEffective_of_creates hs hfresh h hm).mpr fun hends =>
        (hwins hends).2 prev uid h (by simp [hm])
    | torn prev uid h hm => simp [SetEffective, hr]

end

end Alertmanager.Silences

namespace Alertmanager.SilenceStore

/-- In every reachable store an acknowledged edit takes effect exactly if it wins
over the stored version: the merge into the state ignores a version that is not
newer than the stored one, and its verdict is dropped. -/
theorem acknowledged_edit_effective_iff [Regexp] [Proto] {E : State → Op → Prop}
    {retention t : ℤ} {ops : List Op} {s : State}
    (hrun : Run (Fires E next) (init retention t) ops s) (now : ℤ) :
    (∀ id, s.silences.ExpireEffective id now ↔ s.silences.ExpireWins id now) ∧
    ∀ env sil, (∀ u ∈ env.uuid, u ∉ s.silences.st) →
      (s.silences.SetEffective env now sil ↔ s.silences.SetWins env now sil) := by
  have hs := wellFormed_of_run hrun
  exact ⟨fun id => Silences.expireEffective_iff hs.ident id now,
    fun env sil hfresh => Silences.setEffective_iff hs hfresh⟩

section
attribute [local instance] noRegexp zeroProto

/-- A peer's version arrives whose time stamp 50 lies ahead of the local clock. -/
def aheadRun : List Op := [.merge 10 (carrying (silenceFrom "x" 1 100 50) 1000) [str "x"]]

/-- The silence is expired at 20 without an error, and is active at 30. -/
theorem acknowledged_expire_ignored :
    let s := aheadRun.foldl next (init 0 0)
    Run (Fires Enabled next) (init 0 0) aheadRun s ∧
    (s.silences.expire (str "x") 20).1 = none ∧
    ((s.silences.expire (str "x") 20).2.1.st.lookup (str "x")).any
      (fun e => decide (e.silence.getState 30 = .active)) = true := by
  exact ⟨Run.of_feasible (by decide +kernel), by decide +kernel, by decide +kernel⟩

/-- A version with an older time stamp is expired for good. -/
theorem acknowledged_edit_effective_past :
    let ops : List Op := [.merge 10 (carrying (silenceFrom "x" 1 100 5) 1000) [str "x"]]
    let s := ops.foldl next (init 0 0)
    (s.silences.expire (str "x") 20).1 = none ∧ s.silences.ExpireEffective (str "x") 20 := by
  intro ops s
  have hrun : Run (Fires Enabled next) (init 0 0) ops s := Run.of_feasible (by decide +kernel)
  refine ⟨by decide +kernel, ((acknowledged_edit_effective_iff hrun 20).1 (str "x")).mpr ?_⟩
  intro prev hprev _
  have hstored : s.silences.getSilence (str "x") = some (silenceFrom "x" 1 100 5) := by
    decide +kernel
  obtain rfl := Option.some.inj (hstored.symm.trans hprev)
  exact Or.inl ⟨by decide +kernel, by decide +kernel⟩

/-- Nothing limits the silences that are set. -/
def unlimited (uuid : String) : Silences.SetEnv := ⟨.classic, none, none, some (str uuid)⟩

/-- An edit that changes the matchers of `x` and has a comment that is not UTF-8. -/
def unmarshallableEdit : Silence :=
  { silenceFrom "x" 1 100 5 with
    matcherSets := [[⟨.equal, str "a", str "2"⟩]]
    comment := [0xff] }

/-- `Set` fails, but has expired the silence it was to replace and has broadcast
that. -/
theorem failed_set_expires_previous :
    let s := apply (Silences.new 0) (.merge 10 (carrying (silenceFrom "x" 1 100 5) 1000) [str "x"])
    let r := s.set (unlimited "y") 20 unmarshallableEdit
    r.err = some .marshal ∧
    (s.st.lookup (str "x")).any (fun e => decide (e.silence.getState 30 = .active)) = true ∧
    (r.silences.st.lookup (str "x")).any (fun e => decide (e.silence.getState 30 = .expired)) =
      true ∧
    r.broadcasts.length = 1 := by
  refine ⟨by decide +kernel, by decide +kernel, by decide +kernel, by decide +kernel⟩

end

end Alertmanager.SilenceStore
