import Alertmanager.SilenceEdits

/-!
# Validity of stored silences

`Set` validates the silence it is given and moves its start to now afterwards, when
it creates a silence. `expire` moves one or both ends. Updates and expirations keep a
silence valid. A creation whose end is already over does not: the start is moved
behind the end.
-/
namespace Alertmanager

namespace Silence

/-- What `validateSilence` asks of the times of a silence. -/
structure ValidTimes (sil : Silence) : Prop where
  start_set : timeUnset sil.startsAt = false
  end_set : timeUnset sil.endsAt = false
  ordered : asTime sil.startsAt ≤ asTime sil.endsAt

theorem timeUnset_some {t : ℤ} (ht : t ≠ 0) : timeUnset (some t) = false := by
  simp [timeUnset, ht]

/-- A silence without old-style matchers is left alone. -/
theorem postprocess_eq_self {sil : Silence} (h : sil.matchers = []) : sil.postprocess = sil := by
  cases sil
  simp only at h
  simp [postprocess, h]

end Silence

section
variable [Regexp] {scheme : NameScheme}

theorem validateSilence_eq_none {sil : Silence} : validateSilence scheme sil = none ↔
    (sil.matcherSets ≠ [] ∧ validateMatcherSets scheme 0 sil.matcherSets = none) ∧
      sil.ValidTimes := by
  unfold validateSilence
  by_cases hsets : sil.matcherSets = []
  · simp [hsets]
  · rw [if_neg (by simpa using hsets)]
    cases validateMatcherSets scheme 0 sil.matcherSets with
    | some err => simp
    | none =>
      constructor
      · intro h
        dsimp only at h
        split_ifs at h with hstart hend horder
        exact ⟨⟨hsets, rfl⟩, by simpa using hstart, by simpa using hend, not_lt.mp horder⟩
      · rintro ⟨-, hstart, hend, horder⟩
        dsimp only
        rw [hstart, hend, if_neg (by simp), if_neg (by simp), if_neg (not_lt.mpr horder)]

/-- Validation looks at the matchers and at the times. -/
theorem validateSilence_retimed {sil sil' : Silence}
    (hvalid : validateSilence scheme sil.postprocess = none)
    (hmatchers : sil'.matchers = sil.matchers) (hsets : sil'.matcherSets = sil.matcherSets)
    (htimes : sil'.ValidTimes) : validateSilence scheme sil'.postprocess = none := by
  rw [validateSilence_eq_none] at hvalid ⊢
  have hsame : sil'.postprocess.matcherSets = sil.postprocess.matcherSets := by
    simp only [Silence.postprocess, hmatchers, hsets]
  rw [hsame]
  exact ⟨hvalid.1, htimes.start_set, htimes.end_set, htimes.ordered⟩

theorem validTimes_of_validateSilence {sil : Silence}
    (h : validateSilence scheme sil.postprocess = none) : sil.ValidTimes := by
  obtain ⟨-, htimes⟩ := validateSilence_eq_none.mp h
  exact ⟨htimes.start_set, htimes.end_set, htimes.ordered⟩

end

namespace Silences

theorem normalized_postprocess (sil : Silence) (now : ℤ) :
    (normalized sil now).postprocess = normalized sil now :=
  Silence.postprocess_eq_self rfl

/-- A silence that is not over ends now: it stays valid, unless now is the zero time. -/
theorem validTimes_expiredVersion {prev : Silence} {now : ℤ} (hprev : prev.ValidTimes)
    (hlive : prev.getState now ≠ .expired) (hnow : now ≠ 0) :
    (expiredVersion prev now).ValidTimes := by
  cases hstate : prev.getState now with
  | expired => exact absurd hstate hlive
  | pending =>
    refine ⟨?_, Silence.timeUnset_some hnow, ?_⟩
    · simpa only [expiredVersion, hstate, if_true] using Silence.timeUnset_some hnow
    · simp [expiredVersion, hstate]
  | active =>
    rw [Silence.getState_active] at hstate
    have hstay : ¬ prev.getState now = .pending := by
      rw [Silence.getState_pending]
      omega
    refine ⟨?_, Silence.timeUnset_some hnow, ?_⟩
    · simpa only [expiredVersion, hstay, if_false] using hprev.start_set
    · simpa only [expiredVersion, hstay, if_false, asTime_some] using hstate.1

variable [Regexp]

/-- A stored silence passes the validation of `Set`, and its expiry is the end of the
silence plus the retention. -/
structure ValidEntry (scheme : NameScheme) (retention : ℤ) (e : MeshSilence) : Prop where
  validates : validateSilence scheme e.silence.postprocess = none
  expires : e.expiresAt = some (asTime e.silence.endsAt + retention)

def AllValid (scheme : NameScheme) (s : Silences) : Prop :=
  ∀ id e, s.st.lookup id = some e → ValidEntry scheme s.retention e

variable {scheme : NameScheme} {s : Silences} {now : ℤ}

@[simp] theorem mergeSilence_retention (s : Silences) (e : MeshSilence) (now : ℤ) :
    (s.mergeSilence e now).1.retention = s.retention := by
  have hout := mergeSilence_outcome s e now
  generalize s.mergeSilence e now = r at hout
  cases hout <;> rfl

theorem allValid_mergeSilence (hs : AllValid scheme s) {e : MeshSilence}
    (he : Accepts s e now → ValidEntry scheme s.retention e) :
    AllValid scheme (s.mergeSilence e now).1 := by
  intro id e' he'
  rw [mergeSilence_retention]
  rw [lookup_mergeSilence] at he'
  split_ifs at he' with h
  · obtain rfl := Option.some.inj he'
    have hvalid := he h.2
    refine ⟨validateSilence_retimed hvalid.validates ?_ ?_ ?_, ?_⟩
    · unfold Silence.upgradeComments
      split <;> rfl
    · exact Silence.upgradeComments_matcherSets _
    · have htimes := validTimes_of_validateSilence hvalid.validates
      unfold Silence.upgradeComments
      split
      · exact htimes
      · exact ⟨htimes.start_set, htimes.end_set, htimes.ordered⟩
    · rw [Silence.upgradeComments_endsAt]
      exact hvalid.expires
  · exact hs id e' he'

theorem validEntry_retired {e : MeshSilence} (he : ValidEntry scheme s.retention e)
    (hlive : e.silence.getState now ≠ .expired) (hnow : now ≠ 0) :
    ValidEntry scheme s.retention (s.retired e.silence now) :=
  ⟨validateSilence_retimed he.validates rfl rfl
    (validTimes_expiredVersion (validTimes_of_validateSilence he.validates) hlive hnow), rfl⟩

theorem validEntry_creation {sil : Silence} {uid : GoString}
    (hvalid : validateSilence scheme (normalized sil now) = none) (hnow : now ≠ 0)
    (hend : now ≤ asTime sil.endsAt) : ValidEntry scheme s.retention (s.creation sil uid now) := by
  have htimes := (validateSilence_eq_none.mp hvalid).2
  rw [← normalized_postprocess] at hvalid
  refine ⟨validateSilence_retimed hvalid rfl rfl ⟨?_, htimes.end_set, ?_⟩, rfl⟩
  · change Silence.timeUnset (if _ then _ else _) = false
    split_ifs
    · exact Silence.timeUnset_some hnow
    · exact htimes.start_set
  · change asTime (if _ then _ else _) ≤ _
    split_ifs
    · exact hend
    · exact htimes.ordered

section
variable [Proto]

theorem allValid_expire (hs : AllValid scheme s) (id : GoString) (hnow : now ≠ 0) :
    AllValid scheme (s.expire id now).2.1 ∧ (s.expire id now).2.1.retention = s.retention := by
  have hout := expire_outcome s id now
  generalize s.expire id now = r at hout
  cases hout with
  | notFound hnone => exact ⟨hs, rfl⟩
  | already prev hprev hexp => exact ⟨hs, rfl⟩
  | unmarshallable prev hprev hlive hm => exact ⟨hs, rfl⟩
  | offered prev hprev hlive b hm =>
    obtain ⟨e, he, rfl⟩ := lookup_of_getSilence hprev
    exact ⟨allValid_mergeSilence hs fun _ => validEntry_retired (hs id e he) hlive hnow,
      mergeSilence_retention _ _ _⟩

theorem allValid_expirePrevious (hs : AllValid scheme s) (prev : Option Silence) {now : ℤ}
    (hnow : now ≠ 0) :
    AllValid scheme (s.expirePrevious prev now).2.1 ∧
      (s.expirePrevious prev now).2.1.retention = s.retention := by
  rcases expirePrevious_cases s prev now with hsame | ⟨p, -, -, heq⟩
  · rw [hsame]
    exact ⟨hs, rfl⟩
  · rw [heq]
    exact allValid_expire hs p.id hnow

/-- The condition under which `Set` leaves only valid silences: it updates a stored one,
or the silence it creates has not ended yet, or has ended so long ago that nothing is
stored. -/
def Timely (s : Silences) (now : ℤ) (sil : Silence) : Prop :=
  ((s.getSilence sil.id).any fun prev => Silence.canUpdate prev (normalized sil now) now) = true ∨
    now ≤ asTime sil.endsAt ∨ asTime sil.endsAt + s.retention < now

instance (s : Silences) (now : ℤ) (sil : Silence) : Decidable (Timely s now sil) :=
  inferInstanceAs (Decidable (_ ∨ _ ∨ _))

theorem Timely.of_creates {env : SetEnv} {sil : Silence} {prev : Option Silence} {uid : GoString}
    (h : Timely s now sil) (hc : Creates s env now sil prev uid) :
    now ≤ asTime sil.endsAt ∨ asTime sil.endsAt + s.retention < now := by
  obtain hany | hrest := h
  · have hfound : s.getSilence sil.id = prev := hc.found
    rw [hfound, Option.any_eq_true] at hany
    obtain ⟨p, hp, hcan⟩ := hany
    rw [hc.replaced p hp] at hcan
    cases hcan
  · exact hrest

theorem allValid_set (hs : AllValid scheme s) {env : SetEnv} (henv : env.scheme = scheme)
    {sil : Silence} (hnow : now ≠ 0) (ht : Timely s now sil) :
    AllValid scheme (s.set env now sil).silences ∧
      (s.set env now sil).silences.retention = s.retention := by
  have hout := set_outcome s env now sil
  generalize s.set env now sil = r at hout
  cases hout with
  | refused err sil' => exact ⟨hs, rfl⟩
  | updated prev h b hm =>
    refine ⟨allValid_mergeSilence hs fun _ => ⟨?_, rfl⟩, mergeSilence_retention _ _ _⟩
    have hvalid := h.valid
    rw [henv, ← normalized_postprocess] at hvalid
    have htimes := validTimes_of_validateSilence hvalid
    exact validateSilence_retimed hvalid rfl rfl
      ⟨htimes.start_set, htimes.end_set, htimes.ordered⟩
  | created prev uid h b hm =>
    obtain ⟨hprev, hret⟩ := allValid_expirePrevious hs prev hnow
    refine ⟨allValid_mergeSilence hprev fun hacc => ?_, ?_⟩
    · have hstored : now ≤ asTime sil.endsAt + s.retention := hacc.1
      have hend : now ≤ asTime sil.endsAt := (ht.of_creates h).resolve_right (by omega)
      rw [hret]
      exact validEntry_creation (henv ▸ h.valid) hnow hend
    · rw [mergeSilence_retention, hret]
  | torn prev uid h hm => exact allValid_expirePrevious hs prev hnow

end

end Silences

namespace SilenceStore

section
variable [Regexp]

/-- Local operations under one label-name scheme, at a clock that does not go back. -/
def LocalEnabled (scheme : NameScheme) (s : State) (op : Op) : Prop :=
  s.clock ≤ op.now ∧
  match op with
  | .set _ env _ => env.scheme = scheme
  | .expire _ _ => True
  | .merge _ _ _ | .gc _ => False

instance (scheme : NameScheme) (s : State) : (op : Op) → Decidable (LocalEnabled scheme s op)
  | .set now env _ => inferInstanceAs (Decidable (s.clock ≤ now ∧ env.scheme = scheme))
  | .expire now _ => inferInstanceAs (Decidable (s.clock ≤ now ∧ True))
  | .merge now _ _ | .gc now => inferInstanceAs (Decidable (s.clock ≤ now ∧ False))

/-- No operation runs at the zero time, and no `Set` creates a silence that is over. -/
def EndsLater (s : State) (op : Op) : Prop :=
  op.now ≠ 0 ∧
  match op with
  | .set now _ sil => s.silences.Timely now sil
  | .expire _ _ | .merge _ _ _ | .gc _ => True

instance (s : State) : (op : Op) → Decidable (EndsLater s op)
  | .set now _ sil => inferInstanceAs (Decidable (now ≠ 0 ∧ s.silences.Timely now sil))
  | .expire now _ | .merge now _ _ | .gc now => inferInstanceAs (Decidable (now ≠ 0 ∧ True))

variable [Proto]

/-- Local operations store only valid silences, as long as no `Set` creates a silence
that has already ended: every stored silence passes the validation of `Set`, and its
expiry is its end plus the retention. -/
theorem local_silences_valid {scheme : NameScheme} {retention t : ℤ} {ops : List Op} {s : State}
    (hrun : Run (Guarded EndsLater (Fires (LocalEnabled scheme) next)) (init retention t) ops s) :
    ∀ id e, s.silences.st.lookup id = some e →
      validateSilence scheme e.silence.postprocess = none ∧
        e.expiresAt = some (asTime e.silence.endsAt + retention) := by
  have hall : s.silences.AllValid scheme ∧ s.silences.retention = retention := by
    refine hrun.invariant
      (I := fun s => s.silences.AllValid scheme ∧ s.silences.retention = retention) ?_
      ⟨fun id e he => by simp [init, Silences.new] at he, rfl⟩
    rintro s op s' ⟨hs, hret⟩ ⟨hlater, henabled, rfl⟩
    cases op with
    | set now env sil =>
      obtain ⟨hs', hret'⟩ := Silences.allValid_set hs henabled.2 hlater.1 hlater.2
      exact ⟨hs', hret'.trans hret⟩
    | expire now id =>
      obtain ⟨hs', hret'⟩ := Silences.allValid_expire hs id hlater.1
      exact ⟨hs', hret'.trans hret⟩
    | merge now p order => exact henabled.2.elim
    | gc now => exact henabled.2.elim
  intro id e he
  have hvalid := hall.1 id e he
  rw [hall.2] at hvalid
  exact ⟨hvalid.validates, hvalid.expires⟩

end

section
attribute [local instance] noRegexp zeroProto

/-- A silence from 10 to 100 is created, updated, replaced and expired. -/
def editedRun : List Op :=
  [.set 5 (unlimited "x") (silenceFrom "" 10 100 0),
    .set 6 (unlimited "y") (silenceFrom "x" 20 90 0),
    .set 30 (unlimited "z")
      { silenceFrom "x" 10 90 0 with matcherSets := [[⟨.equal, str "a", str "2"⟩]] },
    .expire 40 (str "z")]

theorem local_silences_valid_edited :
    let s := editedRun.foldl next (init 50 0)
    (s.silences.st.lookup (str "z")).map (fun e => (e.silence.endsAt, e.expiresAt)) =
        some (some 40, some 90) ∧
      ∀ id e, s.silences.st.lookup id = some e →
        validateSilence .classic e.silence.postprocess = none ∧
          e.expiresAt = some (asTime e.silence.endsAt + 50) := by
  intro s
  have hrun : Run (Guarded EndsLater (Fires (LocalEnabled .classic) next)) (init 50 0)
      editedRun s := Run.of_feasible_guarded (by decide +kernel)
  exact ⟨by decide +kernel, local_silences_valid hrun⟩

/-- A silence from 10 to 20 that is set at 30 passes validation and is stored with its
start moved to 30, behind its end. -/
theorem ended_silence_stored :
    let op : Op := .set 30 (unlimited "x") (silenceFrom "" 10 20 0)
    let s := next (init 50 0) op
    LocalEnabled .classic (init 50 0) op ∧
      (Silences.set (Silences.new 50) (unlimited "x") 30 (silenceFrom "" 10 20 0)).err = none ∧
      (s.silences.st.lookup (str "x")).map
        (fun e => validateSilence .classic e.silence.postprocess) =
          some (some .endBeforeStart) := by
  decide +kernel

end

end SilenceStore

end Alertmanager
