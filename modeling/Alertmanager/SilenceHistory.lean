import Alertmanager.SilenceEdits

/-!
# Edits and the past

An edit of a silence never rewrites history. An update in place may move a start
within its second, or a start that lies ahead; expiring a silence cuts off what lies
ahead of now; and a created silence does not start before now.
-/
namespace Alertmanager.Silences

/-- A version has the same past as another: before now both are active at the same
instants, apart from those in the second at which the earlier one starts. -/
def SamePast (now : ℤ) (prev next : Silence) : Prop :=
  ∀ t < now, Silence.unixSeconds t ≠ Silence.unixSeconds (asTime prev.startsAt) →
    (next.getState t = .active ↔ prev.getState t = .active)

theorem unixSeconds_mono {t t' : ℤ} (h : t ≤ t') :
    Silence.unixSeconds t ≤ Silence.unixSeconds t' := by
  unfold Silence.unixSeconds
  omega

theorem samePast_upgradeComments {now : ℤ} {prev next : Silence} (h : SamePast now prev next) :
    SamePast now prev next.upgradeComments := by
  intro t ht hsec
  rw [Silence.upgradeComments_getState]
  exact h t ht hsec

/-- An update in place changes the start within its second, or in the future only. -/
theorem samePast_of_canUpdate {now : ℤ} {prev next : Silence}
    (h : Silence.canUpdate prev next now = true) : SamePast now prev next := by
  intro t ht hsec
  rw [Silence.getState_active, Silence.getState_active]
  have hms := Silence.matcherSets_eq_of_canUpdate h
  simp only [Silence.canUpdate, hms, ne_eq, not_true_eq_false, if_false] at h
  cases hstate : prev.getState now with
  | expired => simp [hstate] at h
  | pending =>
    simp only [hstate] at h
    rw [Silence.getState_pending] at hstate
    split_ifs at h with hstart
    omega
  | active =>
    simp only [hstate] at h
    rw [Silence.getState_active] at hstate
    split_ifs at h with hstart hend
    have hprev := @unixSeconds_mono (asTime prev.startsAt) t
    have hprev' := @unixSeconds_mono t (asTime prev.startsAt)
    have hnext := @unixSeconds_mono (asTime next.startsAt) t
    have hnext' := @unixSeconds_mono t (asTime next.startsAt)
    omega

theorem samePast_expiredVersion {now : ℤ} {prev : Silence} (hlive : prev.getState now ≠ .expired) :
    SamePast now prev (expiredVersion prev now) := by
  intro t ht _
  rw [Silence.getState_active, Silence.getState_active]
  cases hstate : prev.getState now with
  | expired => exact absurd hstate hlive
  | pending =>
    simp only [expiredVersion, hstate, if_true, asTime_some]
    rw [Silence.getState_pending] at hstate
    omega
  | active =>
    simp only [expiredVersion, hstate, asTime_some]
    rw [Silence.getState_active] at hstate
    simp
    omega

section
variable [Regexp] {s : Silences} {now : ℤ}

/-- What a call does to the past: the silences that were stored keep theirs, the
ones it adds have none, and only the given IDs are touched. -/
structure KeepsHistory (now : ℤ) (touched : GoString → Prop) (s s' : Silences) : Prop where
  past : ∀ id e, s.st.lookup id = some e →
    ∃ e', s'.st.lookup id = some e' ∧ SamePast now e.silence e'.silence
  created : ∀ id e, s.st.lookup id = none → s'.st.lookup id = some e →
    ∀ t < now, e.silence.getState t ≠ .active
  others : ∀ id, ¬ touched id → s'.st.lookup id = s.st.lookup id

theorem KeepsHistory.refl (now : ℤ) (touched : GoString → Prop) (s : Silences) :
    KeepsHistory now touched s s where
  past id e he := ⟨e, he, fun t _ _ => Iff.rfl⟩
  created id e hnone he := by
    rw [hnone] at he
    cases he
  others id _ := rfl

theorem keepsHistory_version {touched : GoString → Prop} {e prev : MeshSilence}
    (hprev : s.st.lookup e.silence.id = some prev)
    (hsame : SamePast now prev.silence e.silence) (ht : touched e.silence.id) :
    KeepsHistory now touched s (s.mergeSilence e now).1 where
  past id e₀ he₀ := by
    rw [lookup_mergeSilence]
    split_ifs with h
    · obtain ⟨rfl, -⟩ := h
      obtain rfl := Option.some.inj (hprev.symm.trans he₀)
      exact ⟨_, rfl, samePast_upgradeComments hsame⟩
    · exact ⟨e₀, he₀, fun t _ _ => Iff.rfl⟩
  created id e₀ hnone he₀ := by
    rw [lookup_mergeSilence] at he₀
    split_ifs at he₀ with h
    · rw [← h.1, hnone] at hprev
      cases hprev
    · rw [hnone] at he₀
      cases he₀
  others id hid := by
    rw [lookup_mergeSilence, if_neg]
    rintro ⟨rfl, -⟩
    exact hid ht

/-- A silence that is added after such changes and does not start before now. -/
theorem KeepsHistory.add {touched : GoString → Prop} {s' : Silences} {e : MeshSilence}
    (h : KeepsHistory now touched s s') (hnew : s.st.lookup e.silence.id = none)
    (hstart : now ≤ asTime e.silence.startsAt) (ht : touched e.silence.id) :
    KeepsHistory now touched s (s'.mergeSilence e now).1 where
  past id e₀ he₀ := by
    rw [lookup_mergeSilence, if_neg]
    · exact h.past id e₀ he₀
    · rintro ⟨rfl, -⟩
      rw [hnew] at he₀
      cases he₀
  created id e₀ hnone he₀ t htime := by
    rw [lookup_mergeSilence] at he₀
    split_ifs at he₀ with hacc
    · obtain rfl := Option.some.inj he₀
      simp only [Silence.upgradeComments_getState, ne_eq, Silence.getState_active]
      omega
    · exact h.created id e₀ hnone he₀ t htime
  others id hid := by
    rw [lookup_mergeSilence, if_neg]
    · exact h.others id hid
    · rintro ⟨rfl, -⟩
      exact hid ht

theorem keepsHistory_retired {touched : GoString → Prop} {id : GoString} {prev : Silence}
    (hs : Filed s) (hprev : s.getSilence id = some prev) (hlive : prev.getState now ≠ .expired)
    (ht : touched id) : KeepsHistory now touched s (s.mergeSilence (s.retired prev now) now).1 := by
  obtain ⟨e, he, rfl⟩ := lookup_of_getSilence hprev
  refine keepsHistory_version (lookup_retired hs he now) (samePast_expiredVersion hlive) ?_
  change touched e.silence.id
  rw [hs id e he]
  exact ht

end

section
variable [Regexp] [Proto] {s : Silences} {now : ℤ}

theorem keepsHistory_expire {touched : GoString → Prop} {id : GoString} (hs : Filed s)
    (ht : touched id) : KeepsHistory now touched s (s.expire id now).2.1 := by
  have hout := expire_outcome s id now
  generalize s.expire id now = r at hout
  cases hout with
  | notFound hnone => exact .refl now touched s
  | already prev hprev hexp => exact .refl now touched s
  | unmarshallable prev hprev hlive hm => exact .refl now touched s
  | offered prev hprev hlive b hm => exact keepsHistory_retired hs hprev hlive ht

theorem keepsHistory_expirePrevious {touched : GoString → Prop} {id : GoString} (hs : Filed s)
    (ht : touched id) :
    KeepsHistory now touched s (s.expirePrevious (s.getSilence id) now).2.1 := by
  rcases expirePrevious_cases s (s.getSilence id) now with hsame | ⟨p, hp, -, heq⟩
  · rw [hsame]
    exact .refl now touched s
  · obtain ⟨e, he, rfl⟩ := lookup_of_getSilence hp
    rw [heq, hs id e he]
    exact keepsHistory_expire hs ht

/-- `Set` and `Expire` never rewrite history: before now a stored silence is active
at the same instants as before the call, a created one at none, and no other silence
is changed. -/
theorem edits_keep_history (hs : Filed s) (now : ℤ) :
    (∀ env sil, (∀ u ∈ env.uuid, u ∉ s.st) →
      KeepsHistory now (fun id => id = sil.id ∨ env.uuid = some id) s
        (s.set env now sil).silences) ∧
    ∀ id, KeepsHistory now (fun id' => id' = id) s (s.expire id now).2.1 := by
  refine ⟨fun env sil hfresh => ?_, fun id => keepsHistory_expire hs rfl⟩
  have hout := set_outcome s env now sil
  generalize s.set env now sil = r at hout
  cases hout with
  | refused err sil' => exact .refl now _ s
  | updated prev h b hm =>
    obtain ⟨e, he, rfl⟩ := lookup_of_getSilence h.found
    exact keepsHistory_version he (samePast_of_canUpdate h.allowed) (Or.inl rfl)
  | created prev uid h b hm =>
    obtain rfl := h.found
    refine (keepsHistory_expirePrevious hs (Or.inl rfl)).add ?_ ?_ (Or.inr h.uuid)
    · exact Finmap.lookup_eq_none.mpr (hfresh uid h.uuid)
    · simp only [creation, toMeshSilence, Silences.created]
      split_ifs with hstart
      · exact le_rfl
      · exact not_lt.mp hstart
  | torn prev uid h hm =>
    obtain rfl := h.found
    exact keepsHistory_expirePrevious hs (Or.inl rfl)

end

section
attribute [local instance] noRegexp zeroProto

/-- An active silence whose matchers are changed at 20 is replaced: it was active at
15, and the one that replaces it was not. -/
theorem edits_keep_history_replaced :
    let s := SilenceStore.apply (new 0)
      (.merge 10 (SilenceStore.carrying (SilenceStore.silenceFrom "x" 1 100 5) 1000) [str "x"])
    let sil := { SilenceStore.silenceFrom "x" 1 100 5 with
      matcherSets := [[⟨.equal, str "a", str "2"⟩]] }
    let s' := (s.set (SilenceStore.unlimited "y") 20 sil).silences
    GoMap.len s'.st = 2 ∧
    KeepsHistory 20 (fun id => id = str "x" ∨ some (str "y") = some id) s s' := by
  intro s sil s'
  have hfiled : Filed s := (SilenceStore.wellFormed_apply (wellFormed_new 0) _).ident
  refine ⟨by decide +kernel, (edits_keep_history hfiled 20).1 (SilenceStore.unlimited "y") sil ?_⟩
  decide +kernel

end

end Alertmanager.Silences
