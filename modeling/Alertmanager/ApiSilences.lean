import Alertmanager.SilenceHistory
import Alertmanager.SilencerSoundness

/-!
# Silences over the API

Handlers of `api/v2` for silences: a posted silence is converted and handed to `Set`, and
a silence that is to be deleted is expired. A silence that was deleted stays expired, and an
edit of it makes another silence.
-/
namespace Alertmanager.Api

/-! ### Conversion -/

/-- A matcher of the API. The flags may be left out. -/
structure Matcher where
  name : GoString
  value : GoString
  isRegex : Option Bool
  isEqual : Option Bool
  deriving DecidableEq

structure PostableSilence where
  id : GoString
  matchers : List Api.Matcher
  startsAt : ℤ
  endsAt : ℤ
  createdBy : GoString
  comment : GoString
  annotations : Option (GoMap GoString GoString)

/-- The type of a matcher: without flags it is one for equality. -/
def Matcher.toProto (m : Api.Matcher) : Silencepb.Matcher where
  type :=
    match m.isEqual.getD true, m.isRegex.getD false with
    | true, false => .equal
    | false, false => .notEqual
    | true, true => .regexp
    | false, true => .notRegexp
  name := m.name
  pattern := m.value

/-- `PostableSilenceToProto`. -/
def postableSilenceToProto (s : PostableSilence) : Silence where
  id := s.id
  matchers := []
  startsAt := some s.startsAt
  endsAt := some s.endsAt
  updatedAt := none
  comments := []
  createdBy := s.createdBy
  comment := s.comment
  annotations := s.annotations.getD ∅
  matcherSets := [s.matchers.map Matcher.toProto]
  receiverMatcherSets := []

/-! ### Handlers -/

/-- `errors.Is(err, ErrNotFound)`. -/
def isNotFound : SilenceError → Bool
  | .notFound => true
  | .expirePrevious err => isNotFound err
  | _ => false

/-- A new silence for `a="1"`, from 5 to 100. -/
def oneSilence : PostableSilence where
  id := []
  matchers := [⟨str "a", str "1", none, none⟩]
  startsAt := 5
  endsAt := 100
  createdBy := str "me"
  comment := str "c"
  annotations := none

def oneEnv : Silences.SetEnv := ⟨.utf8, none, none, some (str "u")⟩

/-! ### Deleting a silence -/

inductive DeleteResponse
  | ok
  | notFound
  | internalServerError (err : SilenceError)

/-- `deleteSilenceHandler`. -/
def deleteSilence [Regexp] [Proto] (s : Silences) (now : ℤ) (id : GoString) :
    DeleteResponse × Silences :=
  let r := s.expire id now
  match r.1 with
  | some err => (if isNotFound err then .notFound else .internalServerError err, r.2.1)
  | none => (.ok, r.2.1)

/-- No message has the silence. -/
def Unsent (id : GoString) : SilenceStore.Op → Prop
  | .merge _ p _ => id ∉ SilencerRuns.decoded p
  | .set _ _ _ | .expire _ _ | .gc _ => True

instance (id : GoString) : (op : SilenceStore.Op) → Decidable (Unsent id op)
  | .merge _ p _ => inferInstanceAs (Decidable (id ∉ SilencerRuns.decoded p))
  | .set _ _ _ | .expire _ _ | .gc _ => isTrue trivial

/-- The silence, if it is stored, is expired after a time. -/
def Over [Regexp] (id : GoString) (ended : ℤ) (s : Silences) : Prop :=
  ∀ e, s.st.lookup id = some e → ∀ t, ended < t → e.silence.getState t = .expired

section
variable [Regexp] {s : Silences} {id : GoString} {ended : ℤ}

/-- Nothing that a local call offers has the ID of a silence that is over. -/
theorem ne_of_localPut {s₀ : Silences} {uuid : Option GoString}
    {mss : List Silencepb.MatcherSet} {now : ℤ} {e : MeshSilence} (hs : Over id ended s)
    (hnow : ended < now) (huuid : ∀ u ∈ uuid, u ≠ id) (h : s₀.LocalPut uuid mss now s e) :
    e.silence.id ≠ id := by
  obtain ⟨prev, hprev, hlive, -⟩ | ⟨hnew, -, -⟩ := h
  · rintro rfl
    exact hlive (hs prev hprev now hnow)
  · exact huuid _ hnew

theorem ne_of_offers {s₀ : Silences} {op : SilenceStore.Op} {e : MeshSilence}
    (hs : Over id ended s) (hnow : ended < op.now) (hunsent : Unsent id op)
    (hfresh : ∀ now env sil, op = .set now env sil → ∀ u ∈ env.uuid, u ≠ id)
    (h : SilenceStore.Offers s₀ op s e) : e.silence.id ≠ id := by
  cases op with
  | set now env sil => exact ne_of_localPut hs hnow (hfresh now env sil rfl) h
  | expire now id' => exact ne_of_localPut hs hnow (by simp) h
  | merge now p order =>
    obtain ⟨⟨st, id', hdec, he⟩, -⟩ := h
    rintro rfl
    have hst : SilencerRuns.decoded p = st := by simp [SilencerRuns.decoded, hdec]
    refine hunsent ?_
    rw [hst, decodeState_id hdec id' e he]
    exact GoMap.mem_of_lookup he
  | gc now => exact h.elim

/-- What a call names as a reason is stored, and active. -/
theorem active_of_marked [LabelHash] (hs : s.WellFormed) {cache : SilencerCache} {t₁ t₂ t₃ : ℤ}
    {lset : LabelSet} (h : id ∈ (Silencer.mutesAt s cache t₁ t₂ t₃ lset).marked) :
    ∃ sil, s.getSilence id = some sil ∧ sil.getState t₃ = .active := by
  simp only [Silencer.mutesAt, Silencer.finish] at h
  split_ifs at h with hfast hnone hactive
  · cases h
  · cases h
  · rw [Silencer.classify_eq] at h
    obtain ⟨sil, hsil, rfl⟩ := List.mem_map.mp h
    obtain ⟨hfirst, hstate⟩ := List.mem_filter.mp hsil
    have hfound := (Silencer.mem_firsts (Silencer.sameById_found hs _ _ _ _) [] sil).mp hfirst
    exact ⟨sil, Silencer.stored_of_found hs hfound.1, of_decide_eq_true hstate⟩
  · cases h

variable [Proto]

/-- A silence that is over stays so: an edit of it makes another silence. -/
theorem over_apply (hwf : s.WellFormed) {op : SilenceStore.Op} (hop : SilenceStore.Ranged op)
    (hs : Over id ended s) (hnow : ended < op.now) (hunsent : Unsent id op)
    (hfresh : ∀ now env sil, op = .set now env sil → ∀ u ∈ env.uuid, u ≠ id) :
    Over id ended (SilenceStore.apply s op) := by
  obtain ⟨now, rfl, hgc⟩ | hputs := SilenceStore.apply_cases hwf hop
  · intro e he
    rw [hgc.st, Option.filter_eq_some_iff] at he
    exact hs e he.1
  · refine Silences.Puts.invariant (I := Over id ended) (fun s' e hs' hoffer => ?_) hputs hs
    have hne := ne_of_offers hs' hnow hunsent hfresh hoffer
    intro e' he'
    rw [Silences.lookup_mergeSilence_of_ne hne.symm] at he'
    exact hs' e' he'

/-- The silence was stored once, and is over. -/
structure Deleted (id : GoString) (ended : ℤ) (s : SilenceStore.State) : Prop where
  wf : s.silences.WellFormed
  used : id ∈ s.used
  expired : Over id ended s.silences

theorem deleted_next {s : SilenceStore.State} (hs : Deleted id ended s) {op : SilenceStore.Op}
    (hen : SilenceStore.Enabled s op) (hnow : ended < op.now) (hunsent : Unsent id op) :
    Deleted id ended (SilenceStore.next s op) where
  wf := SilenceStore.wellFormed_apply hs.wf op
  used := Finset.mem_union_left _ hs.used
  expired := by
    refine over_apply hs.wf hen.ranged hs.expired hnow hunsent ?_
    rintro now env sil rfl u hu rfl
    exact hen.2 u hu hs.used

/-- A silence that was deleted stays expired, whatever is posted under its ID, and is never
again a reason to mute; if another node does not send it again. -/
theorem deleted_silence_stays_expired [LabelHash] {retention t now : ℤ}
    {before after : List SilenceStore.Op} {s s' : SilenceStore.State}
    (hbefore : Run (Fires SilenceStore.Enabled SilenceStore.next) (SilenceStore.init retention t)
      before s) (hretention : 0 ≤ s.silences.retention)
    (holder : ∀ prev, s.silences.getSilence id = some prev → asTime prev.updatedAt < now)
    (hok : (deleteSilence s.silences now id).1 = .ok)
    (hafter : Run (Guarded (fun _ op => now < op.now ∧ Unsent id op)
      (Fires SilenceStore.Enabled SilenceStore.next)) (SilenceStore.next s (.expire now id))
      after s') :
    (∀ e, s'.silences.st.lookup id = some e → ∀ t, now < t → e.silence.getState t = .expired) ∧
    ∀ cache t₁ t₂ t₃ lset, now < t₃ →
      id ∉ (Silencer.mutesAt s'.silences cache t₁ t₂ t₃ lset).marked := by
  have hwf := SilenceStore.wellFormed_of_run hbefore
  have hacked : (s.silences.expire id now).1 = none := by
    simp only [deleteSilence] at hok
    cases herr : (s.silences.expire id now).1 with
    | none => rfl
    | some err =>
      simp only [herr] at hok
      split_ifs at hok
  have heffect := (Silences.expireEffective_iff hwf.ident id now).mpr
    (fun prev hprev _ => Or.inl ⟨hretention, holder prev hprev⟩) hacked
  have hdeleted : Deleted id now (SilenceStore.next s (.expire now id)) := by
    obtain ⟨e₁, he₁, -⟩ := heffect (now + 1) (by omega)
    refine ⟨SilenceStore.wellFormed_apply hwf (.expire now id), Finset.mem_union_right _ ?_,
      fun e he t ht => ?_⟩
    · exact Finmap.mem_keys.mpr (GoMap.mem_of_lookup he₁)
    · obtain ⟨e', he', hexp⟩ := heffect t ht
      obtain rfl := Option.some.inj (he.symm.trans he')
      exact hexp
  have hs' : Deleted id now s' := by
    refine hafter.invariant (fun s op s' hs hstep => ?_) hdeleted
    obtain ⟨⟨hnow, hunsent⟩, hen, rfl⟩ := hstep
    exact deleted_next hs hen hnow hunsent
  refine ⟨hs'.expired, fun cache t₁ t₂ t₃ lset ht hmarked => ?_⟩
  obtain ⟨sil, hsil, hactive⟩ := active_of_marked hs'.wf hmarked
  obtain ⟨e, he, rfl⟩ := Silences.lookup_of_getSilence hsil
  rw [hs'.expired e he t₃ ht] at hactive
  cases hactive

end

section
open SilenceStore
attribute [local instance] noRegexp zeroProto fnvLabelHash

/-- The silence is posted at 10, deleted at 20, and posted again under its ID at 30. -/
def onePosted : SilenceStore.State :=
  next (init 0 0) (.set 10 oneEnv (postableSilenceToProto oneSilence))

def postedAgain : List SilenceStore.Op :=
  [.set 30 { oneEnv with uuid := some (str "v") }
    (postableSilenceToProto { oneSilence with id := str "u" })]

theorem deleted_silence_not_revived :
    let s := postedAgain.foldl next (next onePosted (.expire 20 (str "u")))
    ∀ lset, str "u" ∉ (Silencer.mutesAt s.silences ∅ 50 50 50 lset).marked := by
  intro s lset
  have hbefore : Run (Fires Enabled next) (init 0 0)
      [.set 10 oneEnv (postableSilenceToProto oneSilence)] onePosted :=
    Run.of_feasible (by decide +kernel)
  have hafter : Run (Guarded (fun _ op => 20 < op.now ∧ Unsent (str "u") op) (Fires Enabled next))
      (next onePosted (.expire 20 (str "u"))) postedAgain s :=
    Run.of_feasible_guarded (by decide +kernel)
  have hold : ∀ prev, onePosted.silences.getSilence (str "u") = some prev →
      asTime prev.updatedAt < 20 := by
    rintro prev hprev
    obtain rfl := Option.some.inj hprev
    decide +kernel
  exact (deleted_silence_stays_expired hbefore le_rfl hold rfl hafter).2 ∅ 50 50 50 lset
    (by decide)

end

end Alertmanager.Api
