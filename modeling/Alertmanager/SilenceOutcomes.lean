import Alertmanager.Silences

/-!
# The outcomes of local edits

`Set` and `Expire` decide with pure checks which silences they offer to the state. The
outcomes are listed once: a refused call, an update in place, a creation, and a
creation whose silence cannot be marshalled after the one it replaces has been
expired. What an edit does to the indexes, to the past and to the format of the
stored silences follows from the list.
-/
namespace Alertmanager.Silences

variable [Regexp]

/-- The version that `expire` offers to the state. -/
def retired (s : Silences) (prev : Silence) (now : ℤ) : MeshSilence :=
  s.toMeshSilence (expiredVersion prev now)

/-- The version that an update in place offers to the state. -/
def update (s : Silences) (sil : Silence) (now : ℤ) : MeshSilence :=
  s.toMeshSilence { normalized sil now with updatedAt := some now }

/-- The silence that a creation offers to the state. -/
def creation (s : Silences) (sil : Silence) (uid : GoString) (now : ℤ) : MeshSilence :=
  s.toMeshSilence (created (normalized sil now) uid now)

/-- Every silence is stored under its own ID. -/
def Filed (s : Silences) : Prop := ∀ id e, s.st.lookup id = some e → e.silence.id = id

section
variable {s : Silences}

theorem lookup_of_getSilence {id : GoString} {sil : Silence} (h : s.getSilence id = some sil) :
    ∃ e, s.st.lookup id = some e ∧ e.silence = sil := by
  simpa [getSilence] using h

/-- The version offered by `expire` meets the one it was made from. -/
theorem lookup_retired {id : GoString} {e : MeshSilence} (hs : Filed s)
    (he : s.st.lookup id = some e) (now : ℤ) :
    s.st.lookup (s.retired e.silence now).silence.id = some e := by
  change s.st.lookup e.silence.id = some e
  rw [hs id e he, he]

end

section
variable [Proto] {s : Silences} {env : SetEnv} {now : ℤ} {sil : Silence}

/-! ### `Expire` -/

theorem setSilence_of_marshal {e : MeshSilence} {b : Payload} (h : e.marshal = some b) :
    s.setSilence e now =
      .ok ((s.mergeSilence e now).1, if (s.mergeSilence e now).2.1 then [b] else []) := by
  simp only [setSilence, h]

theorem setSilence_of_marshal_none {e : MeshSilence} (h : e.marshal = none) :
    s.setSilence e now = .error .marshal := by
  simp only [setSilence, h]

/-- What `expire` can do. -/
inductive ExpireOutcome (s : Silences) (id : GoString) (now : ℤ) :
    Option SilenceError × Silences × List Payload → Prop
  | notFound (hnone : s.getSilence id = none) : ExpireOutcome s id now (some .notFound, s, [])
  | already (prev : Silence) (hprev : s.getSilence id = some prev)
      (hexp : prev.getState now = .expired) : ExpireOutcome s id now (none, s, [])
  | unmarshallable (prev : Silence) (hprev : s.getSilence id = some prev)
      (hlive : prev.getState now ≠ .expired) (hm : (s.retired prev now).marshal = none) :
      ExpireOutcome s id now (some .marshal, s, [])
  | offered (prev : Silence) (hprev : s.getSilence id = some prev)
      (hlive : prev.getState now ≠ .expired) (b : Payload)
      (hm : (s.retired prev now).marshal = some b) :
      ExpireOutcome s id now (none, (s.mergeSilence (s.retired prev now) now).1,
        if (s.mergeSilence (s.retired prev now) now).2.1 then [b] else [])

theorem expire_outcome (s : Silences) (id : GoString) (now : ℤ) :
    ExpireOutcome s id now (s.expire id now) := by
  unfold expire
  cases hprev : s.getSilence id with
  | none => exact .notFound hprev
  | some prev =>
    simp only
    split_ifs with hexp
    · exact .already prev hprev hexp
    · cases hm : (s.retired prev now).marshal with
      | none =>
        have hset : s.setSilence (s.toMeshSilence (expiredVersion prev now)) now =
            .error .marshal := setSilence_of_marshal_none hm
        rw [hset]
        exact .unmarshallable prev hprev hexp hm
      | some b =>
        have hset : s.setSilence (s.toMeshSilence (expiredVersion prev now)) now =
            .ok ((s.mergeSilence (s.retired prev now) now).1,
              if (s.mergeSilence (s.retired prev now) now).2.1 then [b] else []) :=
          setSilence_of_marshal hm
        rw [hset]
        exact .offered prev hprev hexp b hm

theorem expire_of_marshal {id : GoString} {prev : Silence} {b : Payload}
    (hprev : s.getSilence id = some prev) (hlive : prev.getState now ≠ .expired)
    (hm : (s.retired prev now).marshal = some b) :
    s.expire id now = (none, (s.mergeSilence (s.retired prev now) now).1,
      if (s.mergeSilence (s.retired prev now) now).2.1 then [b] else []) := by
  unfold retired at hm
  simp only [expire, hprev, hlive, if_false, setSilence_of_marshal hm]
  rfl

theorem expire_error {id : GoString} {err : SilenceError} (h : (s.expire id now).1 = some err) :
    (s.expire id now).2 = (s, []) := by
  have hout := expire_outcome s id now
  generalize s.expire id now = r at hout h
  cases hout with
  | notFound hnone => rfl
  | already prev hprev hexp => rfl
  | unmarshallable prev hprev hlive hm => rfl
  | offered prev hprev hlive b hm => cases h

/-! ### `Set` -/

/-- The silence to be replaced is left alone, or `expire` does its work. -/
theorem expirePrevious_cases (s : Silences) (prev : Option Silence) (now : ℤ) :
    s.expirePrevious prev now = (none, s, []) ∨
      ∃ p, prev = some p ∧ p.getState now ≠ .expired ∧ s.expirePrevious prev now =
        ((s.expire p.id now).1.map SilenceError.expirePrevious, (s.expire p.id now).2) := by
  cases prev with
  | none => exact Or.inl rfl
  | some p =>
    by_cases hexp : p.getState now = .expired
    · left
      simp only [expirePrevious, hexp, if_true]
    · right
      refine ⟨p, rfl, hexp, ?_⟩
      simp only [expirePrevious, hexp, if_false]
      rcases s.expire p.id now with ⟨_ | _, _⟩ <;> rfl

/-- A failed step of `Set` that expires the silence to be replaced changes nothing. -/
theorem expirePrevious_error {prev : Option Silence} {err : SilenceError}
    (h : (s.expirePrevious prev now).1 = some err) : (s.expirePrevious prev now).2 = (s, []) := by
  rcases expirePrevious_cases s prev now with hsame | ⟨p, -, -, heq⟩
  · rw [hsame]
  · rw [heq] at h ⊢
    obtain ⟨err', herr, -⟩ := Option.map_eq_some_iff.mp h
    exact expire_error herr

/-- The checks that lead `Set` to an update in place. -/
structure Updates (s : Silences) (env : SetEnv) (now : ℤ) (sil : Silence) (prev : Silence) :
    Prop where
  valid : validateSilence env.scheme (normalized sil now) = none
  found : s.getSilence (normalized sil now).id = some prev
  allowed : Silence.canUpdate prev (normalized sil now) now = true
  fits : checkSizeLimits env (s.update sil now) = none

/-- The checks that lead `Set` to the creation of a silence, in the place of an
existing one that cannot be updated or without one. -/
structure Creates (s : Silences) (env : SetEnv) (now : ℤ) (sil : Silence) (prev : Option Silence)
    (uid : GoString) : Prop where
  valid : validateSilence env.scheme (normalized sil now) = none
  found : s.getSilence (normalized sil now).id = prev
  unnamed : prev = none → (normalized sil now).id = []
  replaced : ∀ p ∈ prev, Silence.canUpdate p (normalized sil now) now = false
  room : s.checkCountLimit env = none
  uuid : env.uuid = some uid
  fits : checkSizeLimits env (s.creation sil uid now) = none
  expired : (s.expirePrevious prev now).1 = none

theorem set_of_updates {prev : Silence} (h : Updates s env now sil prev) {b : Payload}
    (hm : (s.update sil now).marshal = some b) :
    s.set env now sil = ⟨none, ((s.update sil now).upgraded now).silence,
      (s.mergeSilence (s.update sil now) now).1,
      if (s.mergeSilence (s.update sil now) now).2.1 then [b] else []⟩ := by
  have hset : s.set env now sil = s.setUpdate env now (normalized sil now) := by
    simp only [set, h.valid, h.found, h.allowed, if_true]
  have hfits := h.fits
  unfold update at hfits hm
  rw [hset]
  simp only [setUpdate, hfits, setSilence_of_marshal hm]
  rfl

theorem set_eq_setCreate {prev : Option Silence}
    (hvalid : validateSilence env.scheme (normalized sil now) = none)
    (hfound : s.getSilence (normalized sil now).id = prev)
    (hunnamed : prev = none → (normalized sil now).id = [])
    (hreplaced : ∀ p ∈ prev, Silence.canUpdate p (normalized sil now) now = false) :
    s.set env now sil = s.setCreate env now prev (normalized sil now) := by
  cases prev with
  | none =>
    simp only [set, hvalid, hfound]
    rw [if_neg (not_not.mpr (hunnamed rfl))]
  | some p => simp [set, hvalid, hfound, hreplaced p rfl]

theorem Creates.set_eq {prev : Option Silence} {uid : GoString}
    (h : Creates s env now sil prev uid) :
    s.set env now sil = s.setCreate env now prev (normalized sil now) :=
  set_eq_setCreate h.valid h.found h.unnamed h.replaced

theorem set_of_creates {prev : Option Silence} {uid : GoString}
    (h : Creates s env now sil prev uid) {b : Payload}
    (hm : (s.creation sil uid now).marshal = some b) :
    s.set env now sil =
      let s' := (s.expirePrevious prev now).2.1
      ⟨none, ((s.creation sil uid now).upgraded now).silence,
        (s'.mergeSilence (s.creation sil uid now) now).1,
        (s.expirePrevious prev now).2.2 ++
          if (s'.mergeSilence (s.creation sil uid now) now).2.1 then [b] else []⟩ := by
  have hfits := h.fits
  have hexp : s.expirePrevious prev now = (none, (s.expirePrevious prev now).2) :=
    Prod.ext h.expired rfl
  unfold creation at hfits hm
  rw [h.set_eq]
  simp only [setCreate, h.room, h.uuid, hfits]
  rw [hexp]
  simp only [setSilence_of_marshal hm]
  rfl

theorem set_of_creates_none {prev : Option Silence} {uid : GoString}
    (h : Creates s env now sil prev uid) (hm : (s.creation sil uid now).marshal = none) :
    s.set env now sil = ⟨some .marshal, created (normalized sil now) uid now,
      (s.expirePrevious prev now).2.1, (s.expirePrevious prev now).2.2⟩ := by
  have hfits := h.fits
  have hexp : s.expirePrevious prev now = (none, (s.expirePrevious prev now).2) :=
    Prod.ext h.expired rfl
  unfold creation at hfits hm
  rw [h.set_eq]
  simp only [setCreate, h.room, h.uuid, hfits]
  rw [hexp]
  simp only [setSilence_of_marshal_none hm]

/-- What `Set` can do. -/
inductive SetOutcome (s : Silences) (env : SetEnv) (now : ℤ) (sil : Silence) : SetResult → Prop
  | refused (err : SilenceError) (sil' : Silence) : SetOutcome s env now sil ⟨some err, sil', s, []⟩
  | updated (prev : Silence) (h : Updates s env now sil prev) (b : Payload)
      (hm : (s.update sil now).marshal = some b) :
      SetOutcome s env now sil ⟨none, ((s.update sil now).upgraded now).silence,
        (s.mergeSilence (s.update sil now) now).1,
        if (s.mergeSilence (s.update sil now) now).2.1 then [b] else []⟩
  | created (prev : Option Silence) (uid : GoString) (h : Creates s env now sil prev uid)
      (b : Payload) (hm : (s.creation sil uid now).marshal = some b) :
      SetOutcome s env now sil ⟨none, ((s.creation sil uid now).upgraded now).silence,
        ((s.expirePrevious prev now).2.1.mergeSilence (s.creation sil uid now) now).1,
        (s.expirePrevious prev now).2.2 ++
          if ((s.expirePrevious prev now).2.1.mergeSilence (s.creation sil uid now) now).2.1
          then [b] else []⟩
  | torn (prev : Option Silence) (uid : GoString) (h : Creates s env now sil prev uid)
      (hm : (s.creation sil uid now).marshal = none) :
      SetOutcome s env now sil ⟨some .marshal, Silences.created (normalized sil now) uid now,
        (s.expirePrevious prev now).2.1, (s.expirePrevious prev now).2.2⟩

theorem setCreate_outcome {prev : Option Silence}
    (hvalid : validateSilence env.scheme (normalized sil now) = none)
    (hfound : s.getSilence (normalized sil now).id = prev)
    (hunnamed : prev = none → (normalized sil now).id = [])
    (hreplaced : ∀ p ∈ prev, Silence.canUpdate p (normalized sil now) now = false) :
    SetOutcome s env now sil (s.set env now sil) := by
  have hset : s.set env now sil = s.setCreate env now prev (normalized sil now) :=
    set_eq_setCreate hvalid hfound hunnamed hreplaced
  cases hroom : s.checkCountLimit env with
  | some err =>
    rw [hset]
    simp only [setCreate, hroom]
    exact .refused _ _
  | none =>
    cases huuid : env.uuid with
    | none =>
      rw [hset]
      simp only [setCreate, hroom, huuid]
      exact .refused _ _
    | some uid =>
      cases hfits : checkSizeLimits env (s.creation sil uid now) with
      | some err =>
        unfold creation at hfits
        rw [hset]
        simp only [setCreate, hroom, huuid, hfits]
        exact .refused _ _
      | none =>
        cases hexp : (s.expirePrevious prev now).1 with
        | some err =>
          have hboth : s.expirePrevious prev now = (some err, s, []) :=
            Prod.ext hexp (expirePrevious_error hexp)
          unfold creation at hfits
          rw [hset]
          simp only [setCreate, hroom, huuid, hfits, hboth]
          exact .refused _ _
        | none =>
          have h : Creates s env now sil prev uid :=
            ⟨hvalid, hfound, hunnamed, hreplaced, hroom, huuid, hfits, hexp⟩
          cases hm : (s.creation sil uid now).marshal with
          | none =>
            rw [set_of_creates_none h hm]
            exact .torn prev uid h hm
          | some b =>
            rw [set_of_creates h hm]
            exact .created prev uid h b hm

theorem set_outcome (s : Silences) (env : SetEnv) (now : ℤ) (sil : Silence) :
    SetOutcome s env now sil (s.set env now sil) := by
  cases hvalid : validateSilence env.scheme (normalized sil now) with
  | some err =>
    simp only [set, hvalid]
    exact .refused _ _
  | none =>
    cases hfound : s.getSilence (normalized sil now).id with
    | none =>
      by_cases hid : (normalized sil now).id = []
      · exact setCreate_outcome hvalid hfound (fun _ => hid) (by simp)
      · simp only [set, hvalid, hfound, ne_eq, hid, not_false_eq_true, if_true]
        exact .refused _ _
    | some prev =>
      cases hcan : Silence.canUpdate prev (normalized sil now) now with
      | false =>
        refine setCreate_outcome hvalid hfound (by simp) fun p hp => ?_
        obtain rfl := Option.some.inj hp
        exact hcan
      | true =>
        have hset : s.set env now sil = s.setUpdate env now (normalized sil now) := by
          simp only [set, hvalid, hfound, hcan, if_true]
        cases hfits : checkSizeLimits env (s.update sil now) with
        | some err =>
          unfold update at hfits
          rw [hset]
          simp only [setUpdate, hfits]
          exact .refused _ _
        | none =>
          cases hm : (s.update sil now).marshal with
          | none =>
            unfold update at hfits hm
            rw [hset]
            simp only [setUpdate, hfits, setSilence_of_marshal_none hm]
            exact .refused _ _
          | some b =>
            have h : Updates s env now sil prev := ⟨hvalid, hfound, hcan, hfits⟩
            rw [set_of_updates h hm]
            exact .updated prev h b hm

end

end Alertmanager.Silences
