import Alertmanager.Runs
import Alertmanager.SilenceQueries

/-!
# Runs of one silence store

The store of one node under local changes, gossip and collections. The state of
the machine also has the clock and, for the freshness of generated IDs, the IDs
that have ever been stored. After every sequence of operations the version index
and the matcher index mirror the state.
-/
namespace Alertmanager.SilenceStore

inductive Op
  | set (now : ℤ) (env : Silences.SetEnv) (sil : Silence)
  | expire (now : ℤ) (id : GoString)
  | merge (now : ℤ) (p : Payload) (order : List GoString)
  | gc (now : ℤ)

/-- The reading of the clock at which an operation is executed. -/
def Op.now : Op → ℤ
  | .set now _ _ | .expire now _ | .merge now _ _ | .gc now => now

/-- A possible visiting order of `Merge` over the decoded silences. -/
def Visits (p : Payload) (order : List GoString) : Prop :=
  match decodeState p with
  | .ok st => GoMap.Ranges st order
  | .error _ => True

instance (p : Payload) (order : List GoString) : Decidable (Visits p order) := by
  unfold Visits
  exact match decodeState p with
  | .ok st => inferInstanceAs (Decidable (GoMap.Ranges st order))
  | .error _ => isTrue trivial

/-- `Merge` ranges over what it has decoded. -/
def Ranged : Op → Prop
  | .merge _ p order => Visits p order
  | .set _ _ _ | .expire _ _ | .gc _ => True

instance : (op : Op) → Decidable (Ranged op)
  | .merge _ p order => inferInstanceAs (Decidable (Visits p order))
  | .set _ _ _ | .expire _ _ | .gc _ => isTrue trivial

/-- The silence is among those decoded from the payload. -/
def Decodes (p : Payload) (e : MeshSilence) : Prop :=
  ∃ st id, decodeState p = .ok st ∧ st.lookup id = some e

/-- All decoded silences satisfy a condition. -/
def Carries (P : MeshSilence → Prop) (p : Payload) : Prop :=
  match decodeState p with
  | .ok st => ∀ id ∈ st.keys, ∀ e ∈ st.lookup id, P e
  | .error _ => True

instance (P : MeshSilence → Prop) [DecidablePred P] (p : Payload) : Decidable (Carries P p) := by
  unfold Carries
  exact match decodeState p with
  | .ok st => inferInstanceAs (Decidable (∀ id ∈ st.keys, ∀ e ∈ st.lookup id, P e))
  | .error _ => isTrue trivial

theorem Carries.of_decodes {P : MeshSilence → Prop} {p : Payload} (h : Carries P p)
    {e : MeshSilence} (he : Decodes p e) : P e := by
  obtain ⟨st, id, hdec, he⟩ := he
  simp only [Carries, hdec] at h
  exact h id (Finmap.mem_keys.mpr (GoMap.mem_of_lookup he)) e he

section
variable [Regexp]

structure State where
  silences : Silences
  clock : ℤ
  used : Finset GoString

def init (retention t : ℤ) : State := ⟨Silences.new retention, t, ∅⟩

/-- The clock does not go back, a generated ID was never stored before, and `Merge`
ranges over what it has decoded. -/
def Enabled (s : State) (op : Op) : Prop :=
  s.clock ≤ op.now ∧
  match op with
  | .set _ env _ => ∀ u ∈ env.uuid, u ∉ s.used
  | .merge _ p order => Visits p order
  | .expire _ _ | .gc _ => True

instance (s : State) : (op : Op) → Decidable (Enabled s op)
  | .set now env _ => inferInstanceAs (Decidable (s.clock ≤ now ∧ ∀ u ∈ env.uuid, u ∉ s.used))
  | .merge now p order => inferInstanceAs (Decidable (s.clock ≤ now ∧ Visits p order))
  | .expire now _ | .gc now => inferInstanceAs (Decidable (s.clock ≤ now ∧ True))

theorem Enabled.ranged {s : State} {op : Op} (h : Enabled s op) : Ranged op := by
  cases op with
  | merge now p order => exact h.2
  | set now env sil => trivial
  | expire now id => trivial
  | gc now => trivial

variable [Proto]

/-- The effect of an operation on the store. -/
def apply (s : Silences) : Op → Silences
  | .set now env sil => (s.set env now sil).silences
  | .expire now id => (s.expire id now).2.1
  | .merge now p order => (s.merge p now order).2.1
  | .gc now => (s.gc now).1

def next (s : State) (op : Op) : State :=
  ⟨apply s.silences op, op.now, s.used ∪ (apply s.silences op).st.keys⟩

/-- The silences that an operation offers to the state, each when its turn comes. What
`Merge` offers meets the state that it found under the silence's ID. -/
def Offers (s₀ : Silences) : Op → Silences → MeshSilence → Prop
  | .set now env sil =>
    Silences.LocalPut s₀ env.uuid (Silences.normalized sil now).matcherSets now
  | .expire now _ => Silences.LocalPut s₀ none [] now
  | .merge _ p _ => fun s e =>
    Decodes p e ∧ s.st.lookup e.silence.id = s₀.st.lookup e.silence.id
  | .gc _ => fun _ _ => False

/-- An operation is a collection or a sequence of merges of what it offers. -/
theorem apply_cases {s : Silences} (hs : s.WellFormed) {op : Op} (hop : Ranged op) :
    (∃ now, op = .gc now ∧ Silences.Collected now s (apply s op)) ∨
      Silences.Puts (Offers s op) op.now s (apply s op) := by
  cases op with
  | set now env sil => exact Or.inr (Silences.set_puts hs env now sil)
  | expire now id => exact Or.inr (Silences.expire_puts hs s none [] id now)
  | merge now p order =>
    right
    simp only [apply, Silences.merge]
    cases hdec : decodeState p with
    | error err => exact Relation.ReflTransGen.refl
    | ok st =>
      simp only [Ranged, Visits, hdec] at hop
      have hid := decodeState_id hdec
      refine Silences.Puts.weaken ?_ (Silences.mergeLoop_puts p now hid hop.nodup s)
      rintro s' e ⟨id, -, he, hlook⟩
      rw [← hid id e he] at hlook
      exact ⟨⟨st, id, hdec, he⟩, hlook⟩
  | gc now => exact Or.inl ⟨now, rfl, Silences.gc_collected hs now⟩

theorem wellFormed_apply {s : Silences} (hs : s.WellFormed) (op : Op) :
    (apply s op).WellFormed := by
  cases op with
  | set now env sil => exact (Silences.set_puts hs env now sil).wellFormed hs
  | expire now id => exact (Silences.expire_puts hs s none [] id now).wellFormed hs
  | merge now p order => exact Silences.wellFormed_merge hs p now order
  | gc now => exact Silences.wellFormed_collected hs (Silences.gc_collected hs now)

theorem wellFormed_of_run {E : State → Op → Prop} {retention t : ℤ} {ops : List Op} {s : State}
    (hrun : Run (Fires E next) (init retention t) ops s) : s.silences.WellFormed := by
  refine hrun.invariant (I := fun s => s.silences.WellFormed) ?_
    (Silences.wellFormed_new retention)
  rintro s op s' hs ⟨-, rfl⟩
  exact wellFormed_apply hs op

/-- After every sequence of operations the version index lists the stored IDs once
each, in the order of strictly increasing versions, the matcher index has no other
IDs, and a collection removes exactly the silences whose expiry is unset or not
after now. No scan meets an entry of the index without a stored silence, and no
collection reports one. -/
theorem indexes_mirror_state {E : State → Op → Prop} {retention t : ℤ} {ops : List Op}
    {s : State} (hrun : Run (Fires E next) (init retention t) ops s) :
    s.silences.WellFormed ∧
    (∀ now id, (s.silences.gc now).1.st.lookup id =
      (s.silences.st.lookup id).filter fun e => !Silences.collectable e now) ∧
    (∀ now id, SilenceError.missingState id ∉ (s.silences.gc now).2.2) ∧
    (∀ sv ∈ s.silences.vi, ∃ sil, s.silences.visit sv = .ok sil) ∧
    (∀ params now id, (s.silences.query params now).2.2 ≠ some (.missingState id)) ∧
    ∀ states now, ∃ n, s.silences.countState states now = .ok n := by
  have hs := wellFormed_of_run hrun
  refine ⟨hs, fun now => (Silences.gc_collected hs now).st, fun now id h => ?_, fun sv hsv => ?_,
    Silences.query_ne_missingState hs, fun states now => ⟨_, Silences.countState_eq hs states now⟩⟩
  · obtain ⟨id', h'⟩ := Silences.gc_reports hs h
    cases h'
  · obtain ⟨e, he⟩ := hs.exists_stored hsv
    exact ⟨e.silence, by simp [Silences.visit, Silences.getSilence, he]⟩

end

section
attribute [local instance] noRegexp zeroProto

/-- A silence for `a="1"` with the given times. -/
def silenceFrom (id : String) (startsAt endsAt updatedAt : ℤ) : Silence where
  id := str id
  matchers := []
  startsAt := some startsAt
  endsAt := some endsAt
  updatedAt := some updatedAt
  comments := []
  createdBy := []
  comment := []
  annotations := ∅
  matcherSets := [[⟨.equal, str "a", str "1"⟩]]
  receiverMatcherSets := []

/-- A payload with one silence. -/
def carrying (sil : Silence) (expiresAt : ℤ) : Payload :=
  ⟨[⟨some sil, some expiresAt⟩], true, 100⟩

/-- A silence is collected and arrives once more with a later expiry. -/
def readdedRun : List Op :=
  [.merge 1 (carrying (silenceFrom "x" 1 10 1) 10) [str "x"], .gc 20,
    .merge 30 (carrying (silenceFrom "x" 1 10 2) 100) [str "x"]]

/-- The silence has the next version, and no collection misses it. -/
theorem indexes_mirror_state_readded :
    let s := readdedRun.foldl next (init 0 0)
    s.silences.vi = [⟨str "x", 2⟩] ∧ s.silences.WellFormed ∧
      ∀ now id, SilenceError.missingState id ∉ (s.silences.gc now).2.2 := by
  intro s
  have hrun : Run (Fires Enabled next) (init 0 0) readdedRun s :=
    Run.of_feasible (by decide +kernel)
  obtain ⟨hs, -, hreports, -⟩ := indexes_mirror_state hrun
  exact ⟨by decide +kernel, hs, hreports⟩

end

end Alertmanager.SilenceStore
