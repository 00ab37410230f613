import Alertmanager.SilenceStore

/-!
# Old versions of a silence

A stored silence is replaced by newer versions only, so its time stamp grows as long
as it is stored. A collection forgets the time stamp. A delayed message can then
bring an older version back, unless all older versions have expired for the mesh by
the time of the collection.
-/
namespace Alertmanager.SilenceStore

section
variable [Regexp]

/-- What keeps old versions away, for the versions `V` that are in circulation: merged
silences are among them, and a silence is collected only after all older versions
of it have expired for the mesh. -/
def Outlived (V : Finset MeshSilence) (s : State) : Op → Prop
  | .merge _ p _ => Carries (· ∈ V) p
  | .gc now => ∀ id ∈ s.silences.st.keys, ∀ e ∈ s.silences.st.lookup id,
      Silences.collectable e now = true →
      ∀ v ∈ V, v.silence.id = id → v.stamp < e.stamp → asTime v.expiresAt < now
  | .set _ _ _ | .expire _ _ => True

instance (V : Finset MeshSilence) (s : State) : (op : Op) → Decidable (Outlived V s op)
  | .merge _ p _ => inferInstanceAs (Decidable (Carries (· ∈ V) p))
  | .gc now => inferInstanceAs (Decidable (∀ id ∈ s.silences.st.keys,
      ∀ e ∈ s.silences.st.lookup id, Silences.collectable e now = true →
      ∀ v ∈ V, v.silence.id = id → v.stamp < e.stamp → asTime v.expiresAt < now))
  | .set _ _ _ | .expire _ _ => isTrue trivial

/-- The stored version of a silence is not older than `u`, or it is not stored and
all versions in circulation that are older than `u` have expired for the mesh. -/
structure Floor (V : Finset MeshSilence) (x : GoString) (u now : ℤ) (s : Silences) : Prop where
  stored : ∀ e, s.st.lookup x = some e → u ≤ e.stamp
  missing : s.st.lookup x = none →
    ∀ v ∈ V, v.silence.id = x → v.stamp < u → asTime v.expiresAt < now

variable {V : Finset MeshSilence} {x : GoString} {u now : ℤ} {s : Silences}

theorem Floor.later (h : Floor V x u now s) {now' : ℤ} (hle : now ≤ now') :
    Floor V x u now' s where
  stored := h.stored
  missing hnone v hv hid hold := (h.missing hnone v hv hid hold).trans_le hle

/-- Merging a silence keeps the bound if a silence that is not stored is offered in a
version in circulation only. -/
theorem floor_mergeSilence (h : Floor V x u now s) {e : MeshSilence}
    (he : e.silence.id = x → s.st.lookup x = none → e ∈ V) :
    Floor V x u now (s.mergeSilence e now).1 := by
  constructor
  · intro e' he'
    rw [Silences.lookup_mergeSilence] at he'
    split_ifs at he' with hacc
    · obtain ⟨rfl, hlive, hnewer⟩ := hacc
      obtain rfl := Option.some.inj he'
      change u ≤ asTime e.silence.upgradeComments.updatedAt
      rw [Silence.upgradeComments_updatedAt]
      cases hprev : s.st.lookup e.silence.id with
      | none =>
        by_contra hold
        have hexp := h.missing hprev e (he rfl hprev) rfl (not_le.mp hold)
        omega
      | some prev =>
        have hfloor := h.stored prev hprev
        exact hfloor.trans (hnewer prev hprev).le
    · exact h.stored e' he'
  · intro hnone
    rw [Silences.lookup_mergeSilence] at hnone
    split_ifs at hnone
    exact h.missing hnone

theorem floor_collected (h : Floor V x u now s) {s' : Silences}
    (hgc : Silences.Collected now s s')
    (hout : ∀ e, s.st.lookup x = some e → Silences.collectable e now = true →
      ∀ v ∈ V, v.silence.id = x → v.stamp < e.stamp → asTime v.expiresAt < now) :
    Floor V x u now s' := by
  constructor
  · intro e he
    rw [hgc.st, Option.filter_eq_some_iff] at he
    exact h.stored e he.1
  · intro hnone v hv hid hold
    rw [hgc.st] at hnone
    cases he : s.st.lookup x with
    | none => exact h.missing he v hv hid hold
    | some e =>
      have hc : Silences.collectable e now = true := by
        simpa [he, Option.filter] using hnone
      exact hout e he hc v hv hid (hold.trans_le (h.stored e he))

end

section
variable [Regexp] [Proto] {V : Finset MeshSilence} {x : GoString} {u : ℤ}

/-- A guarded step keeps the bound on a silence that was stored once. -/
theorem floor_next {s : State} (hs : s.silences.WellFormed) (hx : x ∈ s.used)
    (h : Floor V x u s.clock s.silences) {op : Op} (hout : Outlived V s op) (hen : Enabled s op) :
    Floor V x u op.now (apply s.silences op) := by
  have hlater := h.later hen.1
  obtain ⟨now, rfl, hgc⟩ | hputs := apply_cases hs hen.ranged
  · refine floor_collected hlater hgc fun e he => ?_
    exact hout x (Finmap.mem_keys.mpr (GoMap.mem_of_lookup he)) e he
  · refine hputs.invariant (I := Floor V x u op.now)
      (fun s' e hI hoffer => floor_mergeSilence hI fun hid hnone => ?_) hlater
    cases op with
    | set now env sil =>
      obtain ⟨prev, hprev, -⟩ | ⟨huuid, -⟩ := hoffer
      · rw [hid, hnone] at hprev
        cases hprev
      · exact absurd hx (hen.2 x (hid ▸ huuid))
    | expire now id =>
      obtain ⟨prev, hprev, -⟩ | ⟨huuid, -⟩ := hoffer
      · rw [hid, hnone] at hprev
        cases hprev
      · cases huuid
    | merge now p order => exact hout.of_decodes hoffer.1
    | gc now => exact hoffer.elim

theorem stored_used {retention t : ℤ} {ops : List Op} {s : State}
    (hrun : Run (Fires Enabled next) (init retention t) ops s) :
    ∀ id ∈ s.silences.st, id ∈ s.used := by
  refine hrun.invariant (I := fun s => ∀ id ∈ s.silences.st, id ∈ s.used) ?_
    (fun id hid => absurd hid Finmap.notMem_empty)
  rintro s op s' hs ⟨-, rfl⟩ id hid
  exact Finset.mem_union_right _ (Finmap.mem_keys.mpr hid)

/-- Once a version of a silence has been stored, no later state holds an older one,
as long as silences are collected only after all their older versions in
circulation have expired. -/
theorem old_version_never_returns {retention t : ℤ} {ops : List Op} {s : State}
    (hrun : Run (Fires Enabled next) (init retention t) ops s) {e : MeshSilence}
    (he : s.silences.st.lookup x = some e) {ops' : List Op} {s' : State}
    (hrun' : Run (Guarded (Outlived V) (Fires Enabled next)) s ops' s') {e' : MeshSilence}
    (he' : s'.silences.st.lookup x = some e') :
    asTime e.silence.updatedAt ≤ asTime e'.silence.updatedAt := by
  have hstart : s.silences.WellFormed ∧ x ∈ s.used ∧
      Floor V x (asTime e.silence.updatedAt) s.clock s.silences := by
    refine ⟨wellFormed_of_run hrun, stored_used hrun x (GoMap.mem_of_lookup he), ?_, ?_⟩
    · intro e₀ he₀
      obtain rfl := Option.some.inj (he.symm.trans he₀)
      exact le_rfl
    · intro hnone
      rw [hnone] at he
      cases he
  have hend := hrun'.invariant (I := fun s => s.silences.WellFormed ∧ x ∈ s.used ∧
    Floor V x (asTime e.silence.updatedAt) s.clock s.silences) (fun s op s' hs hstep => by
      obtain ⟨hout, hen, rfl⟩ := hstep
      exact ⟨wellFormed_apply hs.1 op, Finset.mem_union_left _ hs.2.1,
        floor_next hs.1 hs.2.1 hs.2.2 hout hen⟩) hstart
  exact hend.2.2.stored e' he'

end

section
attribute [local instance] noRegexp zeroProto

/-- A silence until 1000 arrives and is expired at 10, which also moves its expiry
for the mesh to 10. -/
def expiredEarly : List Op :=
  [.merge 1 (carrying (silenceFrom "x" 1 1000 1) 1000) [str "x"], .expire 10 (str "x")]

/-- It is collected, and the first message is delivered once more. -/
def delayedCopy : List Op :=
  [.gc 11, .merge 12 (carrying (silenceFrom "x" 1 1000 1) 1000) [str "x"]]

/-- The version of 10 is stored, and later the version of 1 again, active. -/
theorem old_version_returns :
    let s := expiredEarly.foldl next (init 0 0)
    let s' := delayedCopy.foldl next s
    Run (Fires Enabled next) (init 0 0) expiredEarly s ∧
    Run (Fires Enabled next) s delayedCopy s' ∧
    (s.silences.st.lookup (str "x")).any (fun e => decide (e.stamp = 10)) = true ∧
    (s'.silences.st.lookup (str "x")).any (fun e =>
      decide (e.stamp = 1) && decide (e.silence.getState 12 = .active)) = true := by
  refine ⟨Run.of_feasible (by decide +kernel), Run.of_feasible (by decide +kernel),
    by decide +kernel, by decide +kernel⟩

/-- A version of 20 that arrives after the collection at 1001 is newer. -/
theorem old_version_never_returns_collected :
    let old : MeshSilence := ⟨silenceFrom "x" 1 1000 1, some 1000⟩
    let new : MeshSilence := ⟨silenceFrom "x" 1 5000 20, some 5000⟩
    let s := expiredEarly.foldl next (init 0 0)
    let s' := [Op.gc 1001, Op.merge 1002 (carrying new.silence 5000) [str "x"]].foldl next s
    s.silences.st.lookup (str "x") =
      some ⟨{ old.silence with endsAt := some 10, updatedAt := some 10 }, some 10⟩ ∧
    s'.silences.st.lookup (str "x") = some new ∧ 10 ≤ asTime new.silence.updatedAt := by
  intro old new s s'
  have hrun : Run (Fires Enabled next) (init 0 0) expiredEarly s :=
    Run.of_feasible (by decide +kernel)
  have hrun' : Run (Guarded (Outlived {old, new}) (Fires Enabled next)) s
      [.gc 1001, .merge 1002 (carrying new.silence 5000) [str "x"]] s' :=
    Run.of_feasible_guarded (by decide +kernel)
  have he : s.silences.st.lookup (str "x") =
      some ⟨{ old.silence with endsAt := some 10, updatedAt := some 10 }, some 10⟩ := by
    decide +kernel
  have he' : s'.silences.st.lookup (str "x") = some new := by decide +kernel
  exact ⟨he, he', old_version_never_returns hrun he hrun' he'⟩

end

end Alertmanager.SilenceStore
