import Alertmanager.SilenceOutcomes

/-!
# The indexes of the silence store

Every change of the store goes through two doors: a silence is merged into the
state, or a collection removes silences. The version index lists the stored IDs
once each, in the order of strictly increasing versions, and the matcher index
has no other IDs. Both doors keep this, so every operation does.
-/
namespace Alertmanager.Silences

variable [Regexp]

/-- The indexes mirror the state. -/
structure WellFormed (s : Silences) : Prop where
  nodup : (s.vi.map SilenceVersion.id).Nodup
  mem : ∀ id, id ∈ s.vi.map SilenceVersion.id ↔ id ∈ s.st
  ident : ∀ id e, s.st.lookup id = some e → e.silence.id = id
  sorted : s.vi.Pairwise fun a b => a.version < b.version
  bound : ∀ sv ∈ s.vi, 0 < sv.version ∧ sv.version ≤ s.version
  indexed : ∀ id ms, s.mi.lookup id = some ms → id ∈ s.st

theorem wellFormed_new (retention : ℤ) : WellFormed (new retention) where
  nodup := List.nodup_nil
  mem id := by simp [new, Finmap.notMem_empty]
  ident id e h := by simp [new] at h
  sorted := List.Pairwise.nil
  bound sv h := by simp [new] at h
  indexed id ms h := by simp [new] at h

section
variable {s : Silences}

/-- A stored silence has an entry in the version index. -/
theorem WellFormed.exists_version (hs : WellFormed s) {id : GoString} {e : MeshSilence}
    (h : s.st.lookup id = some e) : ∃ sv ∈ s.vi, sv.id = id := by
  have hmem := (hs.mem id).mpr (GoMap.mem_of_lookup h)
  simpa using hmem

/-- An entry of the version index has a stored silence. -/
theorem WellFormed.exists_stored (hs : WellFormed s) {sv : SilenceVersion} (h : sv ∈ s.vi) :
    ∃ e, s.st.lookup sv.id = some e :=
  Finmap.mem_iff.mp ((hs.mem sv.id).mp (List.mem_map_of_mem h))

theorem WellFormed.stored_under_id (hs : WellFormed s) {sv : SilenceVersion} (h : sv ∈ s.vi) :
    ∃ e, s.st.lookup sv.id = some e ∧ e.silence.id = sv.id := by
  obtain ⟨e, he⟩ := hs.exists_stored h
  exact ⟨e, he, hs.ident _ _ he⟩

/-! ### Merging one silence -/

/-- What merging one silence can do to the store. -/
inductive MergeOutcome (s : Silences) (e : MeshSilence) (now : ℤ) : Silences × Bool × Bool → Prop
  | kept : MergeOutcome s e now (s, false, false)
  | added (hexp : now ≤ asTime e.expiresAt) (hfresh : s.st.lookup e.silence.id = none) :
      MergeOutcome s e now
        (indexSilence
          { s with st := s.st.insert e.silence.id ⟨e.silence.upgradeComments, e.expiresAt⟩ }
          e.silence.upgradeComments, true, true)
  | replaced (hexp : now ≤ asTime e.expiresAt) (prev : MeshSilence)
      (hprev : s.st.lookup e.silence.id = some prev)
      (hnewer : asTime prev.silence.updatedAt < asTime e.silence.updatedAt) :
      MergeOutcome s e now
        ({ s with st := s.st.insert e.silence.id ⟨e.silence.upgradeComments, e.expiresAt⟩ },
          true, false)

theorem mergeSilence_outcome (s : Silences) (e : MeshSilence) (now : ℤ) :
    MergeOutcome s e now (s.mergeSilence e now) := by
  by_cases hexp : asTime e.expiresAt < now
  · have h : s.mergeSilence e now = (s, false, false) := by
      simp [mergeSilence, stateMerge, hexp]
    rw [h]
    exact MergeOutcome.kept
  · have hlive := not_lt.mp hexp
    cases hprev : s.st.lookup e.silence.id with
    | none =>
      have h : s.mergeSilence e now = (indexSilence
          { s with st := s.st.insert e.silence.id ⟨e.silence.upgradeComments, e.expiresAt⟩ }
          e.silence.upgradeComments, true, true) := by
        simp [mergeSilence, stateMerge_of_live hexp, LastWriter.accepts_of_lookup_none hprev,
          hprev, MeshSilence.upgraded, hexp]
      rw [h]
      exact MergeOutcome.added hlive hprev
    | some prev =>
      by_cases hnewer : asTime prev.silence.updatedAt < asTime e.silence.updatedAt
      · have hacc : LastWriter.accepts MeshSilence.stamp s.st e.silence.id
            ⟨e.silence.upgradeComments, e.expiresAt⟩ = true :=
          (LastWriter.accepts_of_lookup hprev).mpr (by simpa [MeshSilence.stamp] using hnewer)
        have h : s.mergeSilence e now =
            ({ s with st := s.st.insert e.silence.id ⟨e.silence.upgradeComments, e.expiresAt⟩ },
              true, false) := by
          simp [mergeSilence, stateMerge_of_live hexp, hacc, hprev]
        rw [h]
        exact MergeOutcome.replaced hlive prev hprev hnewer
      · have hacc : LastWriter.accepts MeshSilence.stamp s.st e.silence.id
            ⟨e.silence.upgradeComments, e.expiresAt⟩ = false := by
          rw [← Bool.not_eq_true, LastWriter.accepts_of_lookup hprev]
          simpa [MeshSilence.stamp] using hnewer
        have h : s.mergeSilence e now = (s, false, false) := by
          simp [mergeSilence, stateMerge_of_live hexp, hacc]
        rw [h]
        exact MergeOutcome.kept

/-- A silence that is expired for the mesh, or not newer than the stored one, is
not merged. -/
theorem mergeSilence_eq_self {s : Silences} {e : MeshSilence} {now : ℤ} (prev : MeshSilence)
    (h : asTime e.expiresAt < now ∨ (s.st.lookup e.silence.id = some prev ∧
      asTime e.silence.updatedAt ≤ asTime prev.silence.updatedAt)) :
    (s.mergeSilence e now).1 = s := by
  have hout := mergeSilence_outcome s e now
  generalize s.mergeSilence e now = r at hout
  cases hout with
  | kept => rfl
  | added hexp hfresh =>
    rcases h with h | ⟨h, -⟩
    · omega
    · rw [hfresh] at h
      cases h
  | replaced hexp prev' hprev hnewer =>
    rcases h with h | ⟨h, hle⟩
    · omega
    · rw [hprev] at h
      obtain rfl := Option.some.inj h
      omega

/-- When merging a silence changes the state: it is not expired for the mesh, and
what is stored under its ID is older. -/
def Accepts (s : Silences) (e : MeshSilence) (now : ℤ) : Prop :=
  now ≤ asTime e.expiresAt ∧ ∀ prev ∈ s.st.lookup e.silence.id,
    asTime prev.silence.updatedAt < asTime e.silence.updatedAt

instance (s : Silences) (e : MeshSilence) (now : ℤ) : Decidable (Accepts s e now) :=
  inferInstanceAs (Decidable (_ ∧ _))

theorem mergeSilence_of_accepts {e : MeshSilence} {now : ℤ} (h : Accepts s e now) :
    (s.mergeSilence e now).1.st =
        s.st.insert e.silence.id ⟨e.silence.upgradeComments, e.expiresAt⟩ ∧
      (s.mergeSilence e now).2.1 = true := by
  have hexp : ¬ asTime e.expiresAt < now := not_lt.mpr h.1
  have hacc : LastWriter.accepts MeshSilence.stamp s.st e.silence.id
      ⟨e.silence.upgradeComments, e.expiresAt⟩ = true :=
    LastWriter.accepts_iff.mpr fun prev hprev => by
      simpa [MeshSilence.stamp] using h.2 prev hprev
  simp only [mergeSilence, stateMerge_of_live hexp, hacc, if_true]
  split_ifs <;> exact ⟨rfl, trivial⟩

theorem mergeSilence_of_not_accepts {e : MeshSilence} {now : ℤ} (h : ¬ Accepts s e now) :
    s.mergeSilence e now = (s, false, false) := by
  have hout := mergeSilence_outcome s e now
  generalize s.mergeSilence e now = r at hout
  cases hout with
  | kept => rfl
  | added hexp hfresh => exact absurd ⟨hexp, fun prev hprev => by simp [hfresh] at hprev⟩ h
  | replaced hexp prev hprev hnewer =>
    refine absurd ⟨hexp, fun prev' hprev' => ?_⟩ h
    obtain rfl : prev = prev' := Option.some.inj (hprev.symm.trans hprev')
    exact hnewer

theorem lookup_mergeSilence (s : Silences) (e : MeshSilence) (now : ℤ) (id : GoString) :
    (s.mergeSilence e now).1.st.lookup id =
      if id = e.silence.id ∧ Accepts s e now then
        some ⟨e.silence.upgradeComments, e.expiresAt⟩
      else s.st.lookup id := by
  by_cases hacc : Accepts s e now
  · rw [(mergeSilence_of_accepts hacc).1, GoMap.lookup_insert_eq]
    simp [hacc]
  · rw [mergeSilence_of_not_accepts hacc, if_neg (fun h => hacc h.2)]

theorem wellFormed_replaced (hs : WellFormed s) {id : GoString} {e : MeshSilence}
    (hid : e.silence.id = id) (hmem : id ∈ s.st) :
    WellFormed { s with st := s.st.insert id e } where
  nodup := hs.nodup
  mem id' := by
    rw [hs.mem, Finmap.mem_insert]
    constructor
    · exact Or.inr
    · rintro (rfl | h)
      · exact hmem
      · exact h
  ident id' e' h := by
    rw [GoMap.lookup_insert_eq] at h
    split_ifs at h with hk
    · obtain rfl := Option.some.inj h
      rw [hid, hk]
    · exact hs.ident id' e' h
  sorted := hs.sorted
  bound := hs.bound
  indexed id' ms h := Finmap.mem_insert.mpr (Or.inr (hs.indexed id' ms h))

theorem wellFormed_added (hs : WellFormed s) {e : MeshSilence}
    (hfresh : e.silence.id ∉ s.st) :
    WellFormed (indexSilence { s with st := s.st.insert e.silence.id e } e.silence) where
  nodup := by
    have hnot : e.silence.id ∉ s.vi.map SilenceVersion.id := by
      rw [hs.mem]
      exact hfresh
    simp only [indexSilence, List.map_append, List.map_cons, List.map_nil]
    rw [List.nodup_append]
    refine ⟨hs.nodup, List.nodup_singleton _, ?_⟩
    rintro a ha b hb rfl
    rw [List.mem_singleton] at hb
    exact hnot (hb ▸ ha)
  mem id := by
    simp only [indexSilence, List.map_append, List.mem_append, hs.mem, Finmap.mem_insert]
    simp [or_comm]
  ident id e' h := by
    simp only [indexSilence] at h
    rw [GoMap.lookup_insert_eq] at h
    split_ifs at h with hk
    · obtain rfl := Option.some.inj h
      exact hk.symm
    · exact hs.ident id e' h
  sorted := by
    simp only [indexSilence]
    rw [List.pairwise_append]
    refine ⟨hs.sorted, List.pairwise_singleton _ _, ?_⟩
    intro a ha b hb
    rw [List.mem_singleton] at hb
    have hle := (hs.bound a ha).2
    subst hb
    exact Nat.lt_succ_of_le hle
  bound sv h := by
    simp only [indexSilence, List.mem_append, List.mem_singleton] at h ⊢
    rcases h with h | rfl
    · have hb := hs.bound sv h
      omega
    · exact ⟨Nat.succ_pos _, le_rfl⟩
  indexed id ms h := by
    simp only [indexSilence] at h ⊢
    rw [Finmap.mem_insert]
    cases hc : compileMatcherSets e.silence.matcherSets with
    | none =>
      rw [hc] at h
      exact Or.inr (hs.indexed id ms h)
    | some cs =>
      rw [hc] at h
      simp only at h
      rw [GoMap.lookup_insert_eq] at h
      split_ifs at h with hk
      · exact Or.inl hk
      · exact Or.inr (hs.indexed id ms h)

theorem wellFormed_mergeSilence (hs : WellFormed s) (e : MeshSilence) (now : ℤ) :
    WellFormed (s.mergeSilence e now).1 := by
  have hout := mergeSilence_outcome s e now
  generalize s.mergeSilence e now = r at hout
  cases hout with
  | kept => exact hs
  | added hexp hfresh =>
    have hnot : e.silence.id ∉ s.st := Finmap.lookup_eq_none.mp hfresh
    have h := wellFormed_added hs (e := ⟨e.silence.upgradeComments, e.expiresAt⟩)
      (by simpa using hnot)
    simpa using h
  | replaced hexp prev hprev hnewer =>
    exact wellFormed_replaced hs (by simp) (GoMap.mem_of_lookup hprev)

/-! ### Collection -/

/-- What the collection loop does to the part of the index it visits. -/
structure Swept (now : ℤ) (visited : List SilenceVersion) (s : Silences)
    (r : List SilenceVersion × Silences) : Prop where
  vi : r.1 = visited.filter fun sv => (s.st.lookup sv.id).any fun e => !collectable e now
  st : ∀ id, r.2.st.lookup id = if id ∈ visited.map SilenceVersion.id then
    (s.st.lookup id).filter (fun e => !collectable e now) else s.st.lookup id
  mi : ∀ id, r.2.mi.lookup id = if id ∈ visited.map SilenceVersion.id ∧
    (s.st.lookup id).any (fun e => collectable e now) = true then none else s.mi.lookup id
  version : r.2.version = s.version
  retention : r.2.retention = s.retention

theorem Swept.cons_collected {now : ℤ} {sv : SilenceVersion} {vi : List SilenceVersion}
    {s : Silences} {r : List SilenceVersion × Silences} {e : MeshSilence}
    (hnew : sv.id ∉ vi.map SilenceVersion.id) (he : s.st.lookup sv.id = some e)
    (hc : collectable e now = true)
    (h : Swept now vi { s with st := s.st.erase sv.id, mi := s.mi.erase sv.id } r) :
    Swept now (sv :: vi) s r := by
  refine ⟨?_, ?_, ?_, h.version, h.retention⟩
  · rw [h.vi, List.filter_cons_of_neg (by simp [he, hc])]
    refine List.filter_congr fun sv' hsv' => ?_
    have hne : sv'.id ≠ sv.id := fun heq => hnew (heq ▸ List.mem_map_of_mem hsv')
    rw [Finmap.lookup_erase_ne hne]
  · intro id
    rw [h.st, List.map_cons]
    by_cases hk : id = sv.id
    · subst hk
      simp [hnew, he, hc, Option.filter]
    · simp [hk, Finmap.lookup_erase_ne hk]
  · intro id
    rw [h.mi, List.map_cons]
    by_cases hk : id = sv.id
    · subst hk
      simp [hnew, he, hc]
    · simp [hk, Finmap.lookup_erase_ne hk]

theorem Swept.cons_kept {now : ℤ} {sv : SilenceVersion} {vi : List SilenceVersion}
    {s : Silences} {r : List SilenceVersion × Silences} {e : MeshSilence}
    (hnew : sv.id ∉ vi.map SilenceVersion.id) (he : s.st.lookup sv.id = some e)
    (hc : collectable e now = false) (h : Swept now vi s r) :
    Swept now (sv :: vi) s (sv :: r.1, r.2) := by
  refine ⟨?_, ?_, ?_, h.version, h.retention⟩
  · rw [List.filter_cons_of_pos (by simp [he, hc])]
    exact congrArg (sv :: ·) h.vi
  · intro id
    rw [h.st, List.map_cons]
    by_cases hk : id = sv.id
    · subst hk
      simp [hnew, he, hc, Option.filter]
    · simp [hk]
  · intro id
    rw [h.mi, List.map_cons]
    by_cases hk : id = sv.id
    · subst hk
      simp [hnew, he, hc]
    · simp [hk]

omit [Regexp] in
theorem stored_erase {st : GoMap GoString MeshSilence} {sv : SilenceVersion}
    {vi : List SilenceVersion} (hnew : sv.id ∉ vi.map SilenceVersion.id)
    (h : ∀ sv' ∈ sv :: vi, ∃ e, st.lookup sv'.id = some e ∧ e.silence.id = sv'.id) :
    ∀ sv' ∈ vi, ∃ e, (st.erase sv.id).lookup sv'.id = some e ∧ e.silence.id = sv'.id := by
  intro sv' hsv'
  have hne : sv'.id ≠ sv.id := fun heq => hnew (heq ▸ List.mem_map_of_mem hsv')
  rw [Finmap.lookup_erase_ne hne]
  exact h sv' (List.mem_cons_of_mem _ hsv')

theorem gcLoop_swept (now : ℤ) (vi : List SilenceVersion) (s : Silences)
    (hnodup : (vi.map SilenceVersion.id).Nodup)
    (hstored : ∀ sv ∈ vi, ∃ e, s.st.lookup sv.id = some e ∧ e.silence.id = sv.id) :
    Swept now vi s ((gcLoop now vi s).1, (gcLoop now vi s).2.1) := by
  induction vi generalizing s with
  | nil =>
    refine ⟨rfl, ?_, ?_, rfl, rfl⟩
    · intro id
      simp [gcLoop]
    · intro id
      simp [gcLoop]
  | cons sv vi ih =>
    obtain ⟨e, he, hid⟩ := hstored sv List.mem_cons_self
    rw [List.map_cons, List.nodup_cons] at hnodup
    cases hc : collectable e now with
    | true =>
      have h := ih { s with st := s.st.erase sv.id, mi := s.mi.erase sv.id } hnodup.2
        (stored_erase hnodup.1 hstored)
      simp only [gcLoop, he, hc, hid, if_true]
      exact h.cons_collected hnodup.1 he hc
    | false =>
      have h := ih s hnodup.2 (fun sv' hsv' => hstored sv' (List.mem_cons_of_mem _ hsv'))
      simp only [gcLoop, he, hc, Bool.false_eq_true, if_false]
      exact h.cons_kept hnodup.1 he hc

/-- `GC` removes from the state and from both indexes exactly the silences whose
expiry is unset or not after now. -/
structure Collected (now : ℤ) (s s' : Silences) : Prop where
  vi : s'.vi = s.vi.filter fun sv => (s.st.lookup sv.id).any fun e => !collectable e now
  st : ∀ id, s'.st.lookup id = (s.st.lookup id).filter fun e => !collectable e now
  mi : ∀ id, s'.mi.lookup id =
    if (s.st.lookup id).any (fun e => collectable e now) = true then none else s.mi.lookup id
  version : s'.version = s.version
  retention : s'.retention = s.retention

theorem gc_collected (hs : WellFormed s) (now : ℤ) : Collected now s (s.gc now).1 := by
  have h := gcLoop_swept now s.vi s hs.nodup (fun _ hsv => hs.stored_under_id hsv)
  refine ⟨h.vi, ?_, ?_, h.version, h.retention⟩
  · intro id
    have hst := h.st id
    by_cases hmem : id ∈ s.vi.map SilenceVersion.id
    · rw [if_pos hmem] at hst
      exact hst
    · rw [if_neg hmem] at hst
      have hnone : s.st.lookup id = none := by
        rw [hs.mem] at hmem
        exact Finmap.lookup_eq_none.mpr hmem
      simpa [gc, hnone, Option.filter] using hst
  · intro id
    have hmi := h.mi id
    by_cases hmem : id ∈ s.vi.map SilenceVersion.id
    · simpa [gc, hmem] using hmi
    · have hnone : s.st.lookup id = none := by
        rw [hs.mem] at hmem
        exact Finmap.lookup_eq_none.mpr hmem
      simpa [gc, hmem, hnone] using hmi

theorem gcLoop_reports (now : ℤ) (vi : List SilenceVersion) (s : Silences)
    (hnodup : (vi.map SilenceVersion.id).Nodup)
    (hstored : ∀ sv ∈ vi, ∃ e, s.st.lookup sv.id = some e ∧ e.silence.id = sv.id)
    {err : SilenceError} (h : err ∈ (gcLoop now vi s).2.2.2) :
    ∃ id, err = .zeroExpiration id := by
  induction vi generalizing s with
  | nil => simp [gcLoop] at h
  | cons sv vi ih =>
    obtain ⟨e, he, hid⟩ := hstored sv List.mem_cons_self
    rw [List.map_cons, List.nodup_cons] at hnodup
    cases hc : collectable e now with
    | true =>
      simp only [gcLoop, he, hc, hid, if_true, List.mem_append] at h
      rcases h with h | h
      · split_ifs at h
        · exact ⟨_, List.mem_singleton.mp h⟩
        · simp at h
      · exact ih { s with st := s.st.erase sv.id, mi := s.mi.erase sv.id } hnodup.2
          (stored_erase hnodup.1 hstored) h
    | false =>
      simp only [gcLoop, he, hc, Bool.false_eq_true, if_false] at h
      exact ih s hnodup.2 (fun sv' hsv' => hstored sv' (List.mem_cons_of_mem _ hsv')) h

theorem gc_reports (hs : WellFormed s) {now : ℤ} {err : SilenceError}
    (h : err ∈ (s.gc now).2.2) : ∃ id, err = .zeroExpiration id :=
  gcLoop_reports now s.vi s hs.nodup (fun _ hsv => hs.stored_under_id hsv) h

theorem wellFormed_collected (hs : WellFormed s) {now : ℤ} {s' : Silences}
    (h : Collected now s s') : WellFormed s' where
  nodup := by
    rw [h.vi]
    exact hs.nodup.sublist (List.filter_sublist.map _)
  mem id := by
    rw [h.vi, Finmap.mem_iff]
    simp only [h.st, List.mem_map, List.mem_filter, Option.filter_eq_some_iff]
    constructor
    · rintro ⟨sv, ⟨-, hkeep⟩, rfl⟩
      obtain ⟨e, he, hk⟩ := (Option.any_eq_true _ _).mp hkeep
      exact ⟨e, he, hk⟩
    · rintro ⟨e, he, hk⟩
      obtain ⟨sv, hsv, rfl⟩ := hs.exists_version he
      exact ⟨sv, ⟨hsv, by simp [he, hk]⟩, rfl⟩
  ident id e he := by
    rw [h.st, Option.filter_eq_some_iff] at he
    exact hs.ident id e he.1
  sorted := by
    rw [h.vi]
    exact hs.sorted.sublist List.filter_sublist
  bound sv hsv := by
    rw [h.vi] at hsv
    rw [h.version]
    exact hs.bound sv (List.mem_of_mem_filter hsv)
  indexed id ms hms := by
    rw [h.mi] at hms
    split_ifs at hms with hc
    obtain ⟨e, he⟩ := Finmap.mem_iff.mp (hs.indexed id ms hms)
    rw [Finmap.mem_iff]
    refine ⟨e, ?_⟩
    rw [h.st, Option.filter_eq_some_iff]
    exact ⟨he, by simpa [he] using hc⟩

/-! ### Operations as sequences of merges -/

/-- One merge of a silence that satisfies a condition. -/
def PutStep (P : Silences → MeshSilence → Prop) (now : ℤ) (s s' : Silences) : Prop :=
  ∃ e, P s e ∧ s' = (s.mergeSilence e now).1

/-- A sequence of merges at one reading of the clock. -/
abbrev Puts (P : Silences → MeshSilence → Prop) (now : ℤ) : Silences → Silences → Prop :=
  Relation.ReflTransGen (PutStep P now)

theorem Puts.one {P : Silences → MeshSilence → Prop} {now : ℤ} {e : MeshSilence} (h : P s e) :
    Puts P now s (s.mergeSilence e now).1 :=
  Relation.ReflTransGen.single ⟨e, h, rfl⟩

theorem Puts.weaken {P Q : Silences → MeshSilence → Prop} {now : ℤ} {s' : Silences}
    (hPQ : ∀ s e, P s e → Q s e) (h : Puts P now s s') : Puts Q now s s' := by
  induction h with
  | refl => exact Relation.ReflTransGen.refl
  | tail _ hput ih =>
    obtain ⟨e, he, rfl⟩ := hput
    exact ih.tail ⟨e, hPQ _ e he, rfl⟩

/-- What every admitted merge keeps holds after a sequence of them. -/
theorem Puts.invariant {P : Silences → MeshSilence → Prop} {now : ℤ} {I : Silences → Prop}
    (hstep : ∀ s e, I s → P s e → I (s.mergeSilence e now).1) {s s' : Silences}
    (h : Puts P now s s') (hs : I s) : I s' := by
  induction h with
  | refl => exact hs
  | tail _ hput ih =>
    obtain ⟨e, he, rfl⟩ := hput
    exact hstep _ e ih he

theorem Puts.wellFormed {P : Silences → MeshSilence → Prop} {now : ℤ} {s' : Silences}
    (h : Puts P now s s') (hs : WellFormed s) : WellFormed s' :=
  Puts.invariant (I := WellFormed) (fun _ e hw _ => wellFormed_mergeSilence hw e now) h hs

/-- What a sequence of merges leaves of the store it began with: entries of the
version index stay, and new ones have new IDs and greater versions. -/
structure Grows (s s' : Silences) : Prop where
  keys : ∀ id ∈ s.st, id ∈ s'.st
  kept : ∀ sv ∈ s.vi, sv ∈ s'.vi
  fresh : ∀ sv ∈ s'.vi, sv ∈ s.vi ∨ (sv.id ∉ s.st ∧ s.version < sv.version)
  version : s.version ≤ s'.version

theorem Grows.refl (s : Silences) : Grows s s :=
  ⟨fun _ h => h, fun _ h => h, fun _ h => Or.inl h, le_rfl⟩

theorem Grows.mergeSilence {s' : Silences} (h : Grows s s') (e : MeshSilence) (now : ℤ) :
    Grows s (s'.mergeSilence e now).1 := by
  have hout := mergeSilence_outcome s' e now
  generalize s'.mergeSilence e now = r at hout
  cases hout with
  | kept => exact h
  | added hexp hfresh =>
    have hnew : e.silence.id ∉ s.st := fun hmem =>
      Finmap.lookup_eq_none.mp hfresh (h.keys _ hmem)
    refine ⟨fun id hid => Finmap.mem_insert.mpr (Or.inr (h.keys id hid)),
      fun sv hsv => List.mem_append_left _ (h.kept sv hsv), fun sv hsv => ?_,
      h.version.trans (Nat.le_succ _)⟩
    rcases List.mem_append.mp hsv with hsv | hsv
    · exact h.fresh sv hsv
    · rw [List.mem_singleton.mp hsv]
      exact Or.inr ⟨by simpa using hnew, Nat.lt_succ_of_le h.version⟩
  | replaced hexp prev hprev hnewer =>
    exact ⟨fun id hid => Finmap.mem_insert.mpr (Or.inr (h.keys id hid)), h.kept, h.fresh,
      h.version⟩

theorem Puts.grows {P : Silences → MeshSilence → Prop} {now : ℤ} {s' : Silences}
    (h : Puts P now s s') : Grows s s' :=
  Puts.invariant (I := Grows s) (fun _ e hI _ => hI.mergeSilence e now) h (.refl s)

theorem lookup_mergeSilence_of_ne {e : MeshSilence} {now : ℤ} {id : GoString}
    (hne : id ≠ e.silence.id) : (s.mergeSilence e now).1.st.lookup id = s.st.lookup id := by
  have hout := mergeSilence_outcome s e now
  generalize s.mergeSilence e now = r at hout
  cases hout with
  | kept => rfl
  | added hexp hfresh => exact Finmap.lookup_insert_of_ne _ hne
  | replaced hexp prev hprev hnewer => exact Finmap.lookup_insert_of_ne _ hne

/-- `Merge` merges decoded silences only, each into the state it found under the
silence's ID. -/
theorem mergeLoop_puts (p : Payload) {st : GoMap GoString MeshSilence} (now : ℤ)
    (hid : ∀ id e, st.lookup id = some e → e.silence.id = id) {order : List GoString}
    (hnodup : order.Nodup) (s : Silences) :
    Puts (fun s' e => ∃ id ∈ order, st.lookup id = some e ∧ s'.st.lookup id = s.st.lookup id) now
      s (mergeLoop p st now order s).1 := by
  induction order generalizing s with
  | nil => exact Relation.ReflTransGen.refl
  | cons id order ih =>
    rw [List.nodup_cons] at hnodup
    simp only [mergeLoop]
    cases he : st.lookup id with
    | none =>
      refine Puts.weaken ?_ (ih hnodup.2 s)
      rintro s' e ⟨id', hmem, he', hlook⟩
      exact ⟨id', List.mem_cons_of_mem _ hmem, he', hlook⟩
    | some e =>
      refine Relation.ReflTransGen.head ⟨e, ⟨id, List.mem_cons_self, he, rfl⟩, rfl⟩ ?_
      refine Puts.weaken ?_ (ih hnodup.2 _)
      rintro s' e' ⟨id', hmem, he', hlook⟩
      refine ⟨id', List.mem_cons_of_mem _ hmem, he', ?_⟩
      have hne : id' ≠ e.silence.id := by
        rw [hid id e he]
        rintro rfl
        exact hnodup.1 hmem
      rw [hlook, lookup_mergeSilence_of_ne hne]

theorem wellFormed_mergeLoop (hs : WellFormed s) (p : Payload)
    (st : GoMap GoString MeshSilence) (now : ℤ) (order : List GoString) :
    WellFormed (mergeLoop p st now order s).1 := by
  induction order generalizing s with
  | nil => exact hs
  | cons id order ih =>
    simp only [mergeLoop]
    cases st.lookup id with
    | none => exact ih hs
    | some e => exact ih (wellFormed_mergeSilence hs e now)

theorem wellFormed_merge (hs : WellFormed s) (p : Payload) (now : ℤ) (order : List GoString) :
    WellFormed (s.merge p now order).2.1 := by
  unfold merge
  cases decodeState p with
  | error e => exact hs
  | ok st => exact wellFormed_mergeLoop hs p st now order

/-- The merges of a local operation: a version of a stored silence that is not
expired, with its matchers; or the created silence, when no other ID has appeared
since the operation began. -/
def LocalPut (s₀ : Silences) (uuid : Option GoString) (mss : List Silencepb.MatcherSet) (now : ℤ)
    (s : Silences) (e : MeshSilence) : Prop :=
  (∃ prev, s.st.lookup e.silence.id = some prev ∧ prev.silence.getState now ≠ .expired ∧
    e.silence.matcherSets = prev.silence.matcherSets) ∨
  (uuid = some e.silence.id ∧ e.silence.matcherSets = mss ∧ ∀ id, id ∈ s.st → id ∈ s₀.st)

/-- A new version of a stored silence adds no ID. -/
theorem mem_of_mem_mergeSilence {e : MeshSilence} {now : ℤ} (hmem : e.silence.id ∈ s.st)
    {id : GoString} (h : id ∈ (s.mergeSilence e now).1.st) : id ∈ s.st := by
  have hout := mergeSilence_outcome s e now
  generalize s.mergeSilence e now = r at hout h
  cases hout with
  | kept => exact h
  | added hexp hfresh => exact absurd hmem (Finmap.lookup_eq_none.mp hfresh)
  | replaced hexp prev hprev hnewer =>
    rcases Finmap.mem_insert.mp h with rfl | h
    · exact hmem
    · exact h

section
variable [Proto]

theorem expire_puts (hs : WellFormed s) (s₀ : Silences) (uuid : Option GoString)
    (mss : List Silencepb.MatcherSet) (id : GoString) (now : ℤ) :
    Puts (LocalPut s₀ uuid mss now) now s (s.expire id now).2.1 := by
  have hout := expire_outcome s id now
  generalize s.expire id now = r at hout
  cases hout with
  | notFound hnone => exact Relation.ReflTransGen.refl
  | already prev hprev hexp => exact Relation.ReflTransGen.refl
  | unmarshallable prev hprev hlive hm => exact Relation.ReflTransGen.refl
  | offered prev hprev hlive b hm =>
    obtain ⟨e, he, rfl⟩ := lookup_of_getSilence hprev
    exact Puts.one (Or.inl ⟨e, lookup_retired hs.ident he now, hlive, rfl⟩)

theorem mem_of_mem_expire (hs : WellFormed s) {id id' : GoString} {now : ℤ}
    (h : id' ∈ (s.expire id now).2.1.st) : id' ∈ s.st := by
  have hout := expire_outcome s id now
  generalize s.expire id now = r at hout h
  cases hout with
  | notFound hnone => exact h
  | already prev hprev hexp => exact h
  | unmarshallable prev hprev hlive hm => exact h
  | offered prev hprev hlive b hm =>
    obtain ⟨e, he, rfl⟩ := lookup_of_getSilence hprev
    exact mem_of_mem_mergeSilence (GoMap.mem_of_lookup (lookup_retired hs.ident he now)) h

theorem expirePrevious_spec (hs : WellFormed s) (prev : Option Silence)
    (uuid : Option GoString) (mss : List Silencepb.MatcherSet) (now : ℤ) :
    Puts (LocalPut s uuid mss now) now s (s.expirePrevious prev now).2.1 ∧
      ∀ id, id ∈ (s.expirePrevious prev now).2.1.st → id ∈ s.st := by
  rcases expirePrevious_cases s prev now with hsame | ⟨p, -, -, heq⟩
  · rw [hsame]
    exact ⟨Relation.ReflTransGen.refl, fun _ h => h⟩
  · rw [heq]
    exact ⟨expire_puts hs s uuid mss p.id now, fun _ h => mem_of_mem_expire hs h⟩

theorem set_puts (hs : WellFormed s) (env : SetEnv) (now : ℤ) (sil : Silence) :
    Puts (LocalPut s env.uuid (normalized sil now).matcherSets now) now s
      (s.set env now sil).silences := by
  have hprevious := fun prev =>
    expirePrevious_spec hs prev env.uuid (normalized sil now).matcherSets now
  have hout := set_outcome s env now sil
  generalize s.set env now sil = r at hout
  cases hout with
  | refused err sil' => exact Relation.ReflTransGen.refl
  | updated prev h b hm =>
    obtain ⟨e, he, rfl⟩ := lookup_of_getSilence h.found
    exact Puts.one (Or.inl ⟨e, he, Silence.not_expired_of_canUpdate h.allowed,
      (Silence.matcherSets_eq_of_canUpdate h.allowed).symm⟩)
  | created prev uid h b hm =>
    exact (hprevious prev).1.tail ⟨_, Or.inr ⟨h.uuid, rfl, (hprevious prev).2⟩, rfl⟩
  | torn prev uid h hm => exact (hprevious prev).1

end

end

end Alertmanager.Silences
