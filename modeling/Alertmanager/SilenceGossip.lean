import Alertmanager.SilenceStore

/-!
# Gossip of silences

Nodes that start from one state and receive the same silences, in any order, in any
grouping and with any repetitions, end in the same state: a delivery is a sequence of
writes to a map in which the younger value wins.
-/
namespace Alertmanager.SilenceGossip

open MeshSilence (silenceID decodedForm)

/-- One call of `Merge`: the silences in the payload, its length, and the order in
which the decoded silences are visited. -/
structure Delivery where
  now : ℤ
  silences : List MeshSilence
  length : ℕ
  order : List GoString

def Delivery.payload (d : Delivery) : Payload :=
  ⟨d.silences.map MeshSilence.wire, true, d.length⟩

/-- A silence as it is stored. -/
def storedForm (e : MeshSilence) : MeshSilence :=
  ⟨e.silence.postprocess.upgradeComments, e.expiresAt⟩

@[simp] theorem storedForm_id (e : MeshSilence) : silenceID (storedForm e) = silenceID e := by
  simp [silenceID, storedForm]

@[simp] theorem storedForm_stamp (e : MeshSilence) : (storedForm e).stamp = e.stamp := by
  simp only [MeshSilence.stamp, storedForm, Silence.upgradeComments_updatedAt]
  rfl

/-- A delivery of silences with distinct IDs. -/
structure Delivers (M : Multiset MeshSilence) (d : Delivery) : Prop where
  mem : ∀ e ∈ d.silences, e ∈ M
  distinct : (d.silences.map silenceID).Nodup
  visits : SilenceStore.Visits d.payload d.order

instance (M : Multiset MeshSilence) (d : Delivery) : Decidable (Delivers M d) :=
  decidable_of_iff ((∀ e ∈ d.silences, e ∈ M) ∧ (d.silences.map silenceID).Nodup ∧
      SilenceStore.Visits d.payload d.order)
    ⟨fun h => ⟨h.1, h.2.1, h.2.2⟩, fun h => ⟨h.mem, h.distinct, h.visits⟩⟩

/-- Deliveries of every silence at least once and of none after its expiry. -/
structure Spreads (M : Multiset MeshSilence) (ds : List Delivery) : Prop where
  delivers : ∀ d ∈ ds, Delivers M d
  live : ∀ d ∈ ds, ∀ e ∈ d.silences, d.now ≤ asTime e.expiresAt
  all : ∀ e ∈ M, ∃ d ∈ ds, e ∈ d.silences

/-- A delivery is decoded, and what is visited are the decoded forms of its silences. -/
theorem Delivers.decoded {M : Multiset MeshSilence} {d : Delivery} (h : Delivers M d) :
    ∃ st, decodeState d.payload = .ok st ∧ GoMap.Ranges st d.order ∧
      ∀ id e', st.lookup id = some e' ↔
        ∃ e ∈ d.silences, silenceID e = id ∧ e' = decodedForm e := by
  obtain ⟨st, hst⟩ := exists_decodeMessages d.silences ∅
  have hdec : decodeState d.payload = .ok st := by simp [decodeState, Delivery.payload, hst]
  have hvisits := h.visits
  simp only [SilenceStore.Visits, hdec] at hvisits
  refine ⟨st, hdec, hvisits, fun id e' => ?_⟩
  simp [decodeMessages_eq h.distinct hst]

/-! ### Deliveries as writes -/

section
variable [Regexp] {s : Silences} {now : ℤ}

/-- What merging leaves of a decoded silence. -/
def upgradedForm (e : MeshSilence) : MeshSilence := ⟨e.silence.upgradeComments, e.expiresAt⟩

theorem mergeSilence_st {e : MeshSilence} (hlive : now ≤ asTime e.expiresAt) :
    (s.mergeSilence e now).1.st =
      LastWriter.write MeshSilence.stamp s.st (silenceID e) (upgradedForm e) := by
  have hst : (s.mergeSilence e now).1.st = (stateMerge s.st e now).1 := by
    simp only [Silences.mergeSilence]
    split_ifs <;> rfl
  rw [hst, stateMerge_of_live (not_lt.mpr hlive)]
  exact apply_ite Prod.fst _ _ _

theorem mergeLoop_st (p : Payload) {st : GoMap GoString MeshSilence} {order : List GoString}
    (hlive : ∀ id ∈ order, ∀ e, st.lookup id = some e → now ≤ asTime e.expiresAt) :
    (Silences.mergeLoop p st now order s).1.st =
      LastWriter.writes MeshSilence.stamp silenceID s.st
        ((order.filterMap st.lookup).map upgradedForm) := by
  induction order generalizing s with
  | nil => rfl
  | cons id order ih =>
    have htail := fun s => ih (s := s) fun id' hid' => hlive id' (List.mem_cons_of_mem _ hid')
    simp only [Silences.mergeLoop]
    cases he : st.lookup id with
    | none => simp only [htail, List.filterMap_cons, he]
    | some e =>
      have hkey : silenceID (upgradedForm e) = silenceID e := by
        simp [silenceID, upgradedForm]
      simp only [htail, List.filterMap_cons, he, List.map_cons, LastWriter.writes,
        List.foldl_cons, hkey, mergeSilence_st (hlive id List.mem_cons_self e he)]

/-- A merge that accepts nothing changes nothing and broadcasts nothing. -/
theorem mergeLoop_of_refused (p : Payload) {st : GoMap GoString MeshSilence}
    {order : List GoString}
    (h : ∀ id ∈ order, ∀ e, st.lookup id = some e → ¬ s.Accepts e now) :
    Silences.mergeLoop p st now order s = (s, []) := by
  induction order with
  | nil => rfl
  | cons id order ih =>
    have htail := ih fun id' hid' => h id' (List.mem_cons_of_mem _ hid')
    simp only [Silences.mergeLoop]
    cases he : st.lookup id with
    | none => exact htail
    | some e =>
      simp [Silences.mergeSilence_of_not_accepts (h id List.mem_cons_self e he), htail]

/-- The effect of a delivery on the store. -/
def receive (s : Silences) (d : Delivery) : Silences := (s.merge d.payload d.now d.order).2.1

theorem receive_writes {M : Multiset MeshSilence} {d : Delivery} (hd : Delivers M d)
    (hlive : ∀ e ∈ d.silences, d.now ≤ asTime e.expiresAt) :
    ∃ l, (receive s d).st = LastWriter.writes MeshSilence.stamp silenceID s.st l ∧
      ∀ v, v ∈ l ↔ ∃ e ∈ d.silences, v = storedForm e := by
  obtain ⟨st, hdec, hranges, hlook⟩ := hd.decoded
  refine ⟨(d.order.filterMap st.lookup).map upgradedForm, ?_, fun v => ?_⟩
  · have hmerge : receive s d = (Silences.mergeLoop d.payload st d.now d.order s).1 := by
      simp [receive, Silences.merge, hdec]
    rw [hmerge]
    refine mergeLoop_st d.payload fun id _ e' he' => ?_
    obtain ⟨e, he, -, rfl⟩ := (hlook id e').mp he'
    exact hlive e he
  · simp only [List.mem_map, List.mem_filterMap]
    constructor
    · rintro ⟨e', ⟨id, -, he'⟩, rfl⟩
      obtain ⟨e, he, -, rfl⟩ := (hlook id e').mp he'
      exact ⟨e, he, rfl⟩
    · rintro ⟨e, he, rfl⟩
      have hst := (hlook (silenceID e) (decodedForm e)).mpr ⟨e, he, rfl, rfl⟩
      exact ⟨decodedForm e, ⟨silenceID e, (hranges.mem _).mpr (GoMap.mem_of_lookup hst), hst⟩, rfl⟩

theorem foldl_receive_writes {M : Multiset MeshSilence} {ds : List Delivery}
    (hds : ∀ d ∈ ds, Delivers M d)
    (hlive : ∀ d ∈ ds, ∀ e ∈ d.silences, d.now ≤ asTime e.expiresAt) (s : Silences) :
    ∃ l, (ds.foldl receive s).st = LastWriter.writes MeshSilence.stamp silenceID s.st l ∧
      ∀ v, v ∈ l ↔ ∃ d ∈ ds, ∃ e ∈ d.silences, v = storedForm e := by
  induction ds generalizing s with
  | nil => exact ⟨[], rfl, by simp⟩
  | cons d ds ih =>
    obtain ⟨l, hl, hmem⟩ := receive_writes (s := s) (hds d List.mem_cons_self)
      (hlive d List.mem_cons_self)
    obtain ⟨l', hl', hmem'⟩ := ih (fun d' h => hds d' (List.mem_cons_of_mem _ h))
      (fun d' h => hlive d' (List.mem_cons_of_mem _ h)) (receive s d)
    refine ⟨l ++ l', ?_, fun v => ?_⟩
    · rw [List.foldl_cons, hl', hl, LastWriter.writes_append]
    · rw [List.mem_append, hmem, hmem']
      simp

/-- After the deliveries every ID has the newest of the silences. -/
theorem Spreads.newest {M : Multiset MeshSilence} {ds : List Delivery} (h : Spreads M ds)
    (s : Silences) (id : GoString) :
    LastWriter.Newest MeshSilence.stamp silenceID s.st (fun v => ∃ e ∈ M, v = storedForm e) id
      ((ds.foldl receive s).st.lookup id) := by
  obtain ⟨l, hl, hmem⟩ := foldl_receive_writes h.delivers h.live s
  have hC : (fun v => ∃ e ∈ M, v = storedForm e) = (· ∈ l) := by
    funext v
    refine propext ⟨?_, fun hv => ?_⟩
    · rintro ⟨e, he, rfl⟩
      obtain ⟨d, hd, hed⟩ := h.all e he
      exact (hmem _).mpr ⟨d, hd, e, hed, rfl⟩
    · obtain ⟨d, hd, e, he, rfl⟩ := (hmem v).mp hv
      exact ⟨e, (h.delivers d hd).mem e he, rfl⟩
  rw [hC, hl]
  exact LastWriter.newest_writes MeshSilence.stamp silenceID s.st l id

/-- What has been spread is not accepted again. -/
theorem Spreads.refused {M : Multiset MeshSilence} {ds : List Delivery} (h : Spreads M ds)
    (s : Silences) {e : MeshSilence} (he : e ∈ M) (now : ℤ) :
    ¬ (ds.foldl receive s).Accepts (decodedForm e) now := by
  rintro ⟨-, hnewer⟩
  have hnewest := h.newest s (silenceID (storedForm e))
  have hrefused := hnewest.not_accepts ⟨e, he, rfl⟩
  rw [← Bool.not_eq_true, LastWriter.accepts_iff] at hrefused
  refine hrefused fun prev hprev => ?_
  rw [storedForm_id] at hprev
  rw [storedForm_stamp]
  exact hnewer prev hprev

/-- Gossip converges: nodes that start from one state and receive the same silences
end with the same state, which has for each ID the silence with the greatest time
stamp. Further deliveries change nothing and are not broadcast. -/
theorem gossip_converges {M : Multiset MeshSilence}
    (hM : ∀ a ∈ M, ∀ b ∈ M, a.silence.id = b.silence.id → a.stamp = b.stamp → a = b)
    {s₁ s₂ : Silences} (hst : s₁.st = s₂.st) {ds₁ ds₂ : List Delivery} (h₁ : Spreads M ds₁)
    (h₂ : Spreads M ds₂) :
    (ds₁.foldl receive s₁).st = (ds₂.foldl receive s₂).st ∧
    (∀ id, LastWriter.Newest MeshSilence.stamp silenceID s₁.st (fun v => ∃ e ∈ M, v = storedForm e)
      id ((ds₁.foldl receive s₁).st.lookup id)) ∧
    ∀ d, Delivers M d → (ds₁.foldl receive s₁).merge d.payload d.now d.order =
      (none, ds₁.foldl receive s₁, []) := by
  have hC : LastWriter.Consistent MeshSilence.stamp silenceID
      (fun v => ∃ e ∈ M, v = storedForm e) := by
    rintro _ _ ⟨a, ha, rfl⟩ ⟨b, hb, rfl⟩ hid hstamp
    simp only [storedForm_id, storedForm_stamp] at hid hstamp
    rw [hM a ha b hb hid hstamp]
  refine ⟨?_, h₁.newest s₁, fun d hd => ?_⟩
  · refine Finmap.ext_lookup fun id => ?_
    have hnewest := h₂.newest s₂ id
    rw [← hst] at hnewest
    exact (h₁.newest s₁ id).unique hC hnewest
  · obtain ⟨st, hdec, -, hlook⟩ := hd.decoded
    simp only [Silences.merge, hdec]
    rw [mergeLoop_of_refused]
    intro id _ e' he'
    obtain ⟨e, he, -, rfl⟩ := (hlook id e').mp he'
    exact h₁.refused s₁ (hd.mem e he) d.now

end

section
attribute [local instance] noRegexp

/-- Two versions of one silence and another silence. -/
def messages : List MeshSilence :=
  [⟨SilenceStore.silenceFrom "x" 1 100 1, some 100⟩, ⟨SilenceStore.silenceFrom "x" 1 50 2, some 50⟩,
    ⟨SilenceStore.silenceFrom "y" 1 100 1, some 100⟩]

/-- The versions arrive in order at one node. At the other the older one comes last,
and the newer one twice. -/
theorem gossip_converges_reordered :
    let ds₁ : List Delivery := [⟨5, messages.eraseIdx 1, 200, [str "x", str "y"]⟩,
      ⟨6, [⟨SilenceStore.silenceFrom "x" 1 50 2, some 50⟩], 100, [str "x"]⟩]
    let ds₂ : List Delivery := [⟨5, messages.tail, 200, [str "y", str "x"]⟩,
      ⟨7, messages.tail.take 1, 100, [str "x"]⟩, ⟨8, messages.take 1, 100, [str "x"]⟩]
    (ds₁.foldl receive (Silences.new 0)).st = (ds₂.foldl receive (Silences.new 0)).st ∧
    ((ds₁.foldl receive (Silences.new 0)).st.lookup (str "x")).any
      (fun e => decide (e.stamp = 2)) = true := by
  intro ds₁ ds₂
  have h₁ : Spreads (messages : Multiset MeshSilence) ds₁ :=
    ⟨by decide +kernel, by decide +kernel, by decide +kernel⟩
  have h₂ : Spreads (messages : Multiset MeshSilence) ds₂ :=
    ⟨by decide +kernel, by decide +kernel, by decide +kernel⟩
  have hM : ∀ a ∈ (messages : Multiset MeshSilence), ∀ b ∈ (messages : Multiset MeshSilence),
      a.silence.id = b.silence.id → a.stamp = b.stamp → a = b := by
    decide +kernel
  exact ⟨(gossip_converges hM rfl h₁ h₂).1, by decide +kernel⟩

end

end Alertmanager.SilenceGossip
