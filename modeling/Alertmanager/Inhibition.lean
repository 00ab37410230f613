import Alertmanager.Inhibit
import Alertmanager.Runs

/-!
# Soundness and completeness of inhibition

An inhibition is always justified: whatever the index slot holds, the alert
found through it has the right equal labels, because a fingerprint never stands
for two label sets. Completeness needs more: the single slot of a combination of
equal labels has to hold an alert that can stand in for all the others that share
it, one that resolves no earlier and is excluded no more often. An update of the
indexed alert, a source alert without an end, a two-sided alert in the slot, and
a collection of another alert with the same equal labels each break this.
-/
namespace Alertmanager.Inhibition

section
variable [Regexp] {r : InhibitRule}

/-- The alert `b` can stand in for `a`: it resolves no earlier, and it is excluded
as two-sided only if `a` is. -/
def Covers (r : InhibitRule) (b a : Alert) : Prop :=
  (b.endsAt = 0 ∨ (a.endsAt ≠ 0 ∧ a.endsAt ≤ b.endsAt)) ∧
    (Matchers.matches r.targetMatchers b.labels = true →
      Matchers.matches r.targetMatchers a.labels = true)

instance (r : InhibitRule) (b a : Alert) : Decidable (Covers r b a) :=
  inferInstanceAs (Decidable (_ ∧ _))

theorem covers_refl (r : InhibitRule) (a : Alert) : Covers r a a := by
  refine ⟨?_, id⟩
  by_cases h : a.endsAt = 0
  · exact Or.inl h
  · exact Or.inr ⟨h, le_rfl⟩

theorem Covers.trans {a b c : Alert} (hcb : Covers r c b) (hba : Covers r b a) :
    Covers r c a := by
  obtain ⟨ht, hm⟩ := hcb
  obtain ⟨ht', hm'⟩ := hba
  exact ⟨by omega, fun h => hm' (hm h)⟩

theorem Covers.unresolved {a b : Alert} (h : Covers r b a) {now : ℤ}
    (ha : a.resolvedAt now = false) : b.resolvedAt now = false := by
  obtain ⟨ht, -⟩ := h
  rw [Alert.resolvedAt_eq_false] at ha ⊢
  omega

theorem mem_keys_of_lookup {fp : Fingerprint} {a : Alert}
    (h : r.scache.alerts.lookup fp = some a) : fp ∈ r.scache.alerts.keys :=
  Finmap.mem_keys.mpr (GoMap.mem_of_lookup h)

end

section
variable [Regexp] [LabelHash]

/-! ### Soundness of one rule -/

/-- Cached alerts and index slots come from known label sets, and a slot's label
set has the equal labels of the slot. -/
structure Sound (S : Finset LabelSet) (r : InhibitRule) : Prop where
  cache : r.CacheOk
  known : ∀ fp a, r.scache.alerts.lookup fp = some a → a.labels ∈ S
  index : ∀ k fp, r.sindex.lookup k = some fp →
    ∃ L ∈ S, fingerprint L = fp ∧ r.equalSet L ∈ S ∧ r.fingerprintEquals L = k

variable {S : Finset LabelSet} {r : InhibitRule}

theorem sound_new (name : GoString) (sourceMatchers targetMatchers : Matchers)
    (equal : List LabelName) : Sound S (.new name sourceMatchers targetMatchers equal) where
  cache := InhibitRule.cacheOk_new name sourceMatchers targetMatchers equal
  known fp a h := by simp [InhibitRule.new, AlertStore.new] at h
  index k fp h := by simp [InhibitRule.new] at h

theorem Sound.slot (hinj : Set.InjOn fingerprint (S : Set LabelSet)) (hr : Sound S r)
    {k fp : Fingerprint} (hk : r.sindex.lookup k = some fp) {a : Alert}
    (ha : r.scache.alerts.lookup fp = some a) :
    r.equalSet a.labels ∈ S ∧ r.fingerprintEquals a.labels = k := by
  obtain ⟨L, hL, hfp, heq, hkey⟩ := hr.index k fp hk
  have hlabels : a.labels = L := by
    apply hinj (hr.known fp a ha) hL
    rw [hr.cache.filed fp a ha, hfp]
  rw [hlabels]
  exact ⟨heq, hkey⟩

theorem slotAfter_eq_or (r : InhibitRule) (a : Alert) :
    r.slotAfter a = fingerprint a.labels ∨
      r.sindex.lookup (r.fingerprintEquals a.labels) = some (r.slotAfter a) := by
  have hout := r.slotAfter_outcome a
  generalize r.slotAfter a = slot at hout ⊢
  cases hout with
  | empty | own | dangling | taken => exact Or.inl rfl
  | kept _ b hslot => exact Or.inr hslot

theorem sound_processAlert (hr : Sound S r) {a : Alert} (ha : a.labels ∈ S)
    (heq : r.equalSet a.labels ∈ S) (now : ℤ) : Sound S (r.processAlert now a) := by
  cases hmatch : Matchers.matches r.sourceMatchers a.labels with
  | false =>
    rw [InhibitRule.processAlert_of_not_match hmatch]
    exact hr
  | true =>
    rw [InhibitRule.processAlert_of_match hr.cache hmatch]
    have hcached : ∀ fp b, (r.scache.alerts.insert (fingerprint a.labels) a).lookup fp = some b →
        (fp = fingerprint a.labels ∧ b = a) ∨ r.scache.alerts.lookup fp = some b := by
      intro fp b h
      rw [GoMap.lookup_insert_eq] at h
      split_ifs at h with hfp
      · exact Or.inl ⟨hfp, (Option.some.inj h).symm⟩
      · exact Or.inr h
    refine ⟨⟨hr.cache.alive, hr.cache.unlimited, ?_, ?_⟩, ?_, ?_⟩
    · intro fp b h
      rcases hcached fp b h with ⟨rfl, rfl⟩ | h
      · rfl
      · exact hr.cache.filed fp b h
    · intro fp b h
      rcases hcached fp b h with ⟨-, rfl⟩ | h
      · exact hmatch
      · exact hr.cache.source fp b h
    · intro fp b h
      rcases hcached fp b h with ⟨-, rfl⟩ | h
      · exact ha
      · exact hr.known fp b h
    · intro k fp h
      dsimp only at h
      rw [GoMap.lookup_insert_eq] at h
      split_ifs at h with hk
      · obtain rfl := Option.some.inj h
        rcases slotAfter_eq_or r a with hnew | hold
        · exact ⟨a.labels, ha, hnew.symm, heq, hk.symm⟩
        · obtain ⟨L, hL, hfp, hset, hkey⟩ := hr.index _ _ hold
          exact ⟨L, hL, hfp, hset, hkey.trans hk.symm⟩
      · exact hr.index k fp h

theorem sound_collected (hr : Sound S r) {now : ℤ} {r' : InhibitRule}
    (h : InhibitRule.Collected now r r') : Sound S r' := by
  have hold : ∀ fp a, r'.scache.alerts.lookup fp = some a → r.scache.alerts.lookup fp = some a := by
    intro fp a ha
    rw [h.alerts, Option.filter_eq_some_iff] at ha
    exact ha.1
  have hset : ∀ L, r'.equalSet L = r.equalSet L := by
    intro L
    unfold InhibitRule.equalSet
    rw [h.equal]
  refine ⟨⟨h.alive.trans hr.cache.alive, h.unlimited.le.trans hr.cache.unlimited, ?_, ?_⟩, ?_, ?_⟩
  · exact fun fp a ha => hr.cache.filed fp a (hold fp a ha)
  · intro fp a ha
    rw [h.sourceMatchers]
    exact hr.cache.source fp a (hold fp a ha)
  · exact fun fp a ha => hr.known fp a (hold fp a ha)
  · intro k fp hk
    obtain ⟨L, hL, hfp, heq, hkey⟩ := hr.index k fp (h.old k fp hk)
    refine ⟨L, hL, hfp, by rw [hset]; exact heq, ?_⟩
    rw [InhibitRule.fingerprintEquals, hset]
    exact hkey

theorem findEqualSourceAlert_eq_some {lset : LabelSet} {now : ℤ} {a : Alert} :
    r.findEqualSourceAlert lset now = some a ↔
      ∃ fp, r.sindex.lookup (r.fingerprintEquals lset) = some fp ∧
        r.scache.alerts.lookup fp = some a ∧ a.resolvedAt now = false := by
  unfold InhibitRule.findEqualSourceAlert AlertStore.get
  cases r.sindex.lookup (r.fingerprintEquals lset) with
  | none => simp
  | some fp =>
    cases hfp : r.scache.alerts.lookup fp with
    | none => simp [hfp]
    | some b =>
      cases hres : b.resolvedAt now with
      | true => simp [hfp, hres]; grind
      | false => simp [hfp, hres]; grind

theorem hasEqual_eq_some {lset : LabelSet} {ex : Bool} {now : ℤ} {fp : Fingerprint} :
    r.hasEqual lset ex now = some fp ↔
      ∃ a, r.findEqualSourceAlert lset now = some a ∧ fingerprint a.labels = fp ∧
        (ex = true → Matchers.matches r.targetMatchers a.labels = false) := by
  unfold InhibitRule.hasEqual
  cases r.findEqualSourceAlert lset now with
  | none => simp
  | some a =>
    cases ex <;> cases ht : Matchers.matches r.targetMatchers a.labels <;> simp [ht]

/-- A source alert in the cache that justifies an inhibition. -/
structure Justifies (r : InhibitRule) (lset : LabelSet) (now : ℤ) (a : Alert) : Prop where
  cached : r.scache.alerts.lookup (fingerprint a.labels) = some a
  source : Matchers.matches r.sourceMatchers a.labels = true
  unresolved : a.resolvedAt now = false
  equal : ∀ n ∈ r.equal, LabelSet.get a.labels n = LabelSet.get lset n
  oneSided : Matchers.matches r.sourceMatchers lset = true →
    Matchers.matches r.targetMatchers a.labels = false

theorem hasEqual_sound (hinj : Set.InjOn fingerprint (S : Set LabelSet)) (hr : Sound S r)
    {lset : LabelSet} (hlset : r.equalSet lset ∈ S) {now : ℤ} {fp : Fingerprint}
    (h : r.hasEqual lset (Matchers.matches r.sourceMatchers lset) now = some fp) :
    ∃ a, Justifies r lset now a ∧ fingerprint a.labels = fp := by
  obtain ⟨a, hfind, hfp, hex⟩ := hasEqual_eq_some.mp h
  obtain ⟨fp', hslot, ha, hres⟩ := findEqualSourceAlert_eq_some.mp hfind
  obtain ⟨hmem, hkey⟩ := hr.slot hinj hslot ha
  have hset : r.equalSet a.labels = r.equalSet lset := hinj hmem hlset hkey
  have hfiled := hr.cache.filed fp' a ha
  refine ⟨a, ⟨?_, hr.cache.source fp' a ha, hres, InhibitRule.equalSet_eq_iff.mp hset, hex⟩, hfp⟩
  rw [hfiled]
  exact ha

/-- `Mutes` is true when a rule whose target side matches finds an alert, and the
first such rule decides what is marked. -/
theorem mutes_eq_true {rules : List InhibitRule} {lset : LabelSet} {now : ℤ} :
    (Inhibitor.mutes rules lset now).1 = true ↔
      ∃ r ∈ rules, Matchers.matches r.targetMatchers lset = true ∧
        (r.hasEqual lset (Matchers.matches r.sourceMatchers lset) now).isSome = true := by
  induction rules with
  | nil => simp [Inhibitor.mutes]
  | cons r rules ih =>
    simp only [Inhibitor.mutes, List.mem_cons, exists_eq_or_imp]
    cases ht : Matchers.matches r.targetMatchers lset with
    | false => simp [ih]
    | true =>
      cases he : r.hasEqual lset (Matchers.matches r.sourceMatchers lset) now with
      | none => simp [ih]
      | some fp => simp

theorem mutes_marked {rules : List InhibitRule} {lset : LabelSet} {now : ℤ}
    (h : (Inhibitor.mutes rules lset now).1 = true) :
    ∃ r ∈ rules, Matchers.matches r.targetMatchers lset = true ∧
      ∃ fp, r.hasEqual lset (Matchers.matches r.sourceMatchers lset) now = some fp ∧
        (Inhibitor.mutes rules lset now).2 = [fp] := by
  induction rules with
  | nil => simp [Inhibitor.mutes] at h
  | cons r rules ih =>
    simp only [Inhibitor.mutes] at h ⊢
    cases ht : Matchers.matches r.targetMatchers lset with
    | false =>
      simp only [ht, if_true] at h ⊢
      obtain ⟨r', hr', hrest⟩ := ih h
      exact ⟨r', List.mem_cons_of_mem _ hr', hrest⟩
    | true =>
      cases he : r.hasEqual lset (Matchers.matches r.sourceMatchers lset) now with
      | none =>
        simp only [ht, he, Bool.true_eq_false, if_false] at h ⊢
        obtain ⟨r', hr', hrest⟩ := ih h
        exact ⟨r', List.mem_cons_of_mem _ hr', hrest⟩
      | some fp => exact ⟨r, List.mem_cons_self, ht, fp, he, by simp⟩

/-! ### Completeness of one rule -/

/-- The slot of every unresolved cached alert holds one that can stand in for it. -/
def Covered (now : ℤ) (r : InhibitRule) : Prop :=
  ∀ fp a, r.scache.alerts.lookup fp = some a → a.resolvedAt now = false →
    ∃ fb b, r.sindex.lookup (r.fingerprintEquals a.labels) = some fb ∧
      r.scache.alerts.lookup fb = some b ∧ Covers r b a

theorem Covered.later {now now' : ℤ} (h : Covered now r) (hle : now ≤ now') :
    Covered now' r :=
  fun fp a ha hres => h fp a ha (Alert.resolvedAt_earlier hle hres)

/-- What completeness asks of a source alert that is processed. If its slot holds
another cached alert, the one that loses the slot is resolved or can be stood in
for; if the slot holds the alert itself, the new version can stand in for the
other unresolved alerts with the same equal labels. -/
def OrderlyAlert (r : InhibitRule) (now : ℤ) (a : Alert) : Prop :=
  Matchers.matches r.sourceMatchers a.labels = true →
  ∀ fb ∈ r.sindex.lookup (r.fingerprintEquals a.labels),
    if fb = fingerprint a.labels then
      ∀ fc ∈ r.scache.alerts.keys, ∀ c ∈ r.scache.alerts.lookup fc, fc ≠ fb →
        r.fingerprintEquals c.labels = r.fingerprintEquals a.labels →
        c.resolvedAt now = false → Covers r a c
    else ∀ b ∈ r.scache.alerts.lookup fb,
      if b.resolvedAt a.endsAt then b.resolvedAt now = true ∨ Covers r a b
      else a.resolvedAt now = true ∨ Covers r b a

instance (r : InhibitRule) (now : ℤ) (a : Alert) : Decidable (OrderlyAlert r now a) := by
  unfold OrderlyAlert
  infer_instance

/-- What completeness asks of a collection: a resolved and an unresolved cached
alert do not share their equal labels. -/
def OrderlyGC (r : InhibitRule) (now : ℤ) : Prop :=
  ∀ fa ∈ r.scache.alerts.keys, ∀ a ∈ r.scache.alerts.lookup fa,
    ∀ fc ∈ r.scache.alerts.keys, ∀ c ∈ r.scache.alerts.lookup fc,
      r.fingerprintEquals a.labels = r.fingerprintEquals c.labels →
      a.resolvedAt now = true → c.resolvedAt now = true

instance (r : InhibitRule) (now : ℤ) : Decidable (OrderlyGC r now) := by
  unfold OrderlyGC
  infer_instance

/-- The alert in the slot of an unresolved cached alert, by the key of the slot. -/
theorem Covered.exists_slot {clock now : ℤ} (hc : Covered clock r) (hle : clock ≤ now)
    {key fc : Fingerprint} {c : Alert} (hlook : r.scache.alerts.lookup fc = some c)
    (hkey : r.fingerprintEquals c.labels = key) (hres : c.resolvedAt now = false) :
    ∃ fb b, r.sindex.lookup key = some fb ∧ r.scache.alerts.lookup fb = some b ∧
      Covers r b c := by
  rw [← hkey]
  exact hc fc c hlook (Alert.resolvedAt_earlier hle hres)

theorem Covered.slot_covers {clock now : ℤ} (hc : Covered clock r) (hle : clock ≤ now)
    {key fb fc : Fingerprint} {b c : Alert} (hfb : r.sindex.lookup key = some fb)
    (hb : r.scache.alerts.lookup fb = some b) (hlook : r.scache.alerts.lookup fc = some c)
    (hkey : r.fingerprintEquals c.labels = key) (hres : c.resolvedAt now = false) :
    Covers r b c := by
  obtain ⟨fb', b', hfb', hb', hcov⟩ := hc.exists_slot hle hlook hkey hres
  obtain rfl : fb = fb' := Option.some.inj (hfb.symm.trans hfb')
  obtain rfl : b = b' := Option.some.inj (hb.symm.trans hb')
  exact hcov

/-- The alert that the processed alert's slot refers to afterwards stands in for it
and for the other unresolved alerts with the same equal labels. -/
theorem slotAfter_covers {clock now : ℤ} (hle : clock ≤ now) (hc : Covered clock r) {a : Alert}
    (hmatch : Matchers.matches r.sourceMatchers a.labels = true) (hord : OrderlyAlert r now a) :
    ∃ b, (r.scache.alerts.insert (fingerprint a.labels) a).lookup (r.slotAfter a) = some b ∧
      (a.resolvedAt now = false → Covers r b a) ∧
      ∀ fc c, fc ≠ fingerprint a.labels → r.scache.alerts.lookup fc = some c →
        r.fingerprintEquals c.labels = r.fingerprintEquals a.labels →
        c.resolvedAt now = false → Covers r b c := by
  have hnew : (r.scache.alerts.insert (fingerprint a.labels) a).lookup (fingerprint a.labels) =
      some a := Finmap.lookup_insert _
  have hout := r.slotAfter_outcome a
  generalize r.slotAfter a = slot at hout
  cases hout with
  | empty hslot =>
    refine ⟨a, hnew, fun _ => covers_refl r a, fun fc c _ hlook hkey hres => ?_⟩
    obtain ⟨fb, b, hfb, -, -⟩ := hc.exists_slot hle hlook hkey hres
    rw [hslot] at hfb
    cases hfb
  | own hslot =>
    have hcond := hord hmatch _ hslot
    rw [if_pos rfl] at hcond
    refine ⟨a, hnew, fun _ => covers_refl r a, fun fc c hne hlook hkey hres => ?_⟩
    exact hcond fc (mem_keys_of_lookup hlook) c hlook hne hkey hres
  | dangling fb hslot hne hb =>
    refine ⟨a, hnew, fun _ => covers_refl r a, fun fc c _ hlook hkey hres => ?_⟩
    obtain ⟨fb', b, hfb', hb', -⟩ := hc.exists_slot hle hlook hkey hres
    rw [hslot] at hfb'
    obtain rfl := Option.some.inj hfb'
    rw [hb] at hb'
    cases hb'
  | taken fb b hslot hne hb hres =>
    have hcond := hord hmatch _ hslot
    rw [if_neg hne] at hcond
    have hcond := hcond b hb
    rw [if_pos hres] at hcond
    refine ⟨a, hnew, fun _ => covers_refl r a, fun fc c _ hlook hkey hcres => ?_⟩
    have hcov := hc.slot_covers hle hslot hb hlook hkey hcres
    rcases hcond with hbres | hab
    · rw [hcov.unresolved hcres] at hbres
      cases hbres
    · exact hab.trans hcov
  | kept _ b hslot hne hb hres =>
    have hcond := hord hmatch _ hslot
    rw [if_neg hne] at hcond
    have hcond := hcond b hb
    rw [if_neg (by simp [hres])] at hcond
    refine ⟨b, (Finmap.lookup_insert_of_ne _ hne).trans hb, fun hares => ?_, ?_⟩
    · rcases hcond with h | h
      · rw [hares] at h
        cases h
      · exact h
    · exact fun fc c _ hlook hkey hcres => hc.slot_covers hle hslot hb hlook hkey hcres

theorem covered_processAlert (hinj : Set.InjOn fingerprint (S : Set LabelSet)) (hr : Sound S r)
    {clock now : ℤ} (hle : clock ≤ now) (hc : Covered clock r) {a : Alert} (haS : a.labels ∈ S)
    (hord : OrderlyAlert r now a) : Covered now (r.processAlert now a) := by
  cases hmatch : Matchers.matches r.sourceMatchers a.labels with
  | false =>
    rw [InhibitRule.processAlert_of_not_match hmatch]
    exact hc.later hle
  | true =>
    rw [InhibitRule.processAlert_of_match hr.cache hmatch]
    obtain ⟨b, hb, hself, hothers⟩ := slotAfter_covers hle hc hmatch hord
    have hslot : (r.sindex.insert (r.fingerprintEquals a.labels) (r.slotAfter a)).lookup
        (r.fingerprintEquals a.labels) = some (r.slotAfter a) := Finmap.lookup_insert _
    intro fp c hlook hres
    dsimp only at hlook ⊢
    rw [GoMap.lookup_insert_eq] at hlook
    split_ifs at hlook with hfp
    · obtain rfl := Option.some.inj hlook
      exact ⟨r.slotAfter a, b, hslot, hb, hself hres⟩
    · by_cases hkey : r.fingerprintEquals c.labels = r.fingerprintEquals a.labels
      · exact ⟨r.slotAfter a, b, hkey ▸ hslot, hb, hothers fp c hfp hlook hkey hres⟩
      · obtain ⟨fb, b', hfb, hb', hcov⟩ := hc fp c hlook (Alert.resolvedAt_earlier hle hres)
        refine ⟨fb, b', (Finmap.lookup_insert_of_ne _ hkey).trans hfb, ?_, hcov⟩
        have hne : fb ≠ fingerprint a.labels := by
          intro hfba
          have hlabels : b'.labels = a.labels := by
            apply hinj (hr.known fb b' hb') haS
            rw [hr.cache.filed fb b' hb', hfba]
          have hkey' := (hr.slot hinj hfb hb').2
          rw [hlabels] at hkey'
          exact hkey hkey'.symm
        exact (Finmap.lookup_insert_of_ne _ hne).trans hb'

theorem covered_collected {clock now : ℤ} (hle : clock ≤ now) (hc : Covered clock r)
    (hord : OrderlyGC r now) {r' : InhibitRule} (h : InhibitRule.Collected now r r') :
    Covered now r' := by
  have hkey : ∀ L, r'.fingerprintEquals L = r.fingerprintEquals L := by
    intro L
    unfold InhibitRule.fingerprintEquals InhibitRule.equalSet
    rw [h.equal]
  intro fp c hlook hres
  rw [h.alerts, Option.filter_eq_some_iff] at hlook
  obtain ⟨fb, b, hfb, hb, hcov⟩ := hc fp c hlook.1 (Alert.resolvedAt_earlier hle hres)
  refine ⟨fb, b, ?_, ?_, ?_⟩
  · rw [hkey, h.kept]
    · exact hfb
    · intro fa a ha hares heq
      have hcres := hord fa (mem_keys_of_lookup ha) a ha fp (mem_keys_of_lookup hlook.1) c hlook.1
        heq hares
      rw [hres] at hcres
      cases hcres
  · rw [h.alerts, Option.filter_eq_some_iff]
    exact ⟨hb, by simp [hcov.unresolved hres]⟩
  · unfold Covers
    rw [h.targetMatchers]
    exact hcov

/-- A rule whose slots are covered finds a source alert whenever it has one. -/
theorem hasEqual_complete {clock now : ℤ} (hle : clock ≤ now) (hc : Covered clock r)
    {lset : LabelSet} {fp : Fingerprint} {a : Alert} (ha : r.scache.alerts.lookup fp = some a)
    (hres : a.resolvedAt now = false)
    (hequal : ∀ n ∈ r.equal, LabelSet.get a.labels n = LabelSet.get lset n)
    (hone : Matchers.matches r.sourceMatchers lset = true →
      Matchers.matches r.targetMatchers a.labels = false) :
    (r.hasEqual lset (Matchers.matches r.sourceMatchers lset) now).isSome = true := by
  obtain ⟨fb, b, hfb, hb, hcov⟩ := hc fp a ha (Alert.resolvedAt_earlier hle hres)
  have hkey : r.fingerprintEquals a.labels = r.fingerprintEquals lset := by
    unfold InhibitRule.fingerprintEquals
    rw [InhibitRule.equalSet_eq_iff.mpr hequal]
  rw [hkey] at hfb
  have hfind : r.findEqualSourceAlert lset now = some b :=
    findEqualSourceAlert_eq_some.mpr ⟨fb, hfb, hb, hcov.unresolved hres⟩
  have hsome := hasEqual_eq_some.mpr ⟨b, hfind, rfl, fun hex => by
    cases ht : Matchers.matches r.targetMatchers b.labels with
    | false => rfl
    | true =>
      have hcontra := hcov.2 ht
      rw [hone hex] at hcontra
      cases hcontra⟩
  rw [hsome]
  rfl

/-! ### Runs -/

end

theorem mem_modify {α : Type*} {l : List α} {i : ℕ} {f : α → α} {y : α} (h : y ∈ l.modify i f) :
    y ∈ l ∨ ∃ x, l[i]? = some x ∧ y = f x := by
  obtain ⟨j, hj⟩ := List.mem_iff_getElem?.mp h
  rw [List.getElem?_modify] at hj
  by_cases hij : i = j
  · subst hij
    cases hx : l[i]? with
    | none => simp [hx] at hj
    | some x =>
      rw [hx] at hj
      exact Or.inr ⟨x, rfl, (by simpa using hj.symm)⟩
  · simp only [if_neg hij, Option.map_eq_map, Option.map_id'] at hj
    exact Or.inl (List.mem_of_getElem? hj)

/-- A configured rule. -/
structure RuleConfig [Regexp] where
  name : GoString
  sourceMatchers : Matchers
  targetMatchers : Matchers
  equal : List LabelName

structure State [Regexp] where
  rules : List InhibitRule
  clock : ℤ

/-- An alert is processed by all rules; the cache of one rule is collected. -/
inductive Op
  | process (now : ℤ) (a : Alert)
  | gc (now : ℤ) (rule : ℕ) (order : List Fingerprint)

section
variable [Regexp]

def init (cfgs : List RuleConfig) (t : ℤ) : State :=
  ⟨cfgs.map fun c => .new c.name c.sourceMatchers c.targetMatchers c.equal, t⟩

/-- The clock does not go back, a collection ranges over its cache, and the label
sets that are fingerprinted are among `S`. -/
def Enabled (S : Finset LabelSet) (s : State) : Op → Prop
  | .process now a => s.clock ≤ now ∧ a.labels ∈ S ∧ ∀ r ∈ s.rules, r.equalSet a.labels ∈ S
  | .gc now i order => s.clock ≤ now ∧ ∀ r ∈ s.rules[i]?, GoMap.Ranges r.scache.alerts order

instance (S : Finset LabelSet) (s : State) (op : Op) : Decidable (Enabled S s op) := by
  cases op <;> unfold Enabled <;> infer_instance

variable [LabelHash]

def next (s : State) : Op → State
  | .process now a => ⟨Inhibitor.processAlert s.rules now a, now⟩
  | .gc now i order => ⟨s.rules.modify i fun r => r.gc now order, now⟩

/-- What completeness asks of a step. -/
def Orderly (s : State) : Op → Prop
  | .process now a => ∀ r ∈ s.rules, OrderlyAlert r now a
  | .gc now i _ => ∀ r ∈ s.rules[i]?, OrderlyGC r now

instance (s : State) (op : Op) : Decidable (Orderly s op) := by
  cases op <;> unfold Orderly <;> infer_instance

variable {S : Finset LabelSet} {s : State}

theorem sound_init (cfgs : List RuleConfig) (t : ℤ) : ∀ r ∈ (init cfgs t).rules, Sound S r := by
  intro r hr
  obtain ⟨c, -, rfl⟩ := List.mem_map.mp hr
  exact sound_new c.name c.sourceMatchers c.targetMatchers c.equal

theorem sound_next (hs : ∀ r ∈ s.rules, Sound S r) {op : Op} (hen : Enabled S s op) :
    ∀ r ∈ (next s op).rules, Sound S r := by
  cases op with
  | process now a =>
    intro r' hr'
    obtain ⟨r, hr, rfl⟩ := List.mem_map.mp hr'
    exact sound_processAlert (hs r hr) hen.2.1 (hen.2.2 r hr) now
  | gc now i order =>
    intro r' hr'
    rcases mem_modify hr' with hr | ⟨r, hi, rfl⟩
    · exact hs r' hr
    · exact sound_collected (hs r (List.mem_of_getElem? hi))
        (InhibitRule.gc_collected (hen.2 r hi) now)

theorem sound_of_run {cfgs : List RuleConfig} {t : ℤ} {ops : List Op}
    (hrun : Run (Fires (Enabled S) next) (init cfgs t) ops s) : ∀ r ∈ s.rules, Sound S r := by
  refine hrun.invariant (I := fun s => ∀ r ∈ s.rules, Sound S r) ?_ (sound_init cfgs t)
  rintro s op s' hs ⟨hen, rfl⟩
  exact sound_next hs hen

/-- Inhibition is sound: after every run, an alert that is muted is muted by a
cached source alert of a rule that targets it, with the same equal labels and not
two-sided if the muted alert is; the marker gets that alert's fingerprint. No
alert is muted by itself. -/
theorem mutes_sound (hinj : Set.InjOn fingerprint (S : Set LabelSet)) {cfgs : List RuleConfig}
    {t : ℤ} {ops : List Op} (hrun : Run (Fires (Enabled S) next) (init cfgs t) ops s) {now : ℤ}
    {lset : LabelSet} (hlset : ∀ r ∈ s.rules, r.equalSet lset ∈ S)
    (h : (Inhibitor.mutes s.rules lset now).1 = true) :
    ∃ r ∈ s.rules, Matchers.matches r.targetMatchers lset = true ∧
      ∃ a, Justifies r lset now a ∧ a.labels ≠ lset ∧
        (Inhibitor.mutes s.rules lset now).2 = [fingerprint a.labels] := by
  have hs := sound_of_run hrun
  obtain ⟨r, hr, htarget, fp, hfp, hmark⟩ := mutes_marked h
  obtain ⟨a, hj, rfl⟩ := hasEqual_sound hinj (hs r hr) (hlset r hr) hfp
  refine ⟨r, hr, htarget, a, hj, ?_, hmark⟩
  rintro rfl
  have hone := hj.oneSided hj.source
  rw [htarget] at hone
  cases hone

/-- The invariant of completeness. -/
def Complete (S : Finset LabelSet) (s : State) : Prop :=
  ∀ r ∈ s.rules, Sound S r ∧ Covered s.clock r

theorem complete_init (cfgs : List RuleConfig) (t : ℤ) : Complete S (init cfgs t) := by
  intro r hr
  refine ⟨sound_init cfgs t r hr, ?_⟩
  obtain ⟨c, -, rfl⟩ := List.mem_map.mp hr
  intro fp a ha
  simp [InhibitRule.new, AlertStore.new] at ha

theorem complete_next (hinj : Set.InjOn fingerprint (S : Set LabelSet)) (hs : Complete S s)
    {op : Op} (hord : Orderly s op) (hen : Enabled S s op) : Complete S (next s op) := by
  have hsound := sound_next (fun r hr => (hs r hr).1) hen
  cases op with
  | process now a =>
    intro r' hr'
    refine ⟨hsound r' hr', ?_⟩
    obtain ⟨r, hr, rfl⟩ := List.mem_map.mp hr'
    exact covered_processAlert hinj (hs r hr).1 hen.1 (hs r hr).2 hen.2.1 (hord r hr)
  | gc now i order =>
    intro r' hr'
    refine ⟨hsound r' hr', ?_⟩
    rcases mem_modify hr' with hr | ⟨r, hi, rfl⟩
    · exact (hs r' hr).2.later hen.1
    · exact covered_collected hen.1 (hs r (List.mem_of_getElem? hi)).2 (hord r hi)
        (InhibitRule.gc_collected (hen.2 r hi) now)

/-- Inhibition is complete in every run whose steps are orderly: whenever a rule
that targets a label set has an unresolved source alert for it, it is muted. -/
theorem mutes_complete (hinj : Set.InjOn fingerprint (S : Set LabelSet)) {cfgs : List RuleConfig}
    {t : ℤ} {ops : List Op}
    (hrun : Run (Guarded Orderly (Fires (Enabled S) next)) (init cfgs t) ops s) {now : ℤ}
    (hnow : s.clock ≤ now) {lset : LabelSet} {r : InhibitRule} (hr : r ∈ s.rules)
    (htarget : Matchers.matches r.targetMatchers lset = true) {fp : Fingerprint} {a : Alert}
    (ha : r.scache.alerts.lookup fp = some a) (hres : a.resolvedAt now = false)
    (hequal : ∀ n ∈ r.equal, LabelSet.get a.labels n = LabelSet.get lset n)
    (hone : Matchers.matches r.sourceMatchers lset = true →
      Matchers.matches r.targetMatchers a.labels = false) :
    (Inhibitor.mutes s.rules lset now).1 = true := by
  have hs : Complete S s := by
    refine hrun.invariant ?_ (complete_init cfgs t)
    rintro s op s' hs ⟨hord, hen, rfl⟩
    exact complete_next hinj hs hord hen
  rw [mutes_eq_true]
  exact ⟨r, hr, htarget, hasEqual_complete hnow (hs r hr).2 ha hres hequal hone⟩

end

/-! ### A collected alert takes the slot of a live one with it -/

section
attribute [local instance] noRegexp fnvLabelHash

/-- Criticals inhibit warnings of the same cluster. -/
def criticalOverWarning : RuleConfig where
  name := []
  sourceMatchers := [⟨.equal, str "severity", str "critical", by simp [MatchType.isRegexp]⟩]
  targetMatchers := [⟨.equal, str "severity", str "warning", by simp [MatchType.isRegexp]⟩]
  equal := [str "cluster"]

def labelsOf (severity name : String) : LabelSet :=
  (((∅ : LabelSet).insert (str "severity") (str severity)).insert (str "cluster") (str "c")).insert
    Alert.alertNameLabel (str name)

/-- A critical alert that ends at the given time. -/
def critical (name : String) (endsAt : ℤ) : Alert where
  labels := labelsOf "critical" name
  annotations := ∅
  startsAt := 1
  endsAt := endsAt
  generatorURL := []
  updatedAt := 1
  timeout := false

/-- The label sets of the two alerts and their equal labels. -/
def knownSets : Finset LabelSet :=
  {labelsOf "critical" "A", labelsOf "critical" "B",
    (∅ : LabelSet).insert (str "cluster") (str "c")}

theorem injOn_knownSets : Set.InjOn fingerprint (knownSets : Set LabelSet) := by
  decide +kernel

/-- The alert A ends at 10 and B, which has taken the slot, at 100. -/
def collectedRun : List Op :=
  [.process 1 (critical "A" 10), .process 2 (critical "B" 100),
    .gc 50 0 [fingerprint (labelsOf "critical" "A"), fingerprint (labelsOf "critical" "B")]]

/-- After A is collected, B is cached and unresolved but inhibits nothing. -/
theorem collectedRun_not_muted :
    let s := collectedRun.foldl next (init [criticalOverWarning] 0)
    Set.InjOn fingerprint (knownSets : Set LabelSet) ∧
    Run (Fires (Enabled knownSets) next) (init [criticalOverWarning] 0) collectedRun s ∧
    (∃ r ∈ s.rules, Matchers.matches r.targetMatchers (labelsOf "warning" "W") = true ∧
      Matchers.matches r.sourceMatchers (labelsOf "warning" "W") = false ∧
      ∃ a ∈ r.scache.alerts.lookup (fingerprint (labelsOf "critical" "B")),
        a.resolvedAt 60 = false ∧
        ∀ n ∈ r.equal, LabelSet.get a.labels n = LabelSet.get (labelsOf "warning" "W") n) ∧
    (Inhibitor.mutes s.rules (labelsOf "warning" "W") 60).1 = false := by
  exact ⟨injOn_knownSets, Run.of_feasible (by decide +kernel), by decide +kernel,
    by decide +kernel⟩

/-- The run before the collection. -/
def takenRun : List Op := [.process 1 (critical "A" 10), .process 2 (critical "B" 100)]

/-- Before the collection B inhibits the warning, also after A has resolved. -/
theorem mutes_complete_taken :
    (Inhibitor.mutes (takenRun.foldl next (init [criticalOverWarning] 0)).rules
      (labelsOf "warning" "W") 60).1 = true := by
  have hrun : Run (Guarded Orderly (Fires (Enabled knownSets) next))
      (init [criticalOverWarning] 0) takenRun
      (takenRun.foldl next (init [criticalOverWarning] 0)) :=
    Run.of_feasible_guarded (by decide +kernel)
  obtain ⟨r, hr, htarget, hsource, a, ha, hres, hequal⟩ :
      ∃ r ∈ (takenRun.foldl next (init [criticalOverWarning] 0)).rules,
        Matchers.matches r.targetMatchers (labelsOf "warning" "W") = true ∧
        Matchers.matches r.sourceMatchers (labelsOf "warning" "W") = false ∧
        ∃ a ∈ r.scache.alerts.lookup (fingerprint (labelsOf "critical" "B")),
          a.resolvedAt 60 = false ∧
          ∀ n ∈ r.equal, LabelSet.get a.labels n = LabelSet.get (labelsOf "warning" "W") n := by
    decide +kernel
  exact mutes_complete injOn_knownSets hrun (by decide +kernel) hr htarget ha hres hequal
    (fun h => by simp [hsource] at h)

/-- The inhibition of that run is justified. -/
theorem mutes_sound_taken :
    let s := takenRun.foldl next (init [criticalOverWarning] 0)
    ∃ r ∈ s.rules, Matchers.matches r.targetMatchers (labelsOf "warning" "W") = true ∧
      ∃ a, Justifies r (labelsOf "warning" "W") 60 a ∧ a.labels ≠ labelsOf "warning" "W" ∧
        (Inhibitor.mutes s.rules (labelsOf "warning" "W") 60).2 = [fingerprint a.labels] :=
  mutes_sound injOn_knownSets (Run.of_feasible (by decide +kernel)) (by decide +kernel)
    (by decide +kernel)

end

end Alertmanager.Inhibition
