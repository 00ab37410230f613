import Alertmanager.AlertStore

/-!
# Inhibition rules

`inhibit/inhibit.go` and `inhibit/index.go`. A rule caches the alerts that match
its source side. To find one with the equal labels of a target, it keeps an index
with a single slot for each combination of equal labels; the slot holds the
fingerprint of one cached alert. A rule is given by its matchers, as
`NewInhibitRule` has them after reading the configuration.
-/
namespace Alertmanager

structure InhibitRule [Regexp] where
  name : GoString
  sourceMatchers : Matchers
  targetMatchers : Matchers
  equal : List LabelName
  scache : AlertStore
  sindex : GoMap Fingerprint Fingerprint

namespace InhibitRule
variable [Regexp]

/-- A rule with an empty cache and index. -/
def new (name : GoString) (sourceMatchers targetMatchers : Matchers) (equal : List LabelName) :
    InhibitRule :=
  ⟨name, sourceMatchers, targetMatchers, equal, .new, ∅⟩

/-- The equal labels of a label set; a missing label is set to the empty string. -/
def equalSet (r : InhibitRule) (lset : LabelSet) : LabelSet :=
  r.equal.foldr (fun n m => m.insert n (LabelSet.get lset n)) ∅

section
variable [LabelHash]

/-- `fingerprintEquals`. -/
def fingerprintEquals (r : InhibitRule) (lset : LabelSet) : Fingerprint :=
  fingerprint (r.equalSet lset)

/-- `updateIndex`. -/
def updateIndex (r : InhibitRule) (a : Alert) : InhibitRule :=
  let fp := fingerprint a.labels
  let eq := r.fingerprintEquals a.labels
  match r.sindex.lookup eq with
  | none => { r with sindex := r.sindex.insert eq fp }
  | some indexed =>
    if indexed = fp then r
    else match r.scache.get indexed with
      | .error _ => { r with sindex := r.sindex.insert eq fp }
      | .ok existing =>
        if existing.resolvedAt a.endsAt then { r with sindex := r.sindex.insert eq fp } else r

/-- The part of `processAlert` for one rule. -/
def processAlert (r : InhibitRule) (now : ℤ) (a : Alert) : InhibitRule :=
  if Matchers.matches r.sourceMatchers a.labels then
    match r.scache.set now a with
    | (some _, scache) => { r with scache := scache }
    | (none, scache) => updateIndex { r with scache := scache } a
  else r

/-- `findEqualSourceAlert`. -/
def findEqualSourceAlert (r : InhibitRule) (lset : LabelSet) (now : ℤ) : Option Alert :=
  match r.sindex.lookup (r.fingerprintEquals lset) with
  | none => none
  | some sourceFP =>
    match r.scache.get sourceFP with
    | .error _ => none
    | .ok alert => if alert.resolvedAt now then none else some alert

/-- `hasEqual`. -/
def hasEqual (r : InhibitRule) (lset : LabelSet) (excludeTwoSidedMatch : Bool) (now : ℤ) :
    Option Fingerprint :=
  match r.findEqualSourceAlert lset now with
  | none => none
  | some equal =>
    if excludeTwoSidedMatch && Matchers.matches r.targetMatchers equal.labels then none
    else some (fingerprint equal.labels)

/-- `gcCallback`. -/
def gcCallback (r : InhibitRule) : List Alert → InhibitRule
  | [] => r
  | a :: alerts =>
    gcCallback { r with sindex := r.sindex.erase (r.fingerprintEquals a.labels) } alerts

/-- `GC` of the source cache, which has no limit buckets, with its callback. -/
def gc (r : InhibitRule) (now : ℤ) (order : List Fingerprint) : InhibitRule :=
  let d := r.scache.gc now [] order
  let r := { r with scache := d.2 }
  if 0 < d.1.length then r.gcCallback d.1 else r

end

end InhibitRule

namespace Inhibitor
variable [Regexp] [LabelHash]

/-- `processAlert`. -/
def processAlert (rules : List InhibitRule) (now : ℤ) (a : Alert) : List InhibitRule :=
  rules.map fun r => r.processAlert now a

/-- `Mutes`: the answer, and the fingerprints that are set on the marker. -/
def mutes : List InhibitRule → LabelSet → ℤ → Bool × List Fingerprint
  | [], _, _ => (false, [])
  | r :: rules, lset, now =>
    if Matchers.matches r.targetMatchers lset = false then mutes rules lset now
    else match r.hasEqual lset (Matchers.matches r.sourceMatchers lset) now with
      | some inhibitedByFP => (true, [inhibitedByFP])
      | none => mutes rules lset now

end Inhibitor

/-! ### The equal labels -/

theorem lookup_foldr_insert (names : List LabelName) (lset : LabelSet) (n : LabelName) :
    (names.foldr (fun n m => m.insert n (LabelSet.get lset n)) (∅ : LabelSet)).lookup n =
      if n ∈ names then some (LabelSet.get lset n) else none := by
  induction names with
  | nil => simp
  | cons n₀ names ih =>
    rw [List.foldr_cons, GoMap.lookup_insert_eq, ih]
    by_cases hn : n = n₀
    · simp [hn]
    · simp [hn]

namespace InhibitRule
variable [Regexp]

/-- Two label sets have the same equal labels exactly when they agree on them, a
missing label counting as empty. -/
theorem equalSet_eq_iff {r : InhibitRule} {l₁ l₂ : LabelSet} :
    r.equalSet l₁ = r.equalSet l₂ ↔ ∀ n ∈ r.equal, LabelSet.get l₁ n = LabelSet.get l₂ n := by
  constructor
  · intro h n hn
    have hlook := congrArg (fun m : LabelSet => m.lookup n) h
    simpa [equalSet, lookup_foldr_insert, hn] using hlook
  · intro h
    refine Finmap.ext_lookup fun n => ?_
    unfold equalSet
    rw [lookup_foldr_insert, lookup_foldr_insert]
    split_ifs with hn
    · rw [h n hn]
    · rfl

variable [LabelHash]

/-- The rule's state is usable: the cache takes every alert, files it under its
fingerprint, and holds source alerts only. -/
structure CacheOk (r : InhibitRule) : Prop where
  alive : r.scache.destroyed = false
  unlimited : r.scache.perAlertLimit ≤ 0
  filed : ∀ fp a, r.scache.alerts.lookup fp = some a → fingerprint a.labels = fp
  source : ∀ fp a, r.scache.alerts.lookup fp = some a →
    Matchers.matches r.sourceMatchers a.labels = true

theorem cacheOk_new (name : GoString) (sourceMatchers targetMatchers : Matchers)
    (equal : List LabelName) : CacheOk (new name sourceMatchers targetMatchers equal) where
  alive := rfl
  unlimited := le_rfl
  filed fp a h := by simp [new, AlertStore.new] at h
  source fp a h := by simp [new, AlertStore.new] at h

/-- The fingerprint in the slot of an alert's equal labels after `updateIndex`. -/
def slotAfter (r : InhibitRule) (a : Alert) : Fingerprint :=
  match r.sindex.lookup (r.fingerprintEquals a.labels) with
  | none => fingerprint a.labels
  | some indexed =>
    if indexed = fingerprint a.labels then indexed
    else match r.scache.alerts.lookup indexed with
      | none => fingerprint a.labels
      | some existing =>
        if existing.resolvedAt a.endsAt then fingerprint a.labels else indexed

/-- How the slot of a processed alert is decided. -/
inductive SlotOutcome (r : InhibitRule) (a : Alert) : Fingerprint → Prop
  | empty (hslot : r.sindex.lookup (r.fingerprintEquals a.labels) = none) :
      SlotOutcome r a (fingerprint a.labels)
  | own (hslot : r.sindex.lookup (r.fingerprintEquals a.labels) = some (fingerprint a.labels)) :
      SlotOutcome r a (fingerprint a.labels)
  | dangling (fb : Fingerprint) (hslot : r.sindex.lookup (r.fingerprintEquals a.labels) = some fb)
      (hne : fb ≠ fingerprint a.labels) (hb : r.scache.alerts.lookup fb = none) :
      SlotOutcome r a (fingerprint a.labels)
  | taken (fb : Fingerprint) (b : Alert)
      (hslot : r.sindex.lookup (r.fingerprintEquals a.labels) = some fb)
      (hne : fb ≠ fingerprint a.labels) (hb : r.scache.alerts.lookup fb = some b)
      (hres : b.resolvedAt a.endsAt = true) : SlotOutcome r a (fingerprint a.labels)
  | kept (fb : Fingerprint) (b : Alert)
      (hslot : r.sindex.lookup (r.fingerprintEquals a.labels) = some fb)
      (hne : fb ≠ fingerprint a.labels) (hb : r.scache.alerts.lookup fb = some b)
      (hres : b.resolvedAt a.endsAt = false) : SlotOutcome r a fb

theorem slotAfter_outcome (r : InhibitRule) (a : Alert) : SlotOutcome r a (r.slotAfter a) := by
  unfold slotAfter
  cases hslot : r.sindex.lookup (r.fingerprintEquals a.labels) with
  | none => exact .empty hslot
  | some fb =>
    by_cases hne : fb = fingerprint a.labels
    · subst hne
      simpa using SlotOutcome.own hslot
    · cases hb : r.scache.alerts.lookup fb with
      | none => simpa [hne, hb] using SlotOutcome.dangling fb hslot hne hb
      | some b =>
        cases hres : b.resolvedAt a.endsAt with
        | true => simpa [hne, hb, hres] using SlotOutcome.taken fb b hslot hne hb hres
        | false => simpa [hne, hb, hres] using SlotOutcome.kept fb b hslot hne hb hres

theorem processAlert_of_match {r : InhibitRule} (hr : r.CacheOk) {a : Alert}
    (ha : Matchers.matches r.sourceMatchers a.labels = true) (now : ℤ) :
    r.processAlert now a =
      { r with
        scache := { r.scache with alerts := r.scache.alerts.insert (fingerprint a.labels) a }
        sindex := r.sindex.insert (r.fingerprintEquals a.labels) (r.slotAfter a) } := by
  have hset := AlertStore.set_of_no_limit hr.alive hr.unlimited now a
  have hself : ∀ fp, r.sindex.lookup (r.fingerprintEquals a.labels) = some fp →
      r.sindex.insert (r.fingerprintEquals a.labels) fp = r.sindex := by
    intro fp hfp
    refine Finmap.ext_lookup fun k => ?_
    rw [GoMap.lookup_insert_eq]
    split_ifs with hk
    · rw [hk, hfp]
    · rfl
  rw [processAlert, if_pos ha, hset]
  simp only [updateIndex, slotAfter]
  have hkey : fingerprintEquals { r with scache := { r.scache with
      alerts := r.scache.alerts.insert (fingerprint a.labels) a } } a.labels =
      r.fingerprintEquals a.labels := rfl
  rw [hkey]
  cases hslot : r.sindex.lookup (r.fingerprintEquals a.labels) with
  | none => rfl
  | some indexed =>
    simp only
    split_ifs with heq
    · rw [hself indexed hslot]
    · have hlook : (r.scache.alerts.insert (fingerprint a.labels) a).lookup indexed =
          r.scache.alerts.lookup indexed := Finmap.lookup_insert_of_ne _ heq
      simp only [AlertStore.get, hlook]
      cases r.scache.alerts.lookup indexed with
      | none => rfl
      | some existing =>
        simp only
        split_ifs
        · rfl
        · rw [hself indexed hslot]

theorem processAlert_of_not_match {r : InhibitRule} {a : Alert}
    (ha : Matchers.matches r.sourceMatchers a.labels = false) (now : ℤ) :
    r.processAlert now a = r := by
  rw [processAlert, if_neg (by simp [ha])]

theorem gcCallback_eq (r : InhibitRule) (alerts : List Alert) :
    r.gcCallback alerts = { r with
      sindex := alerts.foldl (fun m a => m.erase (r.fingerprintEquals a.labels)) r.sindex } := by
  induction alerts generalizing r with
  | nil => rfl
  | cons a alerts ih => exact ih _

/-- What a collection of the cache leaves: the unresolved alerts, and the slots of
the equal labels that no collected alert has. -/
structure Collected (now : ℤ) (r r' : InhibitRule) : Prop where
  sourceMatchers : r'.sourceMatchers = r.sourceMatchers
  targetMatchers : r'.targetMatchers = r.targetMatchers
  equal : r'.equal = r.equal
  alive : r'.scache.destroyed = r.scache.destroyed
  unlimited : r'.scache.perAlertLimit = r.scache.perAlertLimit
  alerts : ∀ fp, r'.scache.alerts.lookup fp =
    (r.scache.alerts.lookup fp).filter fun a => !a.resolvedAt now
  kept : ∀ k, (∀ fp a, r.scache.alerts.lookup fp = some a → a.resolvedAt now = true →
    r.fingerprintEquals a.labels ≠ k) → r'.sindex.lookup k = r.sindex.lookup k
  old : ∀ k fp, r'.sindex.lookup k = some fp → r.sindex.lookup k = some fp

theorem gc_collected {r : InhibitRule} {order : List Fingerprint}
    (ho : GoMap.Ranges r.scache.alerts order) (now : ℤ) : Collected now r (r.gc now order) := by
  let deleted := GoMap.deletedWhere (fun _ a => a.resolvedAt now) order r.scache.alerts
  have hgc : r.gc now order =
      { r with
        scache := (r.scache.gc now [] order).2
        sindex := deleted.foldl (fun m a => m.erase (r.fingerprintEquals a.labels)) r.sindex } := by
    simp only [gc]
    split_ifs with hlen
    · rw [gcCallback_eq]
      rfl
    · have hnil : deleted = [] := List.length_eq_zero_iff.mp (Nat.eq_zero_of_not_pos hlen)
      rw [hnil]
      rfl
  have hindex : ∀ k, (r.gc now order).sindex.lookup k =
      if k ∈ deleted.map (fun a => r.fingerprintEquals a.labels) then none
      else r.sindex.lookup k := by
    intro k
    rw [hgc]
    exact GoMap.lookup_foldl_erase _ deleted _ k
  refine ⟨by rw [hgc], by rw [hgc], by rw [hgc], by rw [hgc]; rfl, by rw [hgc]; rfl, ?_, ?_, ?_⟩
  · intro fp
    rw [hgc]
    exact GoMap.lookup_deleteWhere_of_ranges _ ho fp
  · intro k hk
    rw [hindex, if_neg]
    rw [List.mem_map]
    rintro ⟨a, ha, rfl⟩
    obtain ⟨fp, hfp, hres⟩ := (GoMap.mem_deletedWhere _ ho a).mp ha
    exact hk fp a hfp hres rfl
  · intro k fp h
    rw [hindex] at h
    split_ifs at h
    exact h

end InhibitRule

end Alertmanager
