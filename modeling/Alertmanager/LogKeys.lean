import Alertmanager.Decimal
import Alertmanager.NotificationLog
import Alertmanager.RouteKeys

/-!
# Keys of the notification log

The key under which a notification is logged is put together from texts of its own: the
matchers from the root to the route, the group labels, and the receiver. The matchers
are quoted or escaped, and read back in one way only. The names of the group labels are
printed as they are, so that a name which looks like the beginning of a label with its
value can make two groups share a key.
-/
namespace Alertmanager

/-! ### Receivers -/

/-- The names of a receiver have neither of the separators. -/
def Nflog.Receiver.Plain (r : Nflog.Receiver) : Prop :=
  (47 ∉ r.groupName ∧ 58 ∉ r.groupName) ∧ 47 ∉ r.integration ∧ 58 ∉ r.integration

instance (r : Nflog.Receiver) : Decidable r.Plain :=
  inferInstanceAs (Decidable
    ((47 ∉ r.groupName ∧ 58 ∉ r.groupName) ∧ 47 ∉ r.integration ∧ 58 ∉ r.integration))

theorem not_mem_str_toString {n : ℕ} {b : UInt8} (hb : b = 47 ∨ b = 58) :
    b ∉ str (toString n) := by
  intro h
  have hdigit := mem_str_toString h
  rcases hb with rfl | rfl
  · exact absurd hdigit.1 (by decide)
  · exact absurd hdigit.2 (by decide)

theorem colon_not_mem_receiverKey {r : Nflog.Receiver} (hr : r.Plain) :
    58 ∉ Nflog.receiverKey r := by
  have hslash : (58 : UInt8) ∉ str "/" := by decide
  simp only [Nflog.receiverKey, List.mem_append, not_or]
  exact ⟨⟨⟨⟨hr.1.2, hslash⟩, hr.2.2⟩, hslash⟩, not_mem_str_toString (Or.inr rfl)⟩

theorem receiverKey_injOn {r r' : Nflog.Receiver} (hr : r.Plain) (hr' : r'.Plain)
    (h : Nflog.receiverKey r = Nflog.receiverKey r') : r = r' := by
  have hslash : str "/" = [47] := rfl
  simp only [Nflog.receiverKey, hslash, List.append_assoc, List.singleton_append] at h
  obtain ⟨hname, -, hrest⟩ := eq_of_span (P := (· = 47))
    (fun b hb => ne_of_mem_of_not_mem hb hr.1.1) (fun b hb => ne_of_mem_of_not_mem hb hr'.1.1)
    rfl rfl h
  obtain ⟨hintegration, -, hidx⟩ := eq_of_span (P := (· = 47))
    (fun b hb => ne_of_mem_of_not_mem hb hr.2.1) (fun b hb => ne_of_mem_of_not_mem hb hr'.2.1)
    rfl rfl hrest
  have hnat : r.idx = r'.idx := UInt32.toNat_inj.mp (str_toString_inj hidx)
  cases r
  cases r'
  subst hname hintegration hnat
  rfl

theorem stateKey_injOn {k k' : GoString} {r r' : Nflog.Receiver} (hr : r.Plain) (hr' : r'.Plain)
    (h : Nflog.stateKey k r = Nflog.stateKey k' r') : k = k' ∧ r = r' := by
  have hcolon : str ":" = [58] := rfl
  simp only [Nflog.stateKey, hcolon, List.append_assoc, List.singleton_append] at h
  obtain ⟨hk, hkey⟩ := eq_of_last (colon_not_mem_receiverKey hr) (colon_not_mem_receiverKey hr') h
  exact ⟨hk, receiverKey_injOn hr hr' hkey⟩

/-! ### Group labels -/

/-- A name in which no value seems to begin. -/
def PlainName (n : LabelName) : Prop := ¬ [61, 34] <:+: n

instance (n : LabelName) : Decidable (PlainName n) := inferInstanceAs (Decidable (¬ _))

/-- All names of a label set are plain. -/
def LabelSet.Plain (ls : LabelSet) : Prop := ∀ n ∈ ls, PlainName n

section
variable [Unicode]

/-- A plain name with its value is delimited by the quotes of the value. -/
theorem pair_selfDelimiting :
    SelfDelimiting (fun p : LabelName × LabelValue => PlainName p.1)
      (fun p => p.1 ++ (str "=" ++ Strconv.quote p.2)) := by
  rintro ⟨n, v⟩ ⟨n', v'⟩ hn hn' s t h
  have heq : str "=" = [61] := rfl
  simp only [heq, Strconv.quote, List.append_assoc, List.cons_append, List.nil_append] at h
  obtain ⟨rfl, hrest⟩ := eq_of_mark (by decide) hn hn' h
  obtain ⟨rfl, hst⟩ := Strconv.quote_selfDelimiting v v' trivial trivial s t
    (by simpa [Strconv.quote] using hrest)
  exact ⟨rfl, hst⟩

/-- The labels in the order in which they are printed. -/
def LabelSet.pairs (ls : LabelSet) : List (LabelName × LabelValue) :=
  (GoMap.sortedKeys ls).map fun n => (n, LabelSet.get ls n)

omit [Unicode] in
theorem LabelSet.mem_pairs {ls : LabelSet} {n : LabelName} {v : LabelValue} :
    (n, v) ∈ LabelSet.pairs ls ↔ ls.lookup n = some v := by
  simp only [LabelSet.pairs, List.mem_map, GoMap.mem_sortedKeys, Prod.mk.injEq]
  constructor
  · rintro ⟨n, hn, rfl, rfl⟩
    obtain ⟨v, hv⟩ := Finmap.mem_iff.mp hn
    simp [LabelSet.get, hv]
  · intro h
    exact ⟨n, GoMap.mem_of_lookup h, rfl, by simp [LabelSet.get, h]⟩

omit [Unicode] in
theorem LabelSet.pairs_injective : Function.Injective LabelSet.pairs := by
  intro ls ls' h
  refine Finmap.ext_lookup fun n => Option.ext fun v => ?_
  rw [← LabelSet.mem_pairs, h, LabelSet.mem_pairs]

/-- Label sets with plain names are printed differently. -/
theorem labelSet_string_injOn {ls ls' : LabelSet} (hls : ls.Plain) (hls' : ls'.Plain)
    (h : LabelSet.string ls = LabelSet.string ls') : ls = ls' := by
  let print : LabelName × LabelValue → GoString := fun p => p.1 ++ (str "=" ++ Strconv.quote p.2)
  have hstring : ∀ l : LabelSet, LabelSet.string l =
      123 :: ((44 :: [32]).intercalate ((LabelSet.pairs l).map print) ++ [125]) := by
    intro l
    rw [LabelSet.string, LabelSet.pairs, List.map_map]
    rfl
  have hplain : ∀ {l : LabelSet}, l.Plain → ∀ p ∈ LabelSet.pairs l, PlainName p.1 := by
    rintro l hl ⟨n, v⟩ hp
    exact hl n (GoMap.mem_of_lookup (LabelSet.mem_pairs.mp hp))
  -- The empty set is the only one that leaves nothing between the braces.
  have hempty : ∀ p ps, [125] ≠ (44 :: [32]).intercalate ((p :: ps).map print) ++ [125] := by
    intro p ps heq
    have hlength := congrArg List.length heq
    simp [List.map_cons, intercalate_cons_eq, print, Strconv.quote, str] at hlength
    omega
  rw [hstring, hstring] at h
  have hbody := (List.cons.inj h).2
  refine LabelSet.pairs_injective ?_
  have hp := hplain hls
  have hp' := hplain hls'
  generalize LabelSet.pairs ls = ps at hbody hp
  generalize LabelSet.pairs ls' = ps' at hbody hp'
  cases ps with
  | nil =>
    cases ps' with
    | nil => rfl
    | cons p ps' => exact absurd hbody (hempty p ps')
  | cons p ps =>
    cases ps' with
    | nil => exact absurd hbody.symm (hempty p ps)
    | cons p' ps' =>
      exact (pair_selfDelimiting.intercalate (c := 44) (z := 125) (by decide) [32]).inj
        ⟨List.cons_ne_nil p ps, hp⟩ ⟨List.cons_ne_nil p' ps', hp'⟩ hbody

/-! ### Routes -/

variable [Regexp]

omit [Unicode] in
theorem matchersFromRoot_ne_nil (l : Located) : l.matchersFromRoot ≠ [] := by
  cases l with
  | root r => simp [Located.matchersFromRoot]
  | child parent i r => simp [Located.matchersFromRoot]

/-- The key of a route lists the matchers from the root. -/
theorem key_eq (l : Located) :
    l.key = (47 :: []).intercalate (l.matchersFromRoot.map Matchers.string) := by
  induction l with
  | root r => simp [Located.key, Located.matchersFromRoot]
  | child parent i r ih =>
    rw [Located.key, Located.matchersFromRoot, List.map_append, List.map_singleton,
      intercalate_append_singleton _ _ (by simpa using matchersFromRoot_ne_nil parent), ← ih]
    rfl

theorem groupKeyString_injOn {l l' : Located} {ls ls' : LabelSet} (hls : ls.Plain)
    (hls' : ls'.Plain) (h : groupKeyString l.key ls = groupKeyString l'.key ls') :
    l.matchersFromRoot = l'.matchersFromRoot ∧ ls = ls' := by
  have hcolon : str ":" = [58] := rfl
  simp only [groupKeyString, hcolon, key_eq] at h
  obtain ⟨hmatchers, hlabels⟩ :=
    (matchers_string_selfDelimiting.intercalate (c := 47) (z := 58) (by decide) [])
      l.matchersFromRoot l'.matchersFromRoot ⟨matchersFromRoot_ne_nil l, fun _ _ => trivial⟩
      ⟨matchersFromRoot_ne_nil l', fun _ _ => trivial⟩ ls.string ls'.string (by simpa using h)
  exact ⟨hmatchers, labelSet_string_injOn hls hls' hlabels⟩

/-- Distinct notification streams have distinct log keys if the names of the group
labels are plain. -/
theorem log_keys_distinct {l l' : Located} {ls ls' : LabelSet} {r r' : Nflog.Receiver}
    (hls : ls.Plain) (hls' : ls'.Plain) (hr : r.Plain) (hr' : r'.Plain)
    (h : Nflog.stateKey (groupKeyString l.key ls) r =
      Nflog.stateKey (groupKeyString l'.key ls') r') :
    l.matchersFromRoot = l'.matchersFromRoot ∧ ls = ls' ∧ r = r' := by
  obtain ⟨hgroup, hreceiver⟩ := stateKey_injOn hr hr' h
  obtain ⟨hmatchers, hlabels⟩ := groupKeyString_injOn hls hls' hgroup
  exact ⟨hmatchers, hlabels, hreceiver⟩

end

section
attribute [local instance] noRegexp asciiUnicode

/-- A root that groups by all labels. -/
def allLabelsRoute : Route := .node { defaultRouteOpts with groupByAll := true } [] false [] 0

def alertWith (labels : LabelSet) : Alert := ⟨labels, ∅, 1, 0, [], 1, false⟩

/-- Two labels. -/
def honestAlert : Alert := alertWith (List.toFinmap [⟨str "a", str "1"⟩, ⟨str "b", str "2"⟩])

/-- One label, whose name looks like a label with its value and the name of another. -/
def pretendingAlert : Alert := alertWith (List.toFinmap [⟨str "a=\"1\", b", str "2"⟩])

def pagerReceiver : Nflog.Receiver := ⟨str "team", str "pagerduty", 0⟩

/-- A root that groups by one label. -/
def oneLabelRoute : Route := .node { defaultRouteOpts with groupBy := [str "a"] } [] false [] 0

/-- Alerts that differ in another label fall into one group. -/
theorem log_keys_distinct_one_group :
    let ls := getGroupLabels honestAlert oneLabelRoute
    let ls' := getGroupLabels (alertWith (List.toFinmap [⟨str "a", str "1"⟩])) oneLabelRoute
    ls = ls' ∧ pagerReceiver.Plain := by
  intro ls ls'
  have hls : ∀ n ∈ ls.keys, PlainName n := by decide +kernel
  have hls' : ∀ n ∈ ls'.keys, PlainName n := by decide +kernel
  have hkey : Nflog.stateKey (groupKeyString (Located.root oneLabelRoute).key ls) pagerReceiver =
      Nflog.stateKey (groupKeyString (Located.root oneLabelRoute).key ls') pagerReceiver := by
    decide +kernel
  have hreceiver : pagerReceiver.Plain := by decide
  exact ⟨(log_keys_distinct (fun n hn => hls n (Finmap.mem_keys.mpr hn))
    (fun n hn => hls' n (Finmap.mem_keys.mpr hn)) hreceiver hreceiver hkey).2.1, hreceiver⟩

/-- Two groups of one route share a log key. -/
theorem pretendingAlert_shares_key :
    let ls := getGroupLabels honestAlert allLabelsRoute
    let ls' := getGroupLabels pretendingAlert allLabelsRoute
    (∀ n ∈ ls'.keys, n ≠ [] ∧ Utf8.validString n = true) ∧ pagerReceiver.Plain ∧
    Nflog.stateKey (groupKeyString (Located.root allLabelsRoute).key ls) pagerReceiver =
      Nflog.stateKey (groupKeyString (Located.root allLabelsRoute).key ls') pagerReceiver ∧
    ls ≠ ls' := by
  intro ls ls'
  exact ⟨by decide +kernel, by decide, by decide +kernel, by decide +kernel⟩

end

end Alertmanager
