import Alertmanager.GoQuote
import Alertmanager.Labels

/-!
# Matchers as text and in order

`Matcher.String`, `Matchers.String` and `Matchers.Less` of `pkg/labels/matcher.go`. A
name with a reserved character is quoted, and then the value is quoted in the same way;
otherwise the name is bare and the value escaped as in OpenMetrics. Either way the text
of a matcher ends with itself, so that a list of matchers can be read back. The order
compares name, value and type, so that it has no ties but equal matchers.
-/
namespace Alertmanager

/-- `MatchType.String`. -/
def MatchType.string : MatchType → GoString
  | .equal => str "="
  | .notEqual => str "!="
  | .regexp => str "=~"
  | .notRegexp => str "!~"

/-- `unicode.IsSpace`. -/
def isSpace (r : ℕ) : Bool :=
  9 ≤ r && r ≤ 13 || r == 0x20 || r == 0x85 || r == 0xA0 || r == 0x1680 ||
    0x2000 ≤ r && r ≤ 0x200A || r == 0x2028 || r == 0x2029 || r == 0x202F || r == 0x205F ||
    r == 0x3000

/-- The reserved characters of the matcher syntax, without the spaces. -/
def reservedBytes : GoString := str "\x7b\x7d!=~,\\\"'`"

/-- `isReserved`. -/
def isReserved (r : ℕ) : Bool := isSpace r || (reservedBytes.map UInt8.toNat).contains r

/-- `strings.ContainsFunc(s, isReserved)`. An invalid byte reads as the replacement
character, which is not reserved. -/
def containsReserved (s : GoString) : Bool :=
  (Utf8.runes s).any fun c => Utf8.isRune c && isReserved (Utf8.rune c)

/-- The replacements of `openMetricsEscape`. -/
def openMetricsByte (b : UInt8) : GoString :=
  if b = 92 then [92, 92] else if b = 10 then [92, 110] else if b = 34 then [92, 34] else [b]

/-- `openMetricsEscape`. -/
def openMetricsEscape (s : GoString) : GoString := s.flatMap openMetricsByte

/-- `Matcher.String`. -/
def Matcher.string [Regexp] [Unicode] (m : Matcher) : GoString :=
  if containsReserved m.name then
    Strconv.quote m.name ++ m.type.string ++ Strconv.quote m.value
  else m.name ++ m.type.string ++ (34 :: openMetricsEscape m.value ++ [34])

/-- `Matchers.String`. -/
def Matchers.string [Regexp] [Unicode] (ms : Matchers) : GoString :=
  123 :: ((str ",").intercalate (ms.map Matcher.string) ++ [125])

def MatchType.ord : MatchType → ℕ
  | .equal => 0
  | .notEqual => 1
  | .regexp => 2
  | .notRegexp => 3

/-- `Matchers.Less`, of the two matchers it compares. -/
def Matchers.less [Regexp] (a b : Matcher) : Bool :=
  if b.name < a.name then false
  else if a.name < b.name then true
  else if b.value < a.value then false
  else if a.value < b.value then true
  else decide (a.type.ord < b.type.ord)

/-- What `sort.Sort` makes of the matchers: it need not be stable. -/
structure Matchers.IsSort [Regexp] (ms sorted : Matchers) : Prop where
  perm : sorted.Perm ms
  sorted : sorted.Pairwise fun a b => Matchers.less b a = false

/-! ### Reading matchers back -/

theorem Matcher.ext_fields [Regexp] {m m' : Matcher} (ht : m.type = m'.type)
    (hn : m.name = m'.name) (hv : m.value = m'.value) : m = m' := by
  cases m
  cases m'
  subst ht hn hv
  rfl

/-- The type, the name and the value of a matcher. -/
def Matcher.fields [Regexp] (m : Matcher) : MatchType × LabelName × LabelValue :=
  (m.type, m.name, m.value)

theorem newMatcher_eq_some_iff [Regexp] {ty : MatchType} {name value : GoString} {m : Matcher} :
    newMatcher ty name value = some m ↔ m.type = ty ∧ m.name = name ∧ m.value = value := by
  unfold newMatcher
  constructor
  · intro h
    split_ifs at h
    obtain rfl := Option.some.inj h
    exact ⟨rfl, rfl, rfl⟩
  · rintro ⟨rfl, rfl, rfl⟩
    rw [dif_pos m.compiles]

theorem mem_runes_of_ascii {s : GoString} {b : UInt8} (hb : b ∈ s) (hlt : b.toNat < 0x80) :
    [b] ∈ Utf8.runes s := by
  rw [← Utf8.flatten_runes s] at hb
  obtain ⟨c, hc, hbc⟩ := List.mem_flatten.mp hb
  obtain hrune | ⟨b', rfl, hb'⟩ := Utf8.isPiece_of_mem_runes hc
  · cases Utf8.encoding_of_isRune hrune with
    | one b0 h0 =>
      obtain rfl := List.mem_singleton.mp hbc
      exact hc
    | two b0 b1 h0 h1 | three b0 b1 b2 h0 h1 h01 h2 | four b0 b1 b2 b3 h0 h1 h01 h2 h3 =>
      simp only [List.mem_cons, List.not_mem_nil, or_false] at hbc
      rcases hbc with rfl | hbc
      · omega
      · rcases hbc with rfl | rfl | rfl <;> omega
  · obtain rfl := List.mem_singleton.mp hbc
    have := UInt8.le_iff_toNat_le.mp hb'
    simp at this
    omega

theorem not_mem_of_not_reserved {s : GoString} (h : containsReserved s = false) {b : UInt8}
    (hb : b ∈ s) : b ∉ reservedBytes := by
  intro hres
  have hlt : b.toNat < 0x80 := by
    have hall : reservedBytes.all (fun x => decide (x.toNat < 0x80)) = true := by decide
    exact of_decide_eq_true (List.all_eq_true.mp hall b hres)
  have hrune : Utf8.rune [b] = b.toNat := Nat.mod_eq_of_lt hlt
  have hreserved : isReserved b.toNat = true := by
    simp only [isReserved, Bool.or_eq_true]
    exact Or.inr (List.contains_iff_mem.mpr (List.mem_map_of_mem hres))
  have hnot := List.any_eq_false.mp h [b] (mem_runes_of_ascii hb hlt)
  have hisRune : Utf8.isRune [b] = true := by
    simpa [Utf8.isRune, UInt8.lt_iff_toNat_lt] using hlt
  simp [hisRune, hrune, hreserved] at hnot

theorem openMetricsByte_selfDelimiting :
    SelfDelimiting (fun _ => True) openMetricsByte := by
  intro a b _ _ s t h
  simp only [openMetricsByte] at h
  split_ifs at h <;> simp_all

theorem openMetricsEscape_selfDelimiting :
    SelfDelimiting (fun _ => True) fun s => 34 :: openMetricsEscape s ++ [34] := by
  have hstart : ∀ b : UInt8, True → ∃ x xs, openMetricsByte b = x :: xs ∧ x ≠ 34 := by
    intro b _
    simp only [openMetricsByte]
    split_ifs with h92 h10 h34
    · exact ⟨92, _, rfl, by decide⟩
    · exact ⟨92, _, rfl, by decide⟩
    · exact ⟨92, _, rfl, by decide⟩
    · exact ⟨b, [], rfl, h34⟩
  have hbody := (openMetricsByte_selfDelimiting.closed hstart).separated [34]
  intro s t _ _ s' t' h
  exact hbody s t (fun _ _ => trivial) (fun _ _ => trivial) s' t' h

/-- A type is told by what stands before the quote. -/
theorem eq_of_type_string {t t' : MatchType} {s s' : GoString}
    (h : t.string ++ 34 :: s = t'.string ++ 34 :: s') : t = t' ∧ s = s' := by
  cases t <;> cases t' <;> simp_all [MatchType.string, str, String.utf8EncodeChar]

/-- The bytes that begin a type. -/
def IsOperator (b : UInt8) : Prop := b = 61 ∨ b = 33

theorem exists_type_string (t : MatchType) : ∃ b bs, t.string = b :: bs ∧ IsOperator b := by
  cases t with
  | equal => exact ⟨61, [], rfl, Or.inl rfl⟩
  | notEqual => exact ⟨33, [61], rfl, Or.inr rfl⟩
  | regexp => exact ⟨61, [126], rfl, Or.inl rfl⟩
  | notRegexp => exact ⟨33, [126], rfl, Or.inr rfl⟩

theorem not_isOperator_of_not_reserved {s : GoString} (h : containsReserved s = false) {b : UInt8}
    (hb : b ∈ s) : ¬ IsOperator b := by
  rintro (rfl | rfl)
  · exact not_mem_of_not_reserved h hb (by decide)
  · exact not_mem_of_not_reserved h hb (by decide)

section
variable [Regexp] [Unicode]

/-- The text of a matcher with a bare name begins neither with a quote nor with a brace. -/
theorem head_string_of_not_reserved {m : Matcher} (h : containsReserved m.name = false) :
    ∃ b bs, m.string = b :: bs ∧ b ≠ 34 ∧ b ≠ 125 := by
  rw [Matcher.string, if_neg (by simp [h])]
  cases hname : m.name with
  | nil =>
    obtain ⟨b, bs, htype, hb⟩ := exists_type_string m.type
    refine ⟨b, bs ++ (34 :: openMetricsEscape m.value ++ [34]), by simp [htype], ?_⟩
    rcases hb with rfl | rfl
    · exact ⟨by decide, by decide⟩
    · exact ⟨by decide, by decide⟩
  | cons b bs =>
    have hb := not_mem_of_not_reserved h (b := b) (by simp [hname])
    refine ⟨b, _, rfl, ?_, ?_⟩
    · rintro rfl
      exact hb (by decide)
    · rintro rfl
      exact hb (by decide)

theorem head_string_of_reserved {m : Matcher} (h : containsReserved m.name = true) :
    ∃ bs, m.string = 34 :: bs := by
  rw [Matcher.string, if_pos h]
  exact ⟨_, rfl⟩

theorem string_selfDelimiting : SelfDelimiting (fun _ => True) Matcher.string := by
  intro m m' _ _ s t h
  cases hm : containsReserved m.name with
  | true =>
    cases hm' : containsReserved m'.name with
    | true =>
      simp only [Matcher.string, hm, hm', if_true, List.append_assoc] at h
      obtain ⟨hname, htype⟩ := Strconv.quote_selfDelimiting _ _ trivial trivial _ _ h
      obtain ⟨htype, hvalue⟩ := eq_of_type_string htype
      obtain ⟨hvalue, hst⟩ := Strconv.quote_selfDelimiting m.value m'.value trivial trivial s t
        (congrArg (34 :: ·) hvalue)
      exact ⟨Matcher.ext_fields htype hname hvalue, hst⟩
    | false =>
      obtain ⟨bs, hbs⟩ := head_string_of_reserved hm
      obtain ⟨b, bs', hbs', hb, -⟩ := head_string_of_not_reserved hm'
      rw [hbs, hbs'] at h
      exact absurd (List.cons.inj h).1.symm hb
  | false =>
    cases hm' : containsReserved m'.name with
    | true =>
      obtain ⟨bs, hbs⟩ := head_string_of_reserved hm'
      obtain ⟨b, bs', hbs', hb, -⟩ := head_string_of_not_reserved hm
      rw [hbs, hbs'] at h
      exact absurd (List.cons.inj h).1 hb
    | false =>
      -- Bare names end where the type begins.
      obtain ⟨x, xs, htype, hx⟩ := exists_type_string m.type
      obtain ⟨y, ys, htype', hy⟩ := exists_type_string m'.type
      simp only [Matcher.string, hm, hm', Bool.false_eq_true, if_false, htype, htype',
        List.append_assoc, List.cons_append] at h
      obtain ⟨hname, rfl, hrest⟩ := eq_of_span
        (fun b hb => not_isOperator_of_not_reserved hm hb)
        (fun b hb => not_isOperator_of_not_reserved hm' hb) hx hy h
      have hwhole := congrArg (x :: ·) hrest
      simp only [← List.cons_append, ← htype, ← htype'] at hwhole
      obtain ⟨htype, hvalue⟩ := eq_of_type_string (by simpa using hwhole)
      obtain ⟨hvalue, hst⟩ := openMetricsEscape_selfDelimiting m.value m'.value trivial trivial
        s t (by simpa using hvalue)
      exact ⟨Matcher.ext_fields htype hname hvalue, hst⟩

theorem matchers_string_selfDelimiting : SelfDelimiting (fun _ => True) Matchers.string := by
  have hstart : ∀ m : Matcher, True → ∃ x xs, m.string = x :: xs ∧ x ≠ 125 := by
    intro m _
    cases hm : containsReserved m.name with
    | true =>
      obtain ⟨bs, hbs⟩ := head_string_of_reserved hm
      exact ⟨34, bs, hbs, by decide⟩
    | false =>
      obtain ⟨b, bs, hbs, -, hb⟩ := head_string_of_not_reserved hm
      exact ⟨b, bs, hbs, hb⟩
  have hlist := (string_selfDelimiting.intercalate_closed (c := 44) (z := 125) (by decide) []
    hstart).separated [123]
  intro ms ms' _ _ s t h
  exact hlist ms ms' (fun _ _ => trivial) (fun _ _ => trivial) s t h

end

/-! ### The order -/

theorem MatchType.ord_injective : Function.Injective MatchType.ord := by
  intro t t' h
  cases t <;> cases t' <;> first | rfl | exact absurd h (by decide)

section
variable [Regexp]

/-- Name, value and type, compared in this order. -/
def Matcher.sortKey (m : Matcher) : GoString ×ₗ (GoString ×ₗ ℕ) :=
  toLex (m.name, toLex (m.value, m.type.ord))

theorem Matchers.less_eq_false_iff {a b : Matcher} :
    Matchers.less b a = false ↔ a.sortKey ≤ b.sortKey := by
  simp only [Matcher.sortKey, Prod.Lex.toLex_le_toLex, Matchers.less]
  rcases lt_trichotomy a.name b.name with hname | hname | hname
  · simp [hname]
  · rcases lt_trichotomy a.value b.value with hvalue | hvalue | hvalue
    · simp [hname, hvalue]
    · simp [hname, hvalue]
    · simp [hname, hvalue, hvalue.not_gt, hvalue.ne']
  · simp [hname, hname.not_gt, hname.ne']

theorem Matcher.sortKey_injective : Function.Injective Matcher.sortKey := by
  intro a b h
  simp only [Matcher.sortKey, toLex_inj, Prod.mk.injEq] at h
  exact Matcher.ext_fields (MatchType.ord_injective h.2.2) h.1 h.2.1

/-- Matchers have one sorted order, whatever the order they were given in. -/
theorem Matchers.IsSort.eq {ms ms' sorted sorted' : Matchers} (h : IsSort ms sorted)
    (h' : IsSort ms' sorted') (hperm : ms.Perm ms') : sorted = sorted' :=
  (h.perm.trans (hperm.trans h'.perm.symm)).eq_of_pairwise
    (fun _ _ _ _ hab hba => Matcher.sortKey_injective
      (le_antisymm (less_eq_false_iff.mp hab) (less_eq_false_iff.mp hba))) h.sorted h'.sorted

/-- A sort of matchers. -/
def Matchers.sort (ms : Matchers) : Matchers :=
  ms.insertionSort fun a b => Matchers.less b a = false

theorem Matchers.isSort_sort (ms : Matchers) : IsSort ms ms.sort where
  perm := List.perm_insertionSort _ ms
  sorted := by
    have : Std.Total fun a b : Matcher => Matchers.less b a = false :=
      ⟨fun a b => by
        simp only [Matchers.less_eq_false_iff]
        exact le_total a.sortKey b.sortKey⟩
    have : IsTrans Matcher fun a b => Matchers.less b a = false :=
      ⟨fun a b c => by
        simp only [Matchers.less_eq_false_iff]
        exact le_trans⟩
    exact List.pairwise_insertionSort _ ms

end

end Alertmanager
