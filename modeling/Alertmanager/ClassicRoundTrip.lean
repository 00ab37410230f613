import Alertmanager.ClassicSplit
import Alertmanager.MatcherRoundTrip

/-!
# Both parsers on printed matchers

A matcher with a classic name is printed with the escapes of OpenMetrics. In this text no
escape is ended by a comma, the classic parser splits it at the commas between the matchers
and its loop over the value undoes the escapes. The new parser reads it like every printed
matcher.
-/
namespace Alertmanager

/-- `[a-zA-Z_]`. -/
def isClassicStart (b : UInt8) : Bool := 97 ≤ b && b ≤ 122 || 65 ≤ b && b ≤ 90 || b == 95

/-- `[a-zA-Z_][a-zA-Z0-9_]*`. -/
def isClassicName : LabelName → Bool
  | [] => false
  | b :: bs => isClassicStart b && bs.all fun b => isClassicStart b || 48 ≤ b && b ≤ 57

namespace Classic

/-! ### The escapes of OpenMetrics -/

theorem splitState_openMetricsEscape (s : GoString) :
    splitState false (openMetricsEscape s) = some false := by
  induction s with
  | nil => rfl
  | cons b s ih =>
    have hbyte : splitState false (openMetricsByte b) = some false := by
      simp only [openMetricsByte]
      split_ifs with hbackslash hnewline hquote
      · rfl
      · rfl
      · rfl
      · by_cases hcomma : b = 44
        · rw [hcomma]
          rfl
        · rw [splitState_of_not_mem (by simpa using Ne.symm hcomma), Strconv.escapeState,
            if_neg hbackslash, if_neg hquote, Strconv.escapeState]
    rw [openMetricsEscape, List.flatMap_cons, splitState_append, hbyte]
    exact ih

theorem not_cut_of_splitState {content : GoString} {e : Bool}
    (h : splitState false content = some e) : ¬Cut content := by
  rintro ⟨a, b, rfl, ha⟩
  rw [splitState_append, ha] at h
  cases h

theorem separable_of_splitState {contents : List GoString}
    (h : ∀ content ∈ contents, splitState false content = some false) : Separable contents := by
  induction contents with
  | nil => trivial
  | cons content contents ih =>
    obtain ⟨hcontent, hcontents⟩ := List.forall_mem_cons.mp h
    cases contents with
    | nil => exact not_cut_of_splitState hcontent
    | cons content' contents => exact ⟨hcontent, ih hcontents⟩

/-- The loop follows the escapes of a text in which no comma stands directly behind a
backslash that begins one. -/
theorem splitState_eq_escapeState {escaped : Bool} {s : GoString}
    (h : ∀ a b, s = a ++ 44 :: b → Strconv.escapeState escaped a ≠ some true) :
    splitState escaped s = Strconv.escapeState escaped s := by
  induction s generalizing escaped with
  | nil => rfl
  | cons b s ih =>
    have hbyte : splitState escaped [b] = Strconv.escapeState escaped [b] := by
      by_cases hcomma : b = 44
      · have hstate := h [] s (by rw [hcomma]; rfl)
        cases escaped with
        | true => exact absurd rfl hstate
        | false => rw [hcomma]; rfl
      · exact splitState_of_not_mem (by simpa using Ne.symm hcomma) escaped
    have hcons (t : GoString) : Strconv.escapeState escaped (b :: t) =
        (Strconv.escapeState escaped [b]).bind fun e => Strconv.escapeState e t :=
      Strconv.escapeState_append escaped [b] t
    rw [splitState_cons, hbyte, hcons s]
    cases hb : Strconv.escapeState escaped [b] with
    | none => rfl
    | some e =>
      refine ih fun a c hs ha => h (b :: a) c (by rw [hs]; rfl) ?_
      rw [hcons a, hb, Option.bind_some, ha]

/-- Accepted matchers in quotes are separable if none has such a comma. -/
theorem separable_of_no_escaped_comma [Regexp] {ss : List GoString} {ms : Matchers}
    (h : List.Forall₂ (fun s m => parseMatcher s = .ok m) ss ms)
    (hquoted : ∀ s ∈ ss, (quotedContent s).isSome = true)
    (hcomma : ∀ content ∈ ss.filterMap quotedContent, ∀ a b, content = a ++ 44 :: b →
      Strconv.escapeState false a ≠ some true) :
    Separable (ss.filterMap quotedContent) := by
  obtain ⟨items, -, hcontents, -⟩ := exists_items h hquoted
  refine separable_of_splitState fun content hcontent => ?_
  rw [splitState_eq_escapeState (hcomma content hcontent)]
  rw [← hcontents] at hcontent
  obtain ⟨i, -, rfl⟩ := List.mem_map.mp hcontent
  exact i.closed

theorem validString_openMetricsEscape {s : GoString} (h : Utf8.validString s = true) :
    Utf8.validString (openMetricsEscape s) = true := by
  have hbyte : ∀ b : UInt8, b.toNat < 0x80 → ∀ b' ∈ openMetricsByte b, b'.toNat < 0x80 := by
    intro b hb
    simp only [openMetricsByte]
    split_ifs <;> simp [hb]
  refine Utf8.validString_induction (P := fun s => Utf8.validString (openMetricsEscape s) = true)
    rfl ?_ h
  intro c s hc ih
  have hsplit : openMetricsEscape (c ++ s) = openMetricsEscape c ++ openMetricsEscape s :=
    List.flatMap_append
  rw [hsplit]
  refine Utf8.validString_append ?_ ih
  obtain ⟨b, rfl, hb, -⟩ | ⟨-, hhigh, -⟩ := Utf8.piece_cases (Or.inl hc)
  · exact Utf8.validString_of_ascii (by simpa [openMetricsEscape] using hbyte b hb)
  · rw [openMetricsEscape_high hhigh, ← List.append_nil c, Utf8.validString_append_of_isRune hc]
    rfl

/-- The loop over the value undoes the escapes. -/
theorem unescape_openMetricsEscape (s : GoString) :
    unescape false true (Utf8.bytes (openMetricsEscape s ++ [34])) = some (s, false) := by
  induction s with
  | nil => rfl
  | cons b s ih =>
    have hbyte : ∀ n : UInt8, b.toNat = n.toNat ↔ b = n := fun n => UInt8.toNat_inj
    rw [openMetricsEscape, List.flatMap_cons, List.append_assoc, Utf8.bytes_append]
    rw [openMetricsEscape] at ih
    have hmore : Utf8.bytes (s.flatMap openMetricsByte ++ [34]) ≠ [] := by simp
    generalize Utf8.bytes (s.flatMap openMetricsByte ++ [34]) = rest at ih hmore ⊢
    simp only [openMetricsByte]
    split_ifs with hbackslash hnewline hquote
    · simp [unescape, ih, hbackslash]
    · simp [unescape, ih, hnewline]
    · simp [unescape, ih, hquote]
    · have h92 : ¬b.toNat = 92 := fun h => hbackslash ((hbyte 92).mp h)
      have h34 : ¬b.toNat = 34 := fun h => hquote ((hbyte 34).mp h)
      rw [Utf8.bytes_cons, Utf8.bytes_nil, List.singleton_append, unescape, if_neg h92,
        if_neg h34, ih]
      rfl

theorem parseText_openMetricsEscape {value : GoString} (h : Utf8.validString value = true) :
    parseText (34 :: (openMetricsEscape value ++ [34])) = .ok value := by
  have hvalid : Utf8.validString (openMetricsEscape value ++ [34]) = true :=
    Utf8.validString_append (validString_openMetricsEscape h) (by decide)
  simp only [parseText, List.head?_cons, beq_self_eq_true, if_true, List.tail_cons, hvalid,
    Bool.not_true, unescape_written hvalid, unescape_openMetricsEscape]
  rfl

theorem typeMap_string (ty : MatchType) : typeMap ty.string = ty := by
  cases ty <;> rfl

/-! ### Printed matchers -/

theorem isNamePart_of_classic {name : LabelName} (h : isClassicName name = true) :
    name.head?.any isNameStart = true ∧ ∀ b ∈ name, isNamePart b = true := by
  have hstart : ∀ {b}, isClassicStart b = true → isNameStart b = true := by
    intro b hb
    have hsplit : isNameStart b = (isClassicStart b || b == 58) := rfl
    rw [hsplit, hb, Bool.true_or]
  cases name with
  | nil => cases h
  | cons b bs =>
    rw [isClassicName, Bool.and_eq_true, List.all_eq_true] at h
    refine ⟨hstart h.1, List.forall_mem_cons.mpr ⟨?_, fun b' hb' => ?_⟩⟩
    · rw [isNamePart, hstart h.1, Bool.true_or]
    · obtain hb' | hb' := Bool.or_eq_true_iff.mp (h.2 b' hb')
      · rw [isNamePart, hstart hb', Bool.true_or]
      · rw [isNamePart, hb', Bool.or_true]

theorem not_containsReserved_of_classic {name : LabelName} (h : isClassicName name = true) :
    containsReserved name = false := by
  have hpart : ∀ b ∈ name, (isClassicStart b || 48 ≤ b && b ≤ 57) = true := by
    cases name with
    | nil => cases h
    | cons b bs =>
      rw [isClassicName, Bool.and_eq_true, List.all_eq_true] at h
      exact List.forall_mem_cons.mpr ⟨by rw [h.1, Bool.true_or], h.2⟩
  have hfree : ∀ n < 123, 48 ≤ n ∧ n ≤ 57 ∨ 65 ≤ n ∧ n ≤ 90 ∨ n = 95 ∨ 97 ≤ n →
      isReserved n = false := by decide
  have hascii : ∀ b ∈ name, b.toNat < 0x80 := fun b hb =>
    (neutral_of_isNamePart ((isNamePart_of_classic h).2 b hb)).1
  rw [containsReserved, Utf8.runes_ascii hascii, List.any_map, List.any_eq_false]
  intro b hb
  have hrune := Utf8.pieceRune_ascii (hascii b hb)
  rw [Utf8.pieceRune, if_pos (Utf8.isRune_singleton (hascii b hb))] at hrune
  have hrange := hpart b hb
  simp only [isClassicStart, Bool.or_eq_true, Bool.and_eq_true, decide_eq_true_eq, beq_iff_eq,
    UInt8.le_iff_toNat_le, ← UInt8.toNat_inj, UInt8.reduceToNat] at hrange
  have hnot : isReserved b.toNat = false := hfree b.toNat (by omega) (by omega)
  simp [hrune, hnot]

section
variable [Regexp]

/-- The printed text of a matcher with a classic name. -/
def printed (m : Matcher) (hname : isClassicName m.name = true)
    (hvalue : Utf8.validString m.value = true) : Item where
  frame :=
    { lead := []
      name := m.name
      gap := []
      op := m.type
      space := []
      lead_blank := blank_nil
      name_start := (isNamePart_of_classic hname).1
      name_part := (isNamePart_of_classic hname).2
      gap_blank := blank_nil
      space_blank := blank_nil }
  content := openMetricsEscape m.value
  trail := []
  valid := validString_openMetricsEscape hvalue
  closed := escapeState_openMetricsEscape m.value
  trail_blank := blank_nil

theorem parseMatcher_printed (m : Matcher) (hname : isClassicName m.name = true)
    (hvalue : Utf8.validString m.value = true) :
    parseMatcher (printed m hname hvalue).text = .ok m :=
  parseMatcher_eq_ok_iff.mpr ⟨_, findStringSubmatch_item _, parseText_openMetricsEscape hvalue,
    (typeMap_string m.type).symm, rfl⟩

variable [Unicode]

theorem text_printed (m : Matcher) (hname : isClassicName m.name = true)
    (hvalue : Utf8.validString m.value = true) : (printed m hname hvalue).text = m.string := by
  rw [Matcher.string, not_containsReserved_of_classic hname]
  simp [Item.text, Frame.text, printed]

theorem exists_printed {ms : Matchers} (hname : ∀ m ∈ ms, isClassicName m.name = true)
    (hvalue : ∀ m ∈ ms, Utf8.validString m.value = true) :
    ∃ items : List Item, items.map Item.text = ms.map Matcher.string ∧
      (∀ content ∈ items.map Item.content, splitState false content = some false) ∧
      List.Forall₂ (fun i m => parseMatcher (Item.text i) = .ok m) items ms := by
  induction ms with
  | nil => exact ⟨[], rfl, by simp, .nil⟩
  | cons m ms ih =>
    obtain ⟨hm, hms⟩ := List.forall_mem_cons.mp hname
    obtain ⟨hv, hvs⟩ := List.forall_mem_cons.mp hvalue
    obtain ⟨items, htexts, hcontents, hparse⟩ := ih hms hvs
    refine ⟨printed m hm hv :: items, ?_, ?_, .cons (parseMatcher_printed m hm hv) hparse⟩
    · rw [List.map_cons, List.map_cons, text_printed, htexts]
    · exact List.forall_mem_cons.mpr ⟨splitState_openMetricsEscape m.value, hcontents⟩

theorem parseMatchers_string {ms : Matchers} (hname : ∀ m ∈ ms, isClassicName m.name = true)
    (hvalue : ∀ m ∈ ms, Utf8.validString m.value = true) :
    parseMatchers (Matchers.string ms) = .ok ms := by
  obtain ⟨items, htexts, hcontents, hparse⟩ := exists_printed hname hvalue
  have htrim : trimCloseBrace (trimOpenBrace (Matchers.string ms)) = joined items := by
    rw [Matchers.string, joined, htexts, trim_braces]
  cases ms with
  | nil =>
    cases hparse
    rw [parseMatchers_of_trim htrim]
    rfl
  | cons m ms =>
    have hne : items ≠ [] := by
      rintro rfl
      cases hparse
    exact (parseMatchers_items_iff hne hparse htrim).mpr (separable_of_splitState hcontents)

end

end Classic

section
variable [Regexp] [Unicode]

/-- Matchers with classic names and valid values are read by both parsers as they were
printed. -/
theorem printed_read_by_both {ms : Matchers} (hname : ∀ m ∈ ms, isClassicName m.name = true)
    (hvalue : ∀ m ∈ ms, Utf8.validString m.value = true) :
    Classic.parseMatchers (Matchers.string ms) = .ok ms ∧
      Parse.matchers (Matchers.string ms) = .ok ms := by
  have hreserved : ∀ m ∈ ms, containsReserved m.name = false :=
    fun m hm => Classic.not_containsReserved_of_classic (hname m hm)
  refine ⟨Classic.parseMatchers_string hname hvalue, (matchers_string_iff ?_).mpr ?_⟩
  · intro m hm hcontains
    rw [hreserved m hm] at hcontains
    cases hcontains
  · intro m hm
    refine ⟨?_, hvalue m hm, ?_⟩
    · intro hnil
      have hclassic := hname m hm
      rw [hnil] at hclassic
      cases hclassic
    · intro hcontains
      rw [hreserved m hm] at hcontains
      cases hcontains

end

section
attribute [local instance] noRegexp asciiUnicode

/-- The bytes of the values are a comma, a backslash, a quote and an open brace, and a space,
a newline, a close brace and a space. -/
def oddMatchers : Matchers :=
  [⟨.equal, str "a", [44, 92, 34, 123], by simp [MatchType.isRegexp]⟩,
    ⟨.notEqual, str "b_2", [32, 10, 125, 32], by simp [MatchType.isRegexp]⟩]

theorem printed_read_by_both_odd :
    Classic.parseMatchers (Matchers.string oddMatchers) = .ok oddMatchers ∧
      Parse.matchers (Matchers.string oddMatchers) = .ok oddMatchers :=
  printed_read_by_both (by decide +kernel) (by decide +kernel)

end

end Alertmanager
