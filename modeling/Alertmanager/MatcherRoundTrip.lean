import Mathlib.Data.List.TakeWhile
import Alertmanager.MatcherParser

/-!
# Matchers printed and parsed again

What `parse.Matchers` makes of the text of `Matchers.String`. The lexer finds the name, the
operator and the value of every matcher, since a bare name has no reserved rune and the
text between quotes has no quote that is not escaped. The parser then returns the matchers
as they were, except that an empty name is not there to be read and that a quoted text has
to be valid.
-/
namespace Alertmanager

/-! ### The lexer on printed text -/

namespace Lexed

theorem untilQuote_append {ps : List GoString} (hps : ∀ c ∈ ps, Utf8.IsPiece c) {escaped : Bool}
    (hstate : Strconv.escapeState escaped ps.flatten = some false) {d : GoString}
    (hd : Utf8.pieceRune d = 34) (rest : List GoString) :
    untilQuote escaped (ps ++ d :: rest) = (ps, d :: rest) := by
  induction ps generalizing escaped with
  | nil =>
    obtain rfl : escaped = false := by simpa [Strconv.escapeState] using hstate
    simp [untilQuote, hd]
  | cons c ps ih =>
    have htail : ∀ c' ∈ ps, Utf8.IsPiece c' := fun c' hc' => hps c' (List.mem_cons_of_mem c hc')
    rw [List.flatten_cons] at hstate
    obtain ⟨b, rfl, hb, hrune⟩ | ⟨hne, hhigh, hrune⟩ :=
      Utf8.piece_cases (hps c List.mem_cons_self)
    · cases escaped with
      | true =>
        rw [List.cons_append, untilQuote, ih htail hstate]
        rfl
      | false =>
        have h92 : Utf8.pieceRune [b] = 92 ↔ b = 92 := by
          rw [hrune, ← UInt8.toNat_inj]
          rfl
        have h34 : Utf8.pieceRune [b] = 34 ↔ b = 34 := by
          rw [hrune, ← UInt8.toNat_inj]
          rfl
        rw [List.singleton_append, Strconv.escapeState] at hstate
        rw [List.cons_append, untilQuote]
        by_cases hbackslash : b = 92
        · rw [if_pos hbackslash] at hstate
          rw [if_pos (h92.mpr hbackslash), ih htail hstate]
          rfl
        · rw [if_neg hbackslash] at hstate
          rw [if_neg fun h => hbackslash (h92.mp h)]
          by_cases hquote : b = 34
          · simp [hquote] at hstate
          · rw [if_neg hquote] at hstate
            rw [if_neg fun h => hquote (h34.mp h), ih htail hstate]
            rfl
    · rw [Strconv.escapeState_append, Strconv.escapeState_high hhigh hne, Option.bind_some]
        at hstate
      have hrest := ih htail hstate
      cases escaped with
      | true =>
        rw [List.cons_append, untilQuote, hrest]
        rfl
      | false =>
        rw [List.cons_append, untilQuote, if_neg (by omega), if_neg (by omega), hrest]
        rfl

end Lexed

/-- The kind and the value of a token. -/
def Token.pair (t : Token) : TokenKind × GoString := (t.kind, t.value)

/-- The text consists of the tokens with these kinds and values. -/
inductive Reads : GoString → List (TokenKind × GoString) → Prop
  | done : Reads [] []
  | token {text rest : GoString} {kind : TokenKind} {us : List GoString}
      {pairs : List (TokenKind × GoString)}
      (hfirst : Lexed.first (Utf8.runes text) = .token kind us (Utf8.runes rest))
      (hrest : Reads rest pairs) : Reads text ((kind, us.flatten) :: pairs)

theorem Reads.yields {input text : GoString} {pairs : List (TokenKind × GoString)}
    (h : Reads text pairs) {l : Lexer} (hl : l.Cursor input [] (Utf8.runes text)) :
    ∃ ts, l.Yields ts none ∧ ts.map Token.pair = pairs := by
  induction h generalizing l with
  | done =>
    obtain ⟨l', hscan, hcursor⟩ := hl.scan
    exact ⟨[], .eof hscan (hcursor.input_eq.trans hl.input_eq.symm) hl.noErr hcursor.noErr, rfl⟩
  | token hfirst hrest ih =>
    have hscan := hl.scan
    rw [hfirst] at hscan
    obtain ⟨t, l', hscan, rfl, hvalue, -, hcursor⟩ := hscan
    obtain ⟨ts, hyields, hpairs⟩ := ih hcursor
    refine ⟨t :: ts, .token hscan (Lexer.length_rest_lt hfirst).1
      (hcursor.input_eq.trans hl.input_eq.symm) hl.noErr hcursor.noErr hyields, ?_⟩
    rw [List.map_cons, hpairs, Token.pair, hvalue]

section
variable {rest : GoString} {pairs : List (TokenKind × GoString)}

theorem Reads.openBrace (h : Reads rest pairs) :
    Reads (123 :: rest) ((.tokenOpenBrace, [123]) :: pairs) := by
  have hfirst : Lexed.first (Utf8.runes (123 :: rest)) =
      .token .tokenOpenBrace [[123]] (Utf8.runes rest) := by
    rw [Utf8.runes_ascii_cons (by decide)]
    rfl
  exact Reads.token hfirst h

theorem Reads.closeBrace (h : Reads rest pairs) :
    Reads (125 :: rest) ((.tokenCloseBrace, [125]) :: pairs) := by
  have hfirst : Lexed.first (Utf8.runes (125 :: rest)) =
      .token .tokenCloseBrace [[125]] (Utf8.runes rest) := by
    rw [Utf8.runes_ascii_cons (by decide)]
    rfl
  exact Reads.token hfirst h

theorem Reads.comma (h : Reads rest pairs) : Reads (44 :: rest) ((.tokenComma, [44]) :: pairs) := by
  have hfirst : Lexed.first (Utf8.runes (44 :: rest)) =
      .token .tokenComma [[44]] (Utf8.runes rest) := by
    rw [Utf8.runes_ascii_cons (by decide)]
    rfl
  exact Reads.token hfirst h

/-- The kind of the token of an operator. -/
def MatchType.token : MatchType → TokenKind
  | .equal => .tokenEquals
  | .notEqual => .tokenNotEquals
  | .regexp => .tokenMatches
  | .notRegexp => .tokenNotMatches

/-- An operator before a quote has the runes of its text. -/
theorem first_operator (ty : MatchType) (rest : GoString) :
    Lexed.first (Utf8.runes (ty.string ++ 34 :: rest)) =
      .token ty.token (ty.string.map fun b => [b]) (Utf8.runes (34 :: rest)) := by
  cases ty with
  | equal =>
    change Lexed.first (Utf8.runes (61 :: 34 :: rest)) = _
    rw [Utf8.runes_ascii_cons (by decide), Utf8.runes_ascii_cons (by decide)]
    rfl
  | notEqual =>
    change Lexed.first (Utf8.runes (33 :: 61 :: 34 :: rest)) = _
    rw [Utf8.runes_ascii_cons (by decide), Utf8.runes_ascii_cons (by decide)]
    rfl
  | regexp =>
    change Lexed.first (Utf8.runes (61 :: 126 :: 34 :: rest)) = _
    rw [Utf8.runes_ascii_cons (by decide), Utf8.runes_ascii_cons (by decide)]
    rfl
  | notRegexp =>
    change Lexed.first (Utf8.runes (33 :: 126 :: 34 :: rest)) = _
    rw [Utf8.runes_ascii_cons (by decide), Utf8.runes_ascii_cons (by decide)]
    rfl

theorem Reads.operator (ty : MatchType) (h : Reads (34 :: rest) pairs) :
    Reads (ty.string ++ 34 :: rest) ((ty.token, ty.string) :: pairs) := by
  have hvalue : (ty.string.map fun b => [b]).flatten = ty.string := by cases ty <;> rfl
  rw [← hvalue]
  refine .token ?_ h
  rw [hvalue, first_operator]

/-- A text in quotes without a quote that is not escaped. -/
theorem Reads.quoted {body : GoString} (hbody : Strconv.escapeState false body = some false)
    (h : Reads rest pairs) :
    Reads (34 :: body ++ 34 :: rest) ((.tokenQuoted, 34 :: body ++ [34]) :: pairs) := by
  have hruns : Utf8.runes (34 :: body ++ 34 :: rest) =
      [34] :: (Utf8.runes body ++ [34] :: Utf8.runes rest) := by
    rw [List.cons_append, Utf8.runes_ascii_cons (by decide), Utf8.runes_append_ascii (by decide)]
  have huntil : Lexed.untilQuote false (Utf8.runes body ++ [34] :: Utf8.runes rest) =
      (Utf8.runes body, [34] :: Utf8.runes rest) :=
    Lexed.untilQuote_append (fun c hc => Utf8.isPiece_of_mem_runes hc)
      (by rwa [Utf8.flatten_runes]) rfl _
  have hvalue : ([34] :: Utf8.runes body ++ [[34]]).flatten = 34 :: body ++ [34] := by
    simp [Utf8.flatten_runes]
  rw [← hvalue]
  refine .token ?_ h
  rw [hruns]
  change Lexed.quoted [34] _ = _
  rw [Lexed.quoted, huntil]

theorem plain_of_not_containsReserved {name c : GoString} (h : containsReserved name = false)
    (hc : c ∈ Utf8.runes name) : Lexed.plain c = true := by
  have hnot := List.any_eq_false.mp h c hc
  cases hrune : Utf8.isRune c with
  | true => simpa [Lexed.plain, Utf8.pieceRune, hrune] using hnot
  | false =>
    rw [Lexed.plain, Utf8.pieceRune, hrune, if_neg (by decide)]
    decide

/-- A rune that is not reserved begins a bare text. -/
theorem first_plain {c : GoString} {ps : List GoString} (hc : Lexed.plain c = true) :
    Lexed.first (c :: ps) =
      .token .tokenUnquoted (c :: ps.takeWhile Lexed.plain) (ps.dropWhile Lexed.plain) := by
  have hne : ∀ r, isReserved r = true → Utf8.pieceRune c ≠ r := by
    rintro r hr rfl
    simp [Lexed.plain, hr] at hc
  have hreserved : isReserved (Utf8.pieceRune c) = false := by simpa [Lexed.plain] using hc
  simp only [Lexed.first, hne 123 (by decide), hne 125 (by decide), hne 44 (by decide),
    hne 61 (by decide), hne 33 (by decide), hne 34 (by decide), hreserved, or_self, if_false,
    Bool.not_false, if_true]

theorem not_containsReserved_flatten {us rest : List GoString}
    (hrunes : Utf8.runes (us ++ rest).flatten = us ++ rest)
    (h : ∀ c ∈ us, Lexed.plain c = true) : containsReserved us.flatten = false := by
  rw [containsReserved, Utf8.runes_of_runes_append hrunes, List.any_eq_false]
  intro c hc
  have hplain := h c hc
  cases hrune : Utf8.isRune c with
  | true => simpa [Lexed.plain, Utf8.pieceRune, hrune] using hplain
  | false => simp

/-- A text without quotes has no reserved rune. -/
theorem Lexed.not_containsReserved {ps us rest : List GoString}
    (hrunes : Utf8.runes ps.flatten = ps) (h : first ps = .token .tokenUnquoted us rest) :
    containsReserved us.flatten = false := by
  induction ps with
  | nil => cases h
  | cons c ps ih =>
    obtain ⟨hkind, -⟩ | hoperator | hquoted | ⟨hplain, -, rfl, rfl⟩ | ⟨-, hfirst⟩ :=
      Lexer.first_cases h
    · rcases hkind with hkind | hkind | hkind <;> cases hkind
    · unfold operator at hoperator
      split_ifs at hoperator <;> cases hoperator
    · unfold quoted at hquoted
      split at hquoted <;> cases hquoted
    · have hsplit : c :: ps.takeWhile plain ++ ps.dropWhile plain = c :: ps := by
        rw [List.cons_append, List.takeWhile_append_dropWhile]
      refine not_containsReserved_flatten (by rw [hsplit, hrunes]) fun c' hc' => ?_
      obtain rfl | hc' := List.mem_cons.mp hc'
      · exact hplain
      · exact List.mem_takeWhile_imp hc'
    · exact ih (Utf8.runes_tail hrunes) hfirst

theorem Lexer.Cursor.not_containsReserved {input : GoString} {ps : List GoString} {l : Lexer}
    (h : l.Cursor input [] ps) {ts : List Token} {fin : Option LexError}
    (hyields : l.Yields ts fin) :
    ∀ t ∈ ts, t.kind = .tokenUnquoted → containsReserved t.value = false := by
  induction hyields generalizing ps with
  | eof => exact fun t ht => absurd ht List.not_mem_nil
  | error => exact fun t ht => absurd ht List.not_mem_nil
  | token hscan hkind hinput hbefore hafter hrest ih =>
    have hrefines := h.scan
    rw [hscan] at hrefines
    cases hfirst : Lexed.first ps with
    | eof =>
      rw [hfirst] at hrefines
      obtain ⟨l', heq, -⟩ := hrefines
      cases heq
      exact absurd rfl hkind
    | error =>
      rw [hfirst] at hrefines
      obtain ⟨err, l', heq, -⟩ := hrefines
      cases heq
    | token kind us rest =>
      rw [hfirst] at hrefines
      obtain ⟨t, l', heq, rfl, hvalue, -, hcursor⟩ := hrefines
      cases heq
      refine List.forall_mem_cons.mpr ⟨fun hunquoted => ?_, ih hcursor⟩
      rw [hunquoted] at hfirst
      rw [hvalue]
      exact Lexed.not_containsReserved h.runes_rest hfirst

/-- A bare name before a reserved byte. -/
theorem Reads.unquoted {name : GoString} {b : UInt8} (hne : name ≠ [])
    (hname : containsReserved name = false) (hb : b.toNat < 0x80)
    (hreserved : isReserved b.toNat = true) (h : Reads (b :: rest) pairs) :
    Reads (name ++ b :: rest) ((.tokenUnquoted, name) :: pairs) := by
  have hplain : ∀ c ∈ Utf8.runes name, Lexed.plain c = true :=
    fun c hc => plain_of_not_containsReserved hname hc
  have hstop : Lexed.plain [b] = false := by
    rw [Lexed.plain, Utf8.pieceRune_ascii hb, hreserved]
    rfl
  obtain ⟨c, ps, hruns⟩ : ∃ c ps, Utf8.runes name = c :: ps := by
    obtain ⟨c, tail, -, hruns⟩ := Utf8.exists_runes_cons hne
    exact ⟨c, _, hruns⟩
  have hvalue : (c :: ps).flatten = name := by rw [← hruns, Utf8.flatten_runes]
  have hafter := Utf8.runes_ascii_cons hb rest
  rw [hruns] at hplain
  have htake : (ps ++ [b] :: Utf8.runes rest).takeWhile Lexed.plain = ps := by
    rw [List.takeWhile_append_of_pos fun d hd => hplain d (List.mem_cons_of_mem c hd),
      List.takeWhile_cons_of_neg (by simp [hstop]), List.append_nil]
  have hdrop : (ps ++ [b] :: Utf8.runes rest).dropWhile Lexed.plain = [b] :: Utf8.runes rest := by
    rw [List.dropWhile_append_of_pos fun d hd => hplain d (List.mem_cons_of_mem c hd),
      List.dropWhile_cons_of_neg (by simp [hstop])]
  rw [← hvalue]
  refine .token ?_ h
  rw [hvalue, Utf8.runes_append_ascii hb, hruns, List.cons_append,
    first_plain (hplain c List.mem_cons_self), htake, hdrop, hafter]

end

theorem escapeState_openMetricsEscape (s : GoString) :
    Strconv.escapeState false (openMetricsEscape s) = some false := by
  refine Strconv.escapeState_flatMap fun b _ => ?_
  simp only [openMetricsByte]
  split_ifs with hbackslash hnewline hquote
  · rfl
  · rfl
  · rfl
  · rw [Strconv.escapeState, if_neg hbackslash, if_neg hquote]
    rfl

/-- A text in quotes is valid once it is read. -/
theorem Token.validString_of_unquote {t : Token} {s : GoString} (hkind : t.kind = .tokenQuoted)
    (h : t.unquote = some s) : Utf8.validString s = true := by
  rw [Token.unquote, if_pos hkind, Option.bind_eq_some_iff] at h
  obtain ⟨u, -, hu⟩ := h
  split_ifs at hu with hvalid
  obtain rfl := Option.some.inj hu
  exact hvalid

theorem openMetricsEscape_high {c : GoString} (h : ∀ b ∈ c, 0x80 ≤ b.toNat) :
    openMetricsEscape c = c := by
  have hbyte : ∀ b ∈ c, openMetricsByte b = [b] := by
    intro b hb
    have hhigh := h b hb
    rw [openMetricsByte, if_neg (by rintro rfl; simp at hhigh),
      if_neg (by rintro rfl; simp at hhigh), if_neg (by rintro rfl; simp at hhigh)]
  rw [openMetricsEscape, List.flatMap_congr hbyte, List.flatMap_singleton']

theorem unquoteChar_openMetricsEscape {c : GoString} (hc : Utf8.isRune c = true) :
    (∃ b bs, openMetricsEscape c = b :: bs ∧ b ≠ 34 ∧ b ≠ 10) ∧ ∀ rest, ∃ v,
      Strconv.unquoteChar (openMetricsEscape c ++ rest) = some (v, rest) ∧
        Strconv.unquotedBytes v.1 v.2 = c := by
  obtain ⟨b, rfl, hb, -⟩ | ⟨hne, hhigh, -⟩ := Utf8.piece_cases (Or.inl hc)
  · rw [openMetricsEscape, List.flatMap_singleton, openMetricsByte]
    split_ifs with hbackslash hnewline hquote
    · subst hbackslash
      exact ⟨⟨92, [92], rfl, by decide, by decide⟩, fun rest => ⟨(92, false), rfl, rfl⟩⟩
    · subst hnewline
      exact ⟨⟨92, [110], rfl, by decide, by decide⟩, fun rest => ⟨(10, false), rfl, rfl⟩⟩
    · subst hquote
      exact ⟨⟨92, [34], rfl, by decide, by decide⟩, fun rest => ⟨(34, false), rfl, rfl⟩⟩
    · exact ⟨⟨b, [], rfl, hquote, hnewline⟩, fun rest => Strconv.unquoteChar_rune hc
        (by simpa using hquote) (by simpa using hbackslash) rest⟩
  · rw [openMetricsEscape_high hhigh]
    obtain ⟨b, bs, rfl⟩ := List.exists_cons_of_ne_nil hne
    have hb := hhigh b List.mem_cons_self
    have hlow : ∀ k : UInt8, k.toNat < 0x80 → b ≠ k := by
      rintro k hk rfl
      omega
    refine ⟨⟨b, bs, rfl, hlow 34 (by decide), hlow 10 (by decide)⟩, fun rest =>
      Strconv.unquoteChar_rune hc ?_ ?_ rest⟩
    · exact fun heq => hlow 34 (by decide) (List.cons.inj heq).1
    · exact fun heq => hlow 92 (by decide) (List.cons.inj heq).1

/-- In quotes, a valid value that was escaped is read back. -/
theorem unquote_openMetricsEscape {s : GoString} (h : Utf8.validString s = true) :
    Strconv.unquote (34 :: openMetricsEscape s ++ [34]) = some s := by
  have hrune := Utf8.validString_iff.mp h
  have hpieces : openMetricsEscape s = (Utf8.runes s).flatMap openMetricsEscape := by
    conv_lhs => rw [← Utf8.flatten_runes s]
    rw [List.flatten_eq_flatMap, openMetricsEscape, List.flatMap_assoc]
    rfl
  have hread := Strconv.unquote_flatMap (Utf8.runes s)
    (fun c hc => (unquoteChar_openMetricsEscape (hrune c hc)).1)
    (fun c hc rest => (unquoteChar_openMetricsEscape (hrune c hc)).2 rest)
  rwa [← hpieces, List.flatMap_id', Utf8.flatten_runes] at hread

/-! ### The tokens of printed matchers -/

theorem MatchType.string_head (ty : MatchType) :
    ∃ b bs, ty.string = b :: bs ∧ b.toNat < 0x80 ∧ isReserved b.toNat = true := by
  cases ty with
  | equal => exact ⟨61, [], rfl, by decide, by decide⟩
  | notEqual => exact ⟨33, [61], rfl, by decide, by decide⟩
  | regexp => exact ⟨61, [126], rfl, by decide, by decide⟩
  | notRegexp => exact ⟨33, [126], rfl, by decide, by decide⟩

/-- A name that was parsed is valid if it has a reserved rune, since it was in quotes. -/
theorem validString_of_parsed [Regexp] {input : GoString} {ms : Matchers}
    (h : Parse.matchers input = .ok ms) {m : Matcher} (hm : m ∈ ms)
    (hreserved : containsReserved m.name = true) : Utf8.validString m.name = true := by
  obtain ⟨ts, fin, hyields, -, hreturns⟩ := returns_run input
  obtain ⟨-, hsentence⟩ := (matchers_eq_ok_iff hreturns ms).mp h
  obtain ⟨n, o, v, hn, htriple⟩ := hsentence.exists_triple hm
  have hname := htriple.name
  obtain hkind | hkind := htriple.isName
  · exact Token.validString_of_unquote hkind hname
  · have hplain := (Lexer.cursor_start input).not_containsReserved hyields n hn hkind
    rw [Token.unquote, if_neg (by rw [hkind]; simp)] at hname
    rw [Option.some.inj hname, hreserved] at hplain
    cases hplain

/-- What there is in the matchers that are parsed, if there is no error. -/
def Parse.fields [Regexp] (input : GoString) : Option (List (MatchType × LabelName × LabelValue)) :=
  (Parse.matchers input).toOption.map (List.map Matcher.fields)

theorem exists_of_fields [Regexp] {input : GoString}
    {fs : List (MatchType × LabelName × LabelValue)} (h : Parse.fields input = some fs) :
    ∃ ms, Parse.matchers input = .ok ms ∧ ms.map Matcher.fields = fs := by
  rw [Parse.fields] at h
  cases hparse : Parse.matchers input with
  | error err => simp [hparse, Except.toOption] at h
  | ok ms => exact ⟨ms, rfl, by simpa [hparse, Except.toOption] using h⟩

theorem closing_of_pairs {ts : List Token}
    (hpairs : ts.map Token.pair = [(.tokenCloseBrace, [125])]) : Closing true ts := by
  obtain ⟨c, rfl, hc⟩ := List.map_eq_singleton_iff.mp hpairs
  exact ⟨c, rfl, congrArg Prod.fst hc⟩

theorem MatchType.not_isText {t : Token} {ty : MatchType} (h : t.kind = ty.token) : ¬t.IsText := by
  unfold Token.IsText
  rw [h]
  cases ty <;> simp [MatchType.token]

section
variable [Regexp] [Unicode]

/-- The text between the quotes of a value. -/
def Matcher.valueBody (m : Matcher) : GoString :=
  if containsReserved m.name then Strconv.quoteBody m.value else openMetricsEscape m.value

/-- The token of a name. There is none for an empty one. -/
def Matcher.nameTokens (m : Matcher) : List (TokenKind × GoString) :=
  if containsReserved m.name then [(.tokenQuoted, Strconv.quote m.name)]
  else if m.name = [] then []
  else [(.tokenUnquoted, m.name)]

def Matcher.tokens (m : Matcher) : List (TokenKind × GoString) :=
  m.nameTokens ++ [(m.type.token, m.type.string), (.tokenQuoted, 34 :: m.valueBody ++ [34])]

theorem escapeState_valueBody (m : Matcher) :
    Strconv.escapeState false m.valueBody = some false := by
  unfold Matcher.valueBody
  split_ifs
  · exact Strconv.escapeState_quoteBody m.value
  · exact escapeState_openMetricsEscape m.value

/-- The text of a name. -/
def Matcher.nameText (m : Matcher) : GoString :=
  if containsReserved m.name then Strconv.quote m.name else m.name

theorem Matcher.string_eq (m : Matcher) :
    m.string = m.nameText ++ (m.type.string ++ 34 :: (m.valueBody ++ [34])) := by
  unfold Matcher.string Matcher.nameText Matcher.valueBody
  split_ifs <;> simp [Strconv.quote]

theorem Reads.matcher (m : Matcher) {rest : GoString} {pairs : List (TokenKind × GoString)}
    (h : Reads rest pairs) : Reads (m.string ++ rest) (m.tokens ++ pairs) := by
  have hvalue : Reads (34 :: (m.valueBody ++ 34 :: rest))
      ((.tokenQuoted, 34 :: m.valueBody ++ [34]) :: pairs) :=
    h.quoted (escapeState_valueBody m)
  have hoperator := Reads.operator m.type hvalue
  have hstring : m.string ++ rest =
      m.nameText ++ (m.type.string ++ 34 :: (m.valueBody ++ 34 :: rest)) := by
    rw [m.string_eq]
    simp
  rw [hstring, Matcher.tokens, List.append_assoc, Matcher.nameTokens, Matcher.nameText]
  split_ifs with hreserved hempty
  · have hquoted := hoperator.quoted (Strconv.escapeState_quoteBody m.name)
    simpa [Strconv.quote] using hquoted
  · simpa [hempty] using hoperator
  · obtain ⟨b, bs, hb, hlt, hb'⟩ := m.type.string_head
    rw [hb] at hoperator ⊢
    exact hoperator.unquoted hempty (by simpa using hreserved) hlt hb'

/-- The text behind the first matcher of a list. -/
def tailText : Matchers → GoString
  | [] => [125]
  | m :: ms => 44 :: (m.string ++ tailText ms)

/-- Its tokens. -/
def tailTokens : Matchers → List (TokenKind × GoString)
  | [] => [(.tokenCloseBrace, [125])]
  | m :: ms => (.tokenComma, [44]) :: (m.tokens ++ tailTokens ms)

theorem Reads.tail (ms : Matchers) : Reads (tailText ms) (tailTokens ms) := by
  induction ms with
  | nil => exact Reads.done.closeBrace
  | cons m ms ih => exact (Reads.matcher m ih).comma

/-- The tokens behind the open brace. -/
def bodyTokens : Matchers → List (TokenKind × GoString)
  | [] => [(.tokenCloseBrace, [125])]
  | m :: ms => m.tokens ++ tailTokens ms

theorem intercalate_tailText (m : Matcher) (ms : Matchers) :
    (str ",").intercalate ((m :: ms).map Matcher.string) ++ [125] = m.string ++ tailText ms := by
  induction ms generalizing m with
  | nil => simp [tailText]
  | cons m' ms ih =>
    rw [List.map_cons, List.map_cons, List.intercalate_cons_cons, ← List.map_cons,
      List.append_assoc, List.append_assoc, ih]
    rfl

theorem Reads.matchers (ms : Matchers) :
    Reads (Matchers.string ms) ((.tokenOpenBrace, [123]) :: bodyTokens ms) := by
  cases ms with
  | nil => exact Reads.done.closeBrace.openBrace
  | cons m ms =>
    rw [Matchers.string, intercalate_tailText]
    exact (Reads.matcher m (Reads.tail ms)).openBrace

/-! ### The parser on printed matchers -/

/-- A matcher that can be read from its text. -/
structure Matcher.Readable (m : Matcher) : Prop where
  name_ne_nil : m.name ≠ []
  value_valid : Utf8.validString m.value = true
  name_valid : containsReserved m.name = true → Utf8.validString m.name = true

/-- The value is quoted by `strconv.Quote` only next to a name with a reserved rune. -/
theorem unquote_valueBody {m : Matcher}
    (hprint : containsReserved m.name = true → Unicode.isPrint 10 = false)
    (h : Utf8.validString m.value = true) :
    Strconv.unquote (34 :: m.valueBody ++ [34]) = some m.value := by
  unfold Matcher.valueBody
  split_ifs with hreserved
  · exact Strconv.unquote_quote (hprint hreserved) m.value
  · exact unquote_openMetricsEscape h

theorem Matcher.tokens_of_name_ne_nil {m : Matcher} (h : m.name ≠ []) :
    m.tokens = [(if containsReserved m.name then .tokenQuoted else .tokenUnquoted, m.nameText),
      (m.type.token, m.type.string), (.tokenQuoted, 34 :: m.valueBody ++ [34])] := by
  unfold Matcher.tokens Matcher.nameTokens Matcher.nameText
  split_ifs <;> rfl

theorem Matcher.tokens_of_name_eq_nil {m : Matcher} (h : m.name = []) :
    m.tokens = [(m.type.token, m.type.string), (.tokenQuoted, 34 :: m.valueBody ++ [34])] := by
  have hreserved : containsReserved m.name = false := by
    rw [h]
    rfl
  rw [Matcher.tokens, Matcher.nameTokens, hreserved, if_neg Bool.false_ne_true, if_pos h]
  rfl

theorem Matcher.Readable.triple {m : Matcher} (h : m.Readable)
    (hprint : containsReserved m.name = true → Unicode.isPrint 10 = false) {n o v : Token}
    (hpairs : [n, o, v].map Token.pair = m.tokens) : Triple n o v m := by
  rw [tokens_of_name_ne_nil h.name_ne_nil] at hpairs
  simp only [List.map_cons, List.map_nil, Token.pair, List.cons.injEq, Prod.mk.injEq,
    and_true] at hpairs
  obtain ⟨⟨hnkind, hnvalue⟩, ⟨hokind, -⟩, hvkind, hvvalue⟩ := hpairs
  refine ⟨?_, Or.inl hvkind, ?_, ?_, ?_⟩
  · unfold Token.IsText
    rw [hnkind]
    split_ifs <;> simp
  · rw [Token.unquote, hnkind, hnvalue, nameText]
    split_ifs with hreserved hkind hkind
    · rw [Strconv.unquote_quote (hprint hreserved), Option.bind_some,
        if_pos (h.name_valid hreserved)]
    · exact absurd rfl hkind
    · cases hkind
    · rfl
  · rw [hokind]
    cases m.type <;> rfl
  · rw [Token.unquote, if_pos hvkind, hvvalue, unquote_valueBody hprint h.value_valid,
      Option.bind_some, if_pos h.value_valid]

/-- If printed matchers are read as they were, the first one is readable. -/
theorem readable_of_atMatcher {m : Matcher} {ms : Matchers} {ts : List Token}
    (h : Parser.AtMatcher true ts (m :: ms))
    (hpairs : ts.map Token.pair = m.tokens ++ tailTokens ms) :
    m.Readable ∧ ∃ rest, Parser.After true rest ms ∧ rest.map Token.pair = tailTokens ms := by
  obtain ⟨n, o, v, rest, m', ms', rfl, htriple, hafter, heq⟩ := h
  obtain ⟨rfl, rfl⟩ := List.cons.inj heq
  by_cases hname : m.name = []
  · rw [Matcher.tokens_of_name_eq_nil hname] at hpairs
    simp only [List.map_cons, Token.pair, List.cons_append, List.cons.injEq, Prod.mk.injEq]
      at hpairs
    exact absurd htriple.isName (MatchType.not_isText hpairs.1.1)
  · rw [Matcher.tokens_of_name_ne_nil hname] at hpairs
    simp only [List.map_cons, Token.pair, List.cons_append, List.nil_append, List.cons.injEq,
      Prod.mk.injEq] at hpairs
    obtain ⟨⟨hnkind, -⟩, -, ⟨hvkind, -⟩, hrest⟩ := hpairs
    refine ⟨⟨hname, Token.validString_of_unquote hvkind htriple.value, fun hreserved => ?_⟩,
      rest, hafter, hrest⟩
    rw [if_pos hreserved] at hnkind
    exact Token.validString_of_unquote hnkind htriple.name

theorem readable_of_after {ms : Matchers} {ts : List Token} (h : Parser.After true ts ms)
    (hpairs : ts.map Token.pair = tailTokens ms) : ∀ m ∈ ms, m.Readable := by
  induction ms generalizing ts with
  | nil => exact fun m hm => absurd hm List.not_mem_nil
  | cons m ms ih =>
    cases ts with
    | nil => simp [tailTokens] at hpairs
    | cons c ts =>
      simp only [List.map_cons, tailTokens, Token.pair, List.cons.injEq, Prod.mk.injEq]
        at hpairs
      obtain ⟨-, hmatcher⟩ | hmatcher := (Parser.after_comma_iff hpairs.1.1).mp h
      · cases hmatcher
      · obtain ⟨hm, rest, hrest, hrestPairs⟩ := readable_of_atMatcher hmatcher hpairs.2
        exact List.forall_mem_cons.mpr ⟨hm, ih hrest hrestPairs⟩

theorem atMatcher_of_readable {m : Matcher} {ms : Matchers} (h : m.Readable)
    (hprint : containsReserved m.name = true → Unicode.isPrint 10 = false)
    (hafter : ∀ rest, rest.map Token.pair = tailTokens ms → Parser.After true rest ms)
    {ts : List Token}
    (hpairs : ts.map Token.pair = m.tokens ++ tailTokens ms) :
    Parser.AtMatcher true ts (m :: ms) := by
  obtain ⟨triple, rest, rfl, htriple, hrest⟩ := List.map_eq_append_iff.mp hpairs
  have hlength : triple.length = 3 := by
    rw [← List.length_map Token.pair, htriple, Matcher.tokens_of_name_ne_nil h.name_ne_nil]
    rfl
  obtain ⟨n, o, v, rfl⟩ := List.length_eq_three.mp hlength
  exact ⟨n, o, v, rest, m, ms, rfl, h.triple hprint htriple, hafter rest hrest, rfl⟩

theorem after_of_readable {ms : Matchers} (h : ∀ m ∈ ms, m.Readable)
    (hprint : ∀ m ∈ ms, containsReserved m.name = true → Unicode.isPrint 10 = false)
    {ts : List Token} (hpairs : ts.map Token.pair = tailTokens ms) :
    Parser.After true ts ms := by
  induction ms generalizing ts with
  | nil => exact .closing (closing_of_pairs hpairs)
  | cons m ms ih =>
    obtain ⟨hm, hms⟩ := List.forall_mem_cons.mp h
    obtain ⟨c, ts, rfl, hc, hts⟩ := List.map_eq_cons_iff.mp hpairs
    rw [Parser.after_comma_iff (congrArg Prod.fst hc)]
    obtain ⟨hm', hms'⟩ := List.forall_mem_cons.mp hprint
    exact Or.inr (atMatcher_of_readable hm hm' (fun rest hrest => ih hms hms' hrest) hts)

/-- `Matchers.String` is parsed to the matchers it was printed from if and only if each of
them is readable. -/
theorem matchers_string_iff {ms : Matchers}
    (hprint : ∀ m ∈ ms, containsReserved m.name = true → Unicode.isPrint 10 = false) :
    Parse.matchers (Matchers.string ms) = .ok ms ↔ ∀ m ∈ ms, m.Readable := by
  obtain ⟨ts, hyields, hpairs⟩ := (Reads.matchers ms).yields (Lexer.cursor_start _)
  obtain ⟨ts', fin, hyields', -, hreturns⟩ := returns_run (Matchers.string ms)
  obtain ⟨rfl, rfl⟩ := hyields.unique hyields'
  obtain ⟨o, rest, rfl, ho, hrest⟩ := List.map_eq_cons_iff.mp hpairs
  rw [matchers_eq_ok_iff hreturns, Parser.sentence_open_iff (congrArg Prod.fst ho)]
  cases ms with
  | nil => simp [Or.inl (closing_of_pairs hrest)]
  | cons m ms =>
    constructor
    · rintro ⟨-, ⟨-, hnil⟩ | hmatcher⟩
      · cases hnil
      · obtain ⟨hm, rest', hafter, hpairs'⟩ := readable_of_atMatcher hmatcher hrest
        exact List.forall_mem_cons.mpr ⟨hm, readable_of_after hafter hpairs'⟩
    · intro h
      obtain ⟨hm, hms⟩ := List.forall_mem_cons.mp h
      obtain ⟨hm', hms'⟩ := List.forall_mem_cons.mp hprint
      exact ⟨rfl, Or.inr (atMatcher_of_readable hm hm'
        (fun rest hrest => after_of_readable hms hms' hrest) hrest)⟩

/-- Matchers that were parsed are printed and parsed again to the same matchers if and only
if none has an empty name and every value is valid. -/
theorem reparsed_iff_readable (hprint : Unicode.isPrint 10 = false) {input : GoString}
    {ms : Matchers} (h : Parse.matchers input = .ok ms) :
    Parse.matchers (Matchers.string ms) = .ok ms ↔
      ∀ m ∈ ms, m.name ≠ [] ∧ Utf8.validString m.value = true := by
  rw [matchers_string_iff fun _ _ _ => hprint]
  constructor
  · intro hreadable m hm
    exact ⟨(hreadable m hm).name_ne_nil, (hreadable m hm).value_valid⟩
  · intro hcondition m hm
    exact ⟨(hcondition m hm).1, (hcondition m hm).2, validString_of_parsed h hm⟩

end

section
attribute [local instance] noRegexp asciiUnicode

/-- A bare name and a quoted one, which are read again. -/
theorem reparsed_iff_readable_disk :
    ∃ ms : Matchers, Parse.matchers (str "disk=/var,\"disk name\"!=\"a \\\"b\\\"\"") = .ok ms ∧
      ms.map Matcher.fields =
        [(.equal, str "disk", str "/var"), (.notEqual, str "disk name", str "a \"b\"")] ∧
      (Parse.matchers (Matchers.string ms) = .ok ms ↔
        ∀ m ∈ ms, m.name ≠ [] ∧ Utf8.validString m.value = true) := by
  obtain ⟨ms, hparse, hfields⟩ := exists_of_fields (by decide +kernel :
    Parse.fields (str "disk=/var,\"disk name\"!=\"a \\\"b\\\"\"") =
      some [(.equal, str "disk", str "/var"), (.notEqual, str "disk name", str "a \"b\"")])
  exact ⟨ms, hparse, hfields, reparsed_iff_readable (by decide) hparse⟩

def namelessMatcher : Matcher := ⟨.equal, [], str "x", by simp [MatchType.isRegexp]⟩

def invalidMatcher : Matcher := ⟨.equal, str "foo", [0xFF], by simp [MatchType.isRegexp]⟩

/-- An empty name is printed without quotes and then missing, and an invalid byte of a bare
value is printed in quotes and then replaced. -/
theorem reparsed_matchers_differ :
    Parse.fields (str "\"\"=x") = some [(.equal, [], str "x")] ∧
      Parse.fields (Matchers.string [namelessMatcher]) = none ∧
      Parse.fields (str "foo=" ++ [0xFF]) = some [(.equal, str "foo", [0xFF])] ∧
      Parse.fields (Matchers.string [invalidMatcher]) =
        some [(.equal, str "foo", [0xEF, 0xBF, 0xBD])] :=
  ⟨by decide +kernel, by decide +kernel, by decide +kernel, by decide +kernel⟩

end

end Alertmanager
