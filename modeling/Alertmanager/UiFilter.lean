import Alertmanager.ElmParser
import Alertmanager.JsonString
import Alertmanager.SelfDelimiting

/-!
# The filter of the user interface

`ui/app/src/Utils/Filter.elm`. The matchers of a filter are written as a text, which is
kept in the URL of a page and read again for the query to the API. Values are written as
JSON strings. Keys are written as they are, and are read up to the first reserved
character. A text that cannot be read is left out of the query.
-/
namespace Alertmanager.Ui
open Elm Elm.Parser

inductive MatchOperator
  | eq
  | notEq
  | regexMatch
  | notRegexMatch
  deriving DecidableEq

structure Matcher where
  key : List Char
  op : MatchOperator
  value : List Char
  deriving DecidableEq

/-- `Data.Matcher.Matcher`. -/
structure ApiMatcher where
  name : List Char
  value : List Char
  isRegex : Bool
  isEqual : Option Bool
  deriving DecidableEq

def fromApiMatcher (m : ApiMatcher) : Matcher :=
  let isEqualValue := match m.isEqual with
    | none => true
    | some justIsEqual => justIsEqual
  let op : MatchOperator :=
    if !m.isRegex && isEqualValue then .eq
    else if !m.isRegex && !isEqualValue then .notEq
    else if m.isRegex && isEqualValue then .regexMatch
    else .notRegexMatch
  { key := m.name, value := m.value, op }

def matchers : List (List Char × MatchOperator) :=
  [(['=', '~'], .regexMatch), (['!', '~'], .notRegexMatch), (['='], .eq), (['!', '='], .notEq)]

/-! ### Writing -/

/-- The text of an operator. -/
def operatorText (op : MatchOperator) : List Char :=
  ((matchers.filter fun p => p.2 = op).head?.map (·.1)).getD []

def stringifyMatcher (m : Matcher) : List Char :=
  m.key ++ (operatorText m.op ++ Json.encodeString m.value)

def stringifyFilter : List Matcher → List Char
  | [] => []
  | m :: ms => '{' :: ([',', ' '].intercalate ((m :: ms).map stringifyMatcher) ++ ['}'])

/-! ### Reading -/

def isSpace (c : Char) : Bool :=
  let code := c.toNat
  (code ≥ 0x09 && code ≤ 0x0D) || code == 0x20 || code == 0x85 || code == 0xA0 ||
    code == 0x1680 || (code ≥ 0x2000 && code ≤ 0x200A) || code == 0x2028 || code == 0x2029 ||
    code == 0x202F || code == 0x205F || code == 0x3000

/-- The codes of `syntaxChars`: the braces, the characters of the operators, the comma, the
backslash and the three quotes. -/
def syntaxChars : List ℕ := [123, 125, 33, 61, 126, 44, 92, 34, 39, 96]

def isReservedChar (c : Char) : Bool := isSpace c || syntaxChars.contains c.toNat

def stringHelp (separator : Char) : Parser (Step Char Unit) := oneOf
  [(succeed (.done ())).ignore (token [separator]),
    ((succeed (.loop separator)).ignore (chompIf fun c => c == '\\')).ignore
      (chompIf fun _ => true),
    (succeed (.loop separator)).ignore (chompIf fun c => c != '\\' && c != separator)]

def string (separator : Char) : Parser (List Char) :=
  (((succeed ()).ignore (token [separator])).ignore
    (loop separator stringHelp)).getChompedString.andThen fun str =>
      match Json.decodeString str with
      | some value => succeed value
      | none => problem

def operator : Parser MatchOperator :=
  oneOf (matchers.map fun p => (succeed p.2).ignore (keyword p.1))

def item : Parser Matcher :=
  (((succeed Matcher.mk).keep
    (variableName (fun c => !isReservedChar c) (fun c => !isReservedChar c) [])).keep
      operator).keep (string '"')

def filter : Parser (List Matcher) :=
  ((succeed id).keep (sequence ['{'] [','] ['}'] spaces item)).ignore atEnd

def parseFilter : List Char → Option (List Matcher) := filter.run

/-! ### Filters of a page -/

structure Filter where
  text : Option (List Char)
  group : Option (List Char)
  customGrouping : Bool
  receiver : Option (List Char)
  showSilenced : Option Bool
  showInhibited : Option Bool
  showMuted : Option Bool
  showActive : Option Bool

def nullFilter : Filter where
  text := none
  group := none
  customGrouping := false
  receiver := none
  showSilenced := none
  showInhibited := none
  showMuted := none
  showActive := none

def withMatchers (ms : List Matcher) (f : Filter) : Filter :=
  { f with text := some (stringifyFilter ms) }

def silencePreviewFilter (apiMatchers : List ApiMatcher) : Filter :=
  { nullFilter with
    text := some (stringifyFilter (apiMatchers.map fromApiMatcher))
    showSilenced := some true
    showInhibited := some true
    showMuted := some true
    showActive := some true }

/-- The matchers of `generateAPIQueryString`: none of them if the text cannot be read. -/
def queryMatchers (f : Filter) : List Matcher :=
  match parseFilter (f.text.getD []) with
  | some ms => ms
  | none => []

/-! ### Strings are read back -/

theorem chomps_stringHelp : Chomps stringHelp := by
  intro separator s separator' rest h
  obtain ⟨p, hp, h⟩ := exists_of_oneOf h
  simp only [List.mem_cons, List.not_mem_nil, or_false] at hp
  rcases hp with rfl | rfl | rfl
  · -- the closing quote ends the loop
    obtain ⟨step, _, ⟨_, hstep⟩, h⟩ := parses_andThen_iff.mp h
    obtain ⟨-, rfl, -⟩ := Outcome.good.inj hstep
    obtain ⟨_, _, -, _, h⟩ := parses_andThen_iff.mp h
    cases (Outcome.good.inj h).2.1
  · obtain ⟨_, s₁, h₁, h⟩ := parses_andThen_iff.mp h
    obtain ⟨_, s₂, h₂, _, h⟩ := parses_andThen_iff.mp h
    obtain ⟨-, -, rfl⟩ := Outcome.good.inj h
    have hle := (yields_ignore (yields_succeed (P := fun _ => True) trivial)
      (yields_chompIf _) h₁).2
    exact (length_of_chompIf h₂).trans_le hle
  · obtain ⟨_, s₁, ⟨_, hstep⟩, h⟩ := parses_andThen_iff.mp h
    obtain ⟨-, -, rfl⟩ := Outcome.good.inj hstep
    obtain ⟨_, s₂, h₂, _, h⟩ := parses_andThen_iff.mp h
    obtain ⟨-, -, rfl⟩ := Outcome.good.inj h
    exact length_of_chompIf h₂

/-- A character that is neither a quote nor a backslash. -/
theorem parses_plain {c : Char} (hquote : c ≠ '"') (hbackslash : c ≠ '\\') {s rest : List Char}
    (h : (loop '"' stringHelp).Parses s () rest) :
    (loop '"' stringHelp).Parses (c :: s) () rest := by
  refine Parses.loop_loop chomps_stringHelp ?_ h
  refine Parses.oneOf_of_bad (succeed_ignore_bad (token_bad ?_) _)
    (Parses.oneOf_of_bad (ignore_bad (succeed_ignore_bad (chompIf_bad ?_) _)) (Parses.oneOf ?_ _))
  · simp [hquote.symm]
  · simp [hbackslash]
  · exact (parses_succeed _ _).ignore (parses_chompIf (by simp [hquote, hbackslash]) s)

/-- A backslash and the character after it. -/
theorem parses_escape (c : Char) {s rest : List Char}
    (h : (loop '"' stringHelp).Parses s () rest) :
    (loop '"' stringHelp).Parses ('\\' :: c :: s) () rest := by
  refine Parses.loop_loop chomps_stringHelp ?_ h
  refine Parses.oneOf_of_bad (succeed_ignore_bad (token_bad (by simp)) _) (Parses.oneOf ?_ _)
  exact ((parses_succeed _ _).ignore (parses_chompIf (by simp) _)).ignore (parses_chompIf rfl s)

theorem parses_quote (rest : List Char) : (loop '"' stringHelp).Parses ('"' :: rest) () rest :=
  Parses.loop_done (Parses.oneOf ((parses_succeed _ _).ignore (parses_token ['"'] rest)) _)

theorem hexDigit_plain {n : ℕ} (h : n < 16) : Json.hexDigit n ≠ '"' ∧ Json.hexDigit n ≠ '\\' := by
  interval_cases n <;> decide

theorem parses_escapeChar (c : Char) {s rest : List Char}
    (h : (loop '"' stringHelp).Parses s () rest) :
    (loop '"' stringHelp).Parses (Json.escapeChar c ++ s) () rest := by
  obtain ⟨letter, -, hescape⟩ | ⟨hcontrol, hescape⟩ | ⟨⟨-, hquote, hbackslash⟩, hescape⟩ :=
    Json.escapeChar_cases c
  · rw [hescape]
    exact parses_escape letter h
  · obtain ⟨hquote₁, hbackslash₁⟩ := hexDigit_plain (n := c.toNat / 16) (by omega)
    obtain ⟨hquote₂, hbackslash₂⟩ := hexDigit_plain (n := c.toNat % 16) (by omega)
    rw [hescape]
    exact parses_escape 'u' (parses_plain (by decide) (by decide) (parses_plain (by decide)
      (by decide) (parses_plain hquote₁ hbackslash₁ (parses_plain hquote₂ hbackslash₂ h))))
  · rw [hescape]
    exact parses_plain hquote hbackslash h

/-- A value is read back. -/
theorem parses_string (v rest : List Char) :
    (string '"').Parses (Json.encodeString v ++ rest) v rest := by
  have hbody : (loop '"' stringHelp).Parses (v.flatMap Json.escapeChar ++ '"' :: rest) () rest := by
    induction v with
    | nil => exact parses_quote rest
    | cons c v ih =>
      rw [List.flatMap_cons, List.append_assoc]
      exact parses_escapeChar c ih
  have htext : Json.encodeString v ++ rest =
      ['"'] ++ (v.flatMap Json.escapeChar ++ '"' :: rest) := by
    simp [Json.encodeString]
  have hchomped := (((parses_succeed () _).ignore (parses_token ['"'] _)).ignore hbody)
  rw [← htext] at hchomped
  refine hchomped.getChompedString.andThen ?_
  rw [Json.decodeString_encodeString]
  exact parses_succeed v rest

/-! ### Matchers are read back -/

/-- The key of a matcher has no reserved character. -/
def Matcher.Readable (m : Matcher) : Prop := ∀ c ∈ m.key, isReservedChar c = false

theorem parses_operator (op : MatchOperator) (rest : List Char) :
    operator.Parses (operatorText op ++ '"' :: rest) op ('"' :: rest) := by
  have hread : ∀ text, ((succeed op).ignore (keyword text)).Parses (text ++ '"' :: rest) op
      ('"' :: rest) := fun text =>
    (parses_succeed op _).ignore (parses_keyword text (by decide) rest)
  -- the operators before it are no prefixes of the text
  cases op with
  | regexMatch => exact (hread ['=', '~']).oneOf _
  | notRegexMatch =>
    exact Parses.oneOf_of_bad (succeed_ignore_bad (keyword_bad (by simp [operatorText, matchers]))
      _) ((hread ['!', '~']).oneOf _)
  | eq =>
    refine Parses.oneOf_of_bad (succeed_ignore_bad (keyword_bad ?_) _)
      (Parses.oneOf_of_bad (succeed_ignore_bad (keyword_bad ?_) _) ((hread ['=']).oneOf _))
    all_goals simp [operatorText, matchers]
  | notEq =>
    refine Parses.oneOf_of_bad (succeed_ignore_bad (keyword_bad ?_) _)
      (Parses.oneOf_of_bad (succeed_ignore_bad (keyword_bad ?_) _)
        (Parses.oneOf_of_bad (succeed_ignore_bad (keyword_bad ?_) _)
          ((hread ['!', '=']).oneOf _)))
    all_goals simp [operatorText, matchers]

theorem head_operatorText (op : MatchOperator) (rest : List Char) :
    ∀ c ∈ (operatorText op ++ rest).head?, isReservedChar c = true := by
  cases op <;> rintro c ⟨⟩ <;> decide

theorem parses_item {m : Matcher} (hkey : m.key ≠ []) (h : m.Readable) (rest : List Char) :
    item.Parses (stringifyMatcher m ++ rest) m rest := by
  obtain ⟨key, op, value⟩ := m
  obtain ⟨c, cs, rfl⟩ := List.exists_cons_of_ne_nil hkey
  have hc : isReservedChar c = false := h c List.mem_cons_self
  have hcs : ∀ d ∈ cs, (!isReservedChar d) = true := fun d hd => by
    rw [h d (List.mem_cons_of_mem c hd)]
    rfl
  have htext : stringifyMatcher ⟨c :: cs, op, value⟩ ++ rest =
      c :: cs ++ (operatorText op ++ '"' :: (value.flatMap Json.escapeChar ++ '"' :: rest)) := by
    simp [stringifyMatcher, Json.encodeString]
  have hvalue := parses_string value rest
  rw [Json.encodeString, List.cons_append, List.append_assoc, List.singleton_append] at hvalue
  rw [htext]
  refine (((parses_succeed Matcher.mk _).keep (parses_variableName (by simp [hc]) hcs ?_)).keep
    (parses_operator op _)).keep hvalue
  intro d hd
  rw [head_operatorText op _ d hd]
  rfl

/-- A matcher that is read has a key without reserved characters. -/
theorem yields_item : Yields item fun m => m.Readable := by
  have hstring : Yields (string '"') fun _ => True := by
    refine yields_andThen (yields_getChompedString (yields_ignore (yields_ignore
      (yields_succeed (P := fun _ => True) trivial) (yields_token _)) (yields_loop
        (I := fun _ => True) (P := fun _ => True) (fun _ _ => yields_oneOf fun p hp => ?_)
        trivial))) fun str _ => ?_
    · simp only [List.mem_cons, List.not_mem_nil, or_false] at hp
      rcases hp with rfl | rfl | rfl
      · exact yields_ignore (yields_succeed (by simp)) (yields_token _)
      · exact yields_ignore (yields_ignore (yields_succeed (by simp)) (yields_chompIf _))
          (yields_chompIf _)
      · exact yields_ignore (yields_succeed (by simp)) (yields_chompIf _)
    · split
      · exact yields_succeed trivial
      · exact yields_problem
  have hoperator : Yields operator fun _ => True := by
    refine yields_oneOf fun p hp => ?_
    obtain ⟨pair, -, rfl⟩ := List.mem_map.mp hp
    exact yields_ignore (yields_succeed trivial) (yields_keyword _)
  have hkey : Yields ((succeed Matcher.mk).keep (variableName (fun c => !isReservedChar c)
      (fun c => !isReservedChar c) [])) fun g => ∀ op value, (g op value).Readable := by
    refine yields_keep (F := fun g => g = Matcher.mk) (yields_succeed rfl)
      (yields_variableName _ _ _) ?_
    rintro _ rfl _ ⟨c, cs, rfl, hc, hcs⟩ op value d hd
    obtain rfl | hd := List.mem_cons.mp hd
    · simpa using hc
    · simpa using hcs d hd
  refine yields_keep (yields_keep hkey hoperator (Q := fun g => ∀ value, (g value).Readable) ?_)
    hstring ?_
  · intro g hg op _ value
    exact hg op value
  · intro g hg value _
    exact hg value

/-! ### Filters are read back -/

/-- Blanks are chomped up to a character that is no space. -/
theorem parses_spaces {text s : List Char} (htext : ∀ c ∈ text, c = ' ')
    (h : ∀ c ∈ s.head?, isSpace c = false) : spaces.Parses (text ++ s) () s := by
  refine parses_chompWhile (fun c hc => by simp [htext c hc]) fun c hc => ?_
  have hspace := h c hc
  by_contra hne
  simp only [Bool.not_eq_false, Bool.or_eq_true, beq_iff_eq] at hne
  rcases hne with (rfl | rfl) | rfl <;> exact absurd hspace (by decide)

theorem parses_no_spaces {s : List Char} (h : ∀ c ∈ s.head?, isSpace c = false) :
    spaces.Parses s () s :=
  (parses_spaces (by simp) h : spaces.Parses ([] ++ s) () s)

theorem head_stringifyMatcher {m : Matcher} (hkey : m.key ≠ []) (h : m.Readable)
    (rest : List Char) : ∀ c ∈ (stringifyMatcher m ++ rest).head?, isSpace c = false := by
  obtain ⟨key, op, value⟩ := m
  obtain ⟨c, cs, rfl⟩ := List.exists_cons_of_ne_nil hkey
  rintro d ⟨⟩
  have hreserved := h c List.mem_cons_self
  rw [isReservedChar, Bool.or_eq_false_iff] at hreserved
  exact hreserved.1

theorem yields_filter : Yields filter fun ms => ∀ m ∈ ms, m.Readable := by
  refine yields_ignore (yields_keep (F := fun g => g = id) (yields_succeed rfl)
    (yields_sequence (yields_chompWhile _) yields_item) ?_) yields_atEnd
  rintro _ rfl ms hms
  exact hms

theorem readable_of_parseFilter {s : List Char} {ms : List Matcher} (h : parseFilter s = some ms) :
    ∀ m ∈ ms, m.Readable := by
  obtain ⟨rest, hparses⟩ := exists_of_run h
  exact (yields_filter hparses).1

theorem stringifyFilter_cons (m : Matcher) (ms : List Matcher) :
    stringifyFilter (m :: ms) = ['{'] ++ (stringifyMatcher m ++
      (ms.flatMap (fun m => [','] ++ ([' '] ++ stringifyMatcher m)) ++ (['}'] ++ []))) := by
  simp [stringifyFilter, intercalate_cons_eq, List.flatMap_map]

/-- Readable matchers are read back. -/
theorem parseFilter_stringifyFilter {ms : List Matcher} (hne : ms ≠ [])
    (hkeys : ∀ m ∈ ms, m.key ≠ []) (h : ∀ m ∈ ms, m.Readable) :
    parseFilter (stringifyFilter ms) = some ms := by
  obtain ⟨m, ms, rfl⟩ := List.exists_cons_of_ne_nil hne
  have hhead : ∀ m' ∈ m :: ms, ∀ rest, ∀ c ∈ (stringifyMatcher m' ++ rest).head?,
      isSpace c = false := fun m' hm' => head_stringifyMatcher (hkeys m' hm') (h m' hm')
  have hread : (sequence ['{'] [','] ['}'] spaces item).Parses _ (m :: ms) [] :=
    parses_sequence stringifyMatcher [' '] (by simp) (yields_chompWhile _) yields_item
      (fun rest => parses_no_spaces (by rintro c ⟨⟩; decide))
      (fun rest => ⟨parses_no_spaces (by rintro c ⟨⟩; decide), by simp⟩)
      (fun m' hm' rest => ⟨parses_spaces (by simp) (hhead m' hm' rest),
        parses_item (hkeys m' hm') (h m' hm') rest⟩)
      (fun rest => parses_no_spaces (hhead m List.mem_cons_self rest)) ['{'] []
  rw [stringifyFilter_cons]
  exact (((parses_succeed id _).keep hread).ignore parses_atEnd).run

/-- The filter text of matchers with keys is read back, and links and previews query for
these matchers, if and only if no key has a reserved character. -/
theorem filter_read_back_iff {ms : List Matcher} (hne : ms ≠ [])
    (hkeys : ∀ m ∈ ms, m.key ≠ []) :
    (parseFilter (stringifyFilter ms) = some ms ∧
      (∀ f, queryMatchers (withMatchers ms f) = ms) ∧
      ∀ apiMatchers : List ApiMatcher, apiMatchers.map fromApiMatcher = ms →
        queryMatchers (silencePreviewFilter apiMatchers) = ms) ↔
    ∀ m ∈ ms, ∀ c ∈ m.key, isReservedChar c = false := by
  constructor
  · rintro ⟨hread, -, -⟩
    exact readable_of_parseFilter hread
  · intro h
    have hread := parseFilter_stringifyFilter hne hkeys h
    refine ⟨hread, fun f => ?_, fun apiMatchers heq => ?_⟩
    · simp only [queryMatchers, withMatchers, Option.getD_some, hread]
    · simp only [queryMatchers, silencePreviewFilter, Option.getD_some, heq, hread]

/-- A key with a dot, and a value with quotes, a backslash and a line feed. -/
theorem filter_read_back_iff_dotted :
    parseFilter (stringifyFilter
      [⟨['a', '.', 'b'], .notRegexMatch, ['"', '\\', '\n', '}']⟩, ⟨['c'], .eq, []⟩]) =
      some [⟨['a', '.', 'b'], .notRegexMatch, ['"', '\\', '\n', '}']⟩, ⟨['c'], .eq, []⟩] := by
  have ha : isReservedChar 'a' = false := by decide
  have hdot : isReservedChar '.' = false := by decide
  have hb : isReservedChar 'b' = false := by decide
  have hc : isReservedChar 'c' = false := by decide
  exact ((filter_read_back_iff (by simp) (by simp)).mpr (by simp [ha, hdot, hb, hc])).1

/-- The text of a key with a blank cannot be read, and the preview of a silence for it
queries for all alerts. -/
theorem blank_in_key_lost :
    parseFilter (stringifyFilter [⟨['a', ' ', 'b'], .eq, ['x']⟩]) = none ∧
      queryMatchers (silencePreviewFilter [⟨['a', ' ', 'b'], ['x'], false, some true⟩]) = [] := by
  decide

end Alertmanager.Ui
