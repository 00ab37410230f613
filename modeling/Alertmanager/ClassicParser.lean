import Mathlib.Data.List.DropRight
import Mathlib.Data.List.TakeWhile
import Alertmanager.MatcherText
import Alertmanager.StrconvParse

/-!
# The classic matcher parser

`labels.ParseMatcher` and `labels.ParseMatchers`. A matcher is taken apart by a regular
expression, and a loop over the runes of its value removes the quotes and the escapes. A
list of matchers is split by another loop with its own account of quotes and escapes.

Both loops run over runes. For valid strings they do the same over bytes, since the runes
they ask about are bytes, and a matcher in quotes that is accepted has the form of an `Item`.
-/
namespace Alertmanager

namespace Utf8

/-- The runes of `range s`, each with what `WriteRune` writes for it. -/
def written (s : GoString) : List (ℕ × GoString) := (toRunes s).map fun r => (r, ofRune r)

/-- The bytes of a string in the same form. -/
def bytes (s : GoString) : List (ℕ × GoString) := s.map fun b => (b.toNat, [b])

@[simp] theorem bytes_nil : bytes [] = [] := rfl

@[simp] theorem bytes_cons (b : UInt8) (s : GoString) :
    bytes (b :: s) = (b.toNat, [b]) :: bytes s := rfl

@[simp] theorem bytes_append (s t : GoString) : bytes (s ++ t) = bytes s ++ bytes t :=
  List.map_append

theorem written_append_of_isRune {c : GoString} (hc : isRune c = true) (s : GoString) :
    written (c ++ s) = (pieceRune c, c) :: written s := by
  rw [written, toRunes, runes_append_of_isRune hc, List.map_cons, List.map_cons,
    ofRune_pieceRune hc]
  rfl

/-- A function of the written runes of a valid string is one of its bytes, if it does not
tell a long encoding from its bytes. -/
theorem written_eq_bytes {α : Type} {F : List (ℕ × GoString) → α}
    (hcons : ∀ p ps ps', F ps = F ps' → F (p :: ps) = F (p :: ps'))
    (hhigh : ∀ r c ps, 0x80 ≤ r → c ≠ [] → (∀ b ∈ c, 0x80 ≤ b.toNat) →
      F ((r, c) :: ps) = F (bytes c ++ ps))
    {s : GoString} (h : validString s = true) : F (written s) = F (bytes s) := by
  have happend : ∀ ps qs qs', F qs = F qs' → F (ps ++ qs) = F (ps ++ qs') := by
    intro ps qs qs' hqs
    induction ps with
    | nil => exact hqs
    | cons p ps ih => exact hcons p _ _ ih
  refine validString_induction (P := fun s => F (written s) = F (bytes s)) rfl ?_ h
  intro c s hc ih
  rw [written_append_of_isRune hc, bytes_append, ← happend _ _ _ ih]
  obtain ⟨b, rfl, -, hrune⟩ | ⟨hne, hbytes, hrune⟩ := piece_cases (Or.inl hc)
  · rw [hrune]
    rfl
  · exact hhigh _ c _ hrune hne hbytes

end Utf8

namespace Classic

/-- The errors of `ParseMatcher`, with the texts that they quote. -/
inductive Error
  | badFormat (s : GoString)
  | notValidUTF8 (text : GoString)
  | unescapedQuote (text : GoString)
  | uncompilable (pattern : GoString)
  deriving DecidableEq

/-- Their texts, with that of `regexp.Compile` for a pattern. -/
def Error.text (compileError : GoString → GoString) : Error → GoString
  | badFormat s => str "bad matcher format: " ++ s
  | notValidUTF8 text => str "matcher value not valid UTF-8: " ++ text
  | unescapedQuote text => str "matcher value contains unescaped double quote: " ++ text
  | uncompilable pattern => compileError pattern

/-! ### The regular expression -/

/-- `\s`. -/
def isBlank (b : UInt8) : Bool := b == 9 || b == 10 || b == 12 || b == 13 || b == 32

/-- `[a-zA-Z_:]`. -/
def isNameStart (b : UInt8) : Bool :=
  97 ≤ b && b ≤ 122 || 65 ≤ b && b ≤ 90 || b == 95 || b == 58

/-- `[a-zA-Z0-9_:]`. -/
def isNamePart (b : UInt8) : Bool := isNameStart b || 48 ≤ b && b ≤ 57

/-- `(=~|=|!=|!~)`: the first alternative that matches. -/
def operator (s : GoString) : Option GoString :=
  [str "=~", str "=", str "!=", str "!~"].find? fun op => op.isPrefixOf s

/-- The groups of the expression. -/
structure Submatch where
  name : GoString
  op : GoString
  text : GoString
  deriving DecidableEq

/-- `re.FindStringSubmatch`. The blanks and the name are as long as possible, since what
comes behind them cannot begin with one of their bytes. The third group is as short as
possible, so that it ends before the blanks at the end. -/
def findStringSubmatch (s : GoString) : Option Submatch :=
  let s := s.dropWhile isBlank
  let name := s.takeWhile isNamePart
  let rest := (s.dropWhile isNamePart).dropWhile isBlank
  if name.head?.any isNameStart then
    (operator rest).map fun op =>
      ⟨name, op, ((rest.drop op.length).dropWhile isBlank).rdropWhile isBlank⟩
  else none

/-- `typeMap`, with the zero value for other keys. -/
def typeMap (op : GoString) : MatchType :=
  if op = str "!=" then .notEqual else if op = str "=~" then .regexp
  else if op = str "!~" then .notRegexp else .equal

theorem blank_nil : ∀ b ∈ ([] : GoString), isBlank b = true := List.forall_mem_nil _

/-- What the expression allows before the value. -/
structure Frame where
  lead : GoString
  name : GoString
  gap : GoString
  op : MatchType
  space : GoString
  lead_blank : ∀ b ∈ lead, isBlank b = true
  name_start : name.head?.any isNameStart = true
  name_part : ∀ b ∈ name, isNamePart b = true
  gap_blank : ∀ b ∈ gap, isBlank b = true
  space_blank : ∀ b ∈ space, isBlank b = true

namespace Frame

def text (f : Frame) : GoString :=
  f.lead ++ (f.name ++ (f.gap ++ (f.op.string ++ f.space)))

theorem exists_name (f : Frame) : ∃ n name, f.name = n :: name ∧ isNameStart n = true := by
  have hstart := f.name_start
  cases hname : f.name with
  | nil => simp [hname] at hstart
  | cons n name => exact ⟨n, name, rfl, by simpa [hname] using hstart⟩

end Frame

theorem isBlank_iff {b : UInt8} :
    isBlank b = true ↔ b = 9 ∨ b = 10 ∨ b = 12 ∨ b = 13 ∨ b = 32 := by
  simp [isBlank, or_assoc]

theorem not_isNamePart_of_isBlank {b : UInt8} (h : isBlank b = true) : isNamePart b = false := by
  rcases isBlank_iff.mp h with rfl | rfl | rfl | rfl | rfl <;> rfl

theorem not_isBlank_of_isNameStart {b : UInt8} (h : isNameStart b = true) : isBlank b = false := by
  by_contra hblank
  have hnot := not_isNamePart_of_isBlank (Bool.of_not_eq_false hblank)
  simp [isNamePart, h] at hnot

/-- No byte of an operator is a blank or a part of a name. -/
theorem operator_head (op : MatchType) : ∃ b bs, op.string = b :: bs ∧ isBlank b = false ∧
    isNamePart b = false := by
  cases op with
  | equal => exact ⟨61, [], rfl, rfl, rfl⟩
  | notEqual => exact ⟨33, [61], rfl, rfl, rfl⟩
  | regexp => exact ⟨61, [126], rfl, rfl, rfl⟩
  | notRegexp => exact ⟨33, [126], rfl, rfl, rfl⟩

theorem operator_string (op : MatchType) {y : GoString} (hy : y.head? ≠ some 126) :
    operator (op.string ++ y) = some op.string := by
  cases op with
  | equal =>
    cases y with
    | nil => rfl
    | cons b y =>
      have hb : ¬126 = b := fun h => hy (by rw [h]; rfl)
      change [[61, 126], [61], [33, 61], [33, 126]].find?
        (fun op => List.isPrefixOf op (61 :: b :: y)) = some [61]
      simp [List.isPrefixOf, hb]
  | notEqual => rfl
  | regexp => rfl
  | notRegexp => rfl

theorem exists_of_operator {s op : GoString} (h : operator s = some op) :
    ∃ ty : MatchType, op = ty.string ∧ s = op ++ s.drop op.length := by
  have hfound : op.isPrefixOf s = true := by
    rw [operator] at h
    simpa using List.find?_some h
  have hsplit := List.prefix_iff_eq_append.mp (List.isPrefixOf_iff_prefix.mp hfound)
  have hmem := List.mem_of_find?_eq_some h
  simp only [List.mem_cons, List.not_mem_nil, or_false] at hmem
  obtain rfl | rfl | rfl | rfl := hmem
  · exact ⟨.regexp, rfl, hsplit.symm⟩
  · exact ⟨.equal, rfl, hsplit.symm⟩
  · exact ⟨.notEqual, rfl, hsplit.symm⟩
  · exact ⟨.notRegexp, rfl, hsplit.symm⟩

section
variable {α : Type} {p : α → Bool}

theorem dropWhile_append_cons {x : List α} (hx : ∀ a ∈ x, p a = true) {a : α} (ha : p a = false)
    (y : List α) : (x ++ a :: y).dropWhile p = a :: y := by
  rw [List.dropWhile_append_of_pos hx, List.dropWhile_cons_of_neg (by simp [ha])]

theorem rdropWhile_append_cons {a : α} (ha : p a = false) (x y : List α) :
    (x ++ a :: y).rdropWhile p = x ++ a :: y.rdropWhile p := by
  induction y using List.reverseRecOn with
  | nil => rw [List.rdropWhile_nil, List.rdropWhile_concat_neg _ _ _ (by simp [ha])]
  | append_singleton y b ih =>
    rw [← List.cons_append, ← List.append_assoc, List.rdropWhile_concat, List.rdropWhile_concat]
    split_ifs
    · exact ih
    · simp

end

theorem head_append_quote {space : GoString} (h : ∀ b ∈ space, isBlank b = true) (x : GoString) :
    (space ++ 34 :: x).head? ≠ some 126 := by
  cases space with
  | nil => simp
  | cons b space =>
    have hb := h b List.mem_cons_self
    rintro hhead
    obtain rfl : b = 126 := Option.some.inj hhead
    cases hb

/-- The name and the operator are found in front of a quote, and the rest is the value. -/
theorem findStringSubmatch_frame (f : Frame) (x : GoString) :
    findStringSubmatch (f.text ++ 34 :: x) =
      some ⟨f.name, f.op.string, (34 :: x).rdropWhile isBlank⟩ := by
  obtain ⟨n, name, hname, hstart⟩ := f.exists_name
  obtain ⟨o, os, hop, hblank, hpart⟩ := operator_head f.op
  have hlead : (f.text ++ 34 :: x).dropWhile isBlank =
      f.name ++ (f.gap ++ (f.op.string ++ (f.space ++ 34 :: x))) := by
    simp only [Frame.text, List.append_assoc, hname, List.cons_append]
    exact dropWhile_append_cons f.lead_blank (not_isBlank_of_isNameStart hstart) _
  -- what follows the name begins with a blank or with the operator
  obtain ⟨b, bs, hafter, hb⟩ : ∃ b bs,
      f.gap ++ (f.op.string ++ (f.space ++ 34 :: x)) = b :: bs ∧ isNamePart b = false := by
    cases hgap : f.gap with
    | nil => exact ⟨o, _, by rw [hop]; rfl, hpart⟩
    | cons b gap => exact ⟨b, _, rfl, not_isNamePart_of_isBlank (f.gap_blank b (by simp [hgap]))⟩
  have hrest : (f.gap ++ (f.op.string ++ (f.space ++ 34 :: x))).dropWhile isBlank =
      f.op.string ++ (f.space ++ 34 :: x) := by
    rw [hop]
    exact dropWhile_append_cons f.gap_blank hblank _
  have htake : (f.name ++ b :: bs).takeWhile isNamePart = f.name := by
    rw [List.takeWhile_append_of_pos f.name_part, List.takeWhile_cons_of_neg (by simp [hb]),
      List.append_nil]
  have hdrop : (f.name ++ b :: bs).dropWhile isNamePart = b :: bs :=
    dropWhile_append_cons f.name_part hb bs
  have hop' := operator_string f.op (head_append_quote f.space_blank x)
  simp only [findStringSubmatch, hlead, hafter, htake, hdrop]
  rw [if_pos f.name_start, ← hafter, hrest, hop', Option.map_some, List.drop_left,
    dropWhile_append_cons f.space_blank (by rfl)]

/-- What the expression matches is a frame, the value and blanks. -/
theorem exists_frame {s : GoString} {sub : Submatch} (h : findStringSubmatch s = some sub) :
    ∃ f : Frame, ∃ trail, s = f.text ++ (sub.text ++ trail) ∧
      (∀ b ∈ trail, isBlank b = true) ∧ sub.name = f.name ∧ sub.op = f.op.string := by
  simp only [findStringSubmatch] at h
  split_ifs at h with hname
  obtain ⟨op, hop, rfl⟩ := Option.map_eq_some_iff.mp h
  obtain ⟨ty, rfl, hsplit⟩ := exists_of_operator hop
  set rest := ((s.dropWhile isBlank).dropWhile isNamePart).dropWhile isBlank with hrest
  set value := (rest.drop ty.string.length).dropWhile isBlank with hvalue
  refine ⟨⟨s.takeWhile isBlank, (s.dropWhile isBlank).takeWhile isNamePart,
    ((s.dropWhile isBlank).dropWhile isNamePart).takeWhile isBlank, ty,
    (rest.drop ty.string.length).takeWhile isBlank, fun _ => List.mem_takeWhile_imp, hname,
    fun _ => List.mem_takeWhile_imp, fun _ => List.mem_takeWhile_imp,
    fun _ => List.mem_takeWhile_imp⟩, value.rtakeWhile isBlank, ?_,
    fun _ => List.mem_rtakeWhile_imp, rfl, rfl⟩
  simp only [Frame.text, List.append_assoc]
  rw [List.rdropWhile_append_rtakeWhile, hvalue, List.takeWhile_append_dropWhile, ← hsplit, hrest,
    List.takeWhile_append_dropWhile, List.takeWhile_append_dropWhile,
    List.takeWhile_append_dropWhile]

/-! ### One matcher -/

/-- The loop over the value: what it writes and whether the quote at the end is still
expected, or nothing for a quote that is not escaped. A backslash or a quote is a single
byte, which is the last one if no rune follows. -/
def unescape : Bool → Bool → List (ℕ × GoString) → Option (GoString × Bool)
  | _, expectTrailingQuote, [] => some ([], expectTrailingQuote)
  | true, expectTrailingQuote, (r, text) :: rs =>
    (unescape false expectTrailingQuote rs).map fun out =>
      ((if r = 110 then [10] else if r = 34 ∨ r = 92 then text else 92 :: text) ++ out.1, out.2)
  | false, expectTrailingQuote, (r, text) :: rs =>
    if r = 92 then
      if rs ≠ [] then unescape true expectTrailingQuote rs
      else some ([92], expectTrailingQuote)
    else if r = 34 then
      if !expectTrailingQuote ∨ rs ≠ [] then none else some ([], false)
    else (unescape false expectTrailingQuote rs).map fun out => (text ++ out.1, out.2)

/-- The value of the third group. -/
def parseText (text : GoString) : Except Error GoString :=
  let expectTrailingQuote := text.head? == some 34
  let rawValue := if expectTrailingQuote then text.tail else text
  if !Utf8.validString rawValue then .error (.notValidUTF8 text)
  else
    match unescape false expectTrailingQuote (Utf8.written rawValue) with
    | some (value, false) => .ok value
    | _ => .error (.unescapedQuote text)

/-- The loop does the same over the bytes of a long encoding as over its rune. -/
theorem unescape_high {r : ℕ} {c : GoString} (hr : 0x80 ≤ r) (hne : c ≠ [])
    (hc : ∀ b ∈ c, 0x80 ≤ b.toNat) (escaped expect : Bool) (ps : List (ℕ × GoString)) :
    unescape escaped expect ((r, c) :: ps) = unescape escaped expect (Utf8.bytes c ++ ps) := by
  have hplain : ∀ (c : GoString), (∀ b ∈ c, 0x80 ≤ b.toNat) →
      unescape false expect (Utf8.bytes c ++ ps) =
        (unescape false expect ps).map fun out => (c ++ out.1, out.2) := by
    intro c hc
    induction c with
    | nil => simp
    | cons b c ih =>
      have hb := hc b List.mem_cons_self
      rw [Utf8.bytes_cons, List.cons_append, unescape, if_neg (by omega), if_neg (by omega),
        ih fun b' hb' => hc b' (List.mem_cons_of_mem b hb'), Option.map_map]
      rfl
  cases escaped with
  | false => rw [hplain c hc, unescape, if_neg (by omega), if_neg (by omega)]
  | true =>
    obtain ⟨b, c, rfl⟩ := List.exists_cons_of_ne_nil hne
    have hb := hc b List.mem_cons_self
    rw [Utf8.bytes_cons, List.cons_append, unescape, unescape,
      hplain c fun b' hb' => hc b' (List.mem_cons_of_mem b hb'), Option.map_map,
      if_neg (by omega), if_neg (by omega), if_neg (by omega), if_neg (by omega)]
    rfl

theorem unescape_written {s : GoString} (h : Utf8.validString s = true) (escaped expect : Bool) :
    unescape escaped expect (Utf8.written s) = unescape escaped expect (Utf8.bytes s) := by
  -- the loop also asks whether there is another rune
  have heq := Utf8.written_eq_bytes
    (F := fun ps => (ps.isEmpty, fun escaped expect => unescape escaped expect ps)) ?_ ?_ h
  · exact congrFun (congrFun (congrArg Prod.snd heq) escaped) expect
  · rintro ⟨r, text⟩ ps ps' hps
    obtain ⟨hempty, hunescape⟩ := Prod.mk.inj hps
    refine Prod.ext rfl (funext fun escaped => funext fun expect => ?_)
    have hnil : ps = [] ↔ ps' = [] := by
      rw [← List.isEmpty_iff, ← List.isEmpty_iff, hempty]
    have hrest := fun escaped expect => congrFun (congrFun hunescape escaped) expect
    cases escaped with
    | true => simp only [unescape, hrest]
    | false => simp only [unescape, hrest, ne_eq, hnil]
  · intro r c ps hr hne hc
    refine Prod.ext ?_ (funext fun escaped => funext fun expect =>
      unescape_high hr hne hc escaped expect ps)
    obtain ⟨b, c, rfl⟩ := List.exists_cons_of_ne_nil hne
    rfl

/-- A text that the loop accepts after an opening quote is closed by its last byte, and by
no other. -/
theorem closed_of_unescape {escaped : Bool} {s : GoString}
    (h : (unescape escaped true (Utf8.bytes s)).map Prod.snd = some false) :
    ∃ content, s = content ++ [34] ∧ Strconv.escapeState escaped content = some false := by
  induction s generalizing escaped with
  | nil => simp [unescape] at h
  | cons b s ih =>
    have hbyte : ∀ n : UInt8, b.toNat = n.toNat ↔ b = n := fun n => UInt8.toNat_inj
    rw [Utf8.bytes_cons] at h
    cases escaped with
    | true =>
      rw [unescape, Option.map_map] at h
      obtain ⟨content, rfl, hstate⟩ := ih h
      exact ⟨b :: content, rfl, hstate⟩
    | false =>
      rw [unescape] at h
      split_ifs at h with hbackslash hmore hquote hopen
      · obtain ⟨content, rfl, hstate⟩ := ih h
        refine ⟨b :: content, rfl, ?_⟩
        rw [Strconv.escapeState, if_pos ((hbyte 92).mp hbackslash), hstate]
      · cases h
      · cases h
      · obtain rfl : s = [] := by simpa [Utf8.bytes] using hopen
        exact ⟨[], by rw [(hbyte 34).mp hquote]; rfl, rfl⟩
      · rw [Option.map_map] at h
        obtain ⟨content, rfl, hstate⟩ := ih h
        refine ⟨b :: content, rfl, ?_⟩
        rw [Strconv.escapeState, if_neg fun hb => hbackslash ((hbyte 92).mpr hb),
          if_neg fun hb => hquote ((hbyte 34).mpr hb), hstate]

section
variable [Regexp]

def Submatch.matcher (sub : Submatch) : Except Error Matcher := do
  let value ← parseText sub.text
  match newMatcher (typeMap sub.op) sub.name value with
  | some m => .ok m
  | none => .error (.uncompilable (anchored value))

/-- `ParseMatcher`. -/
def parseMatcher (s : GoString) : Except Error Matcher :=
  match findStringSubmatch s with
  | none => .error (.badFormat s)
  | some sub => sub.matcher

/-! ### Lists of matchers -/

end

/-- A piece of a string that is a space. -/
def isSpacePiece (c : GoString) : Bool := isSpace (Utf8.pieceRune c)

/-- `strings.TrimSpace`, for the valid strings that `WriteRune` leaves. -/
def trimSpace (s : GoString) : GoString :=
  (((Utf8.runes s).dropWhile isSpacePiece).rdropWhile isSpacePiece).flatten

/-- The variables of the loop in `ParseMatchers`. -/
structure Splitter where
  insideQuotes : Bool := false
  escaped : Bool := false
  token : GoString := []
  tokens : List GoString := []

namespace Splitter

/-- `token.WriteRune`. -/
def write (st : Splitter) (text : GoString) : Splitter := { st with token := st.token ++ text }

/-- The body of the loop. A comma inside quotes leaves `escaped` as it is. -/
def next (st : Splitter) (r : ℕ × GoString) : Splitter :=
  if r.1 = 44 then
    if !st.insideQuotes then { st with tokens := st.tokens ++ [st.token], token := [] }
    else st.write r.2
  else if r.1 = 34 then
    if !st.escaped then { st with insideQuotes := !st.insideQuotes }.write r.2
    else { st with escaped := false }.write r.2
  else if r.1 = 92 then { st with escaped := !st.escaped }.write r.2
  else { st with escaped := false }.write r.2

def run (st : Splitter) (rs : List (ℕ × GoString)) : Splitter := rs.foldl next st

/-- The tokens, with the one that the loop has not appended. -/
def finish (st : Splitter) : List GoString :=
  if trimSpace st.token ≠ [] then st.tokens ++ [trimSpace st.token] else st.tokens

end Splitter

/-- `strings.TrimPrefix(s, "{")`. -/
def trimOpenBrace (s : GoString) : GoString := if s.head? = some 123 then s.tail else s

/-- `strings.TrimSuffix(s, "}")`. -/
def trimCloseBrace (s : GoString) : GoString := if s.getLast? = some 125 then s.dropLast else s

def splitTokens (s : GoString) : List GoString :=
  (({} : Splitter).run (Utf8.written (trimCloseBrace (trimOpenBrace s)))).finish

section
variable [Regexp]

/-- `ParseMatchers`: the first token that is not a matcher ends it. -/
def parseMatchers (s : GoString) : Except Error Matchers := (splitTokens s).mapM parseMatcher

/-! ### Accepted matchers in quotes -/

theorem parseMatcher_eq_ok_iff {s : GoString} {m : Matcher} : parseMatcher s = .ok m ↔
    ∃ sub, findStringSubmatch s = some sub ∧ parseText sub.text = .ok m.value ∧
      m.type = typeMap sub.op ∧ m.name = sub.name := by
  rw [parseMatcher]
  cases findStringSubmatch s with
  | none => simp
  | some sub =>
    simp only [Option.some.injEq, exists_eq_left', Submatch.matcher]
    cases hvalue : parseText sub.text with
    | error err => simp [bind, Except.bind]
    | ok value =>
      have hnew : parseText sub.text = .ok m.value ∧ m.type = typeMap sub.op ∧
          m.name = sub.name ↔ newMatcher (typeMap sub.op) sub.name value = some m := by
        rw [newMatcher_eq_some_iff, hvalue, Except.ok.injEq]
        tauto
      rw [← hvalue, hnew]
      cases hmatcher : newMatcher (typeMap sub.op) sub.name value with
      | none => simp [hvalue, hmatcher, bind, Except.bind]
      | some m' => simp [hvalue, hmatcher, bind, Except.bind]

end

/-- The text of an accepted value that begins with a quote ends with the closing one. -/
theorem closed_of_parseText {raw value : GoString} (h : parseText (34 :: raw) = .ok value) :
    Utf8.validString raw = true ∧
      ∃ content, raw = content ++ [34] ∧ Strconv.escapeState false content = some false := by
  simp only [parseText, List.head?_cons, beq_self_eq_true, if_true, List.tail_cons] at h
  split_ifs at h with hvalid
  have hvalid : Utf8.validString raw = true := by simpa using hvalid
  refine ⟨hvalid, closed_of_unescape ?_⟩
  rw [← unescape_written hvalid]
  split at h
  · rename_i value' hunescape
    rw [hunescape]
    rfl
  · cases h

/-- The text between the quotes of a matcher, if its value is in quotes. -/
def quotedContent (s : GoString) : Option GoString :=
  (findStringSubmatch s).bind fun sub =>
    if sub.text.head? = some 34 ∧ sub.text.getLast? = some 34 ∧ 2 ≤ sub.text.length then
      some sub.text.tail.dropLast
    else none

/-- A matcher whose value is in quotes. -/
structure Item where
  frame : Frame
  content : GoString
  trail : GoString
  valid : Utf8.validString content = true
  closed : Strconv.escapeState false content = some false
  trail_blank : ∀ b ∈ trail, isBlank b = true

def Item.text (i : Item) : GoString := i.frame.text ++ 34 :: (i.content ++ 34 :: i.trail)

theorem exists_item [Regexp] {s content : GoString} {m : Matcher} (h : parseMatcher s = .ok m)
    (hcontent : quotedContent s = some content) : ∃ i : Item, i.text = s ∧ i.content = content := by
  obtain ⟨sub, hsub, hvalue, -⟩ := parseMatcher_eq_ok_iff.mp h
  obtain ⟨f, trail, rfl, htrail, -⟩ := exists_frame hsub
  rw [quotedContent, hsub, Option.bind_some, Option.ite_none_right_eq_some] at hcontent
  obtain ⟨⟨hhead, -⟩, hcontent⟩ := hcontent
  obtain ⟨raw, hraw⟩ : ∃ raw, sub.text = 34 :: raw := by
    cases htext : sub.text with
    | nil => simp [htext] at hhead
    | cons b raw => exact ⟨raw, by simpa [htext] using hhead⟩
  rw [hraw] at hvalue hcontent
  obtain ⟨hvalid, content', rfl, hclosed⟩ := closed_of_parseText hvalue
  obtain rfl : content' = content := by simpa using hcontent
  have hvalid' := Utf8.validString_of_append_ascii (by decide) hvalid
  refine ⟨⟨f, content', trail, hvalid', hclosed, htrail⟩, ?_, rfl⟩
  simp [Item.text, hraw]

end Classic

end Alertmanager
