import Alertmanager.MatcherText
import Alertmanager.StrconvParse

/-!
# The lexer of the matcher syntax

The lexer of `matcher/parse/lexer.go`. It keeps two offsets into its input, those of the
current token and of the cursor, and decodes one rune at a time. A slice out of range
panics; a loop that runs out of fuel stands for one that does not end. Neither happens:
the lexer is shown to follow a function on the runes of the rest of the input, which
consumes at least one of them with every token.
-/
namespace Alertmanager

inductive TokenKind
  | tokenEOF
  | tokenOpenBrace
  | tokenCloseBrace
  | tokenComma
  | tokenEquals
  | tokenNotEquals
  | tokenMatches
  | tokenNotMatches
  | tokenQuoted
  | tokenUnquoted
  deriving DecidableEq

structure Position where
  offsetStart : ℤ := 0
  offsetEnd : ℤ := 0
  columnStart : ℤ := 0
  columnEnd : ℤ := 0
  deriving DecidableEq

structure Token where
  kind : TokenKind := .tokenEOF
  value : GoString := []
  position : Position := {}
  deriving DecidableEq

/-- `token.isOneOf`. -/
def Token.isOneOf (t : Token) (kinds : List TokenKind) : Bool := kinds.contains t.kind

/-- `token.unquote`. -/
def Token.unquote (t : Token) : Option GoString :=
  if t.kind = .tokenQuoted then
    (Strconv.unquote t.value).bind fun unquoted =>
      if Utf8.validString unquoted then some unquoted else none
  else some t.value

/-- The errors of the lexer. -/
inductive LexError
  | expected (position : Position) (input : GoString) (expected : GoString)
  | invalidInput (position : Position) (input : GoString)
  | unterminated (position : Position) (input : GoString) (quote : GoString)
  deriving DecidableEq

/-- What an error shows of the input. -/
def Position.slice (p : Position) (input : GoString) : GoString :=
  (input.take p.offsetEnd.toNat).drop p.offsetStart.toNat

/-- The columns before an error. -/
def Position.columns (p : Position) : GoString :=
  str (toString p.columnStart) ++ str ":" ++ str (toString p.columnEnd) ++ str ": "

/-- The texts of the errors. -/
def LexError.text : LexError → GoString
  | expected p input valid =>
    if p.offsetEnd ≥ input.length then
      p.columns ++ str "unexpected end of input, expected one of '" ++ valid ++ str "'"
    else p.columns ++ p.slice input ++ str ": expected one of '" ++ valid ++ str "'"
  | invalidInput p input => p.columns ++ p.slice input ++ str ": invalid input"
  | unterminated p input quote => p.columns ++ p.slice input ++ str ": missing end " ++ quote

structure Lexer where
  input : GoString
  err : Option LexError := none
  start : ℤ := 0
  pos : ℤ := 0
  width : ℤ := 0
  column : ℤ := 0
  cols : ℤ := 0

namespace Lexer

/-- `lexer.next`, with nothing for `eof`. -/
def next (l : Lexer) : Option (Option ℕ × Lexer) :=
  if l.pos ≥ l.input.length then some (none, { l with width := 0 })
  else if l.pos < 0 then none
  else
    let (r, width) := Utf8.decodeRune (l.input.drop l.pos.toNat)
    some (some r, { l with width, pos := l.pos + width, cols := l.cols + 1 })

/-- `lexer.rewind`. -/
def rewind (l : Lexer) : Lexer :=
  { l with pos := l.pos - l.width, cols := if l.width > 0 then l.cols - 1 else l.cols }

/-- `lexer.skip`. -/
def skip (l : Lexer) : Lexer := { l with start := l.pos, column := l.cols }

/-- `lexer.position`. -/
def position (l : Lexer) : Position := ⟨l.start, l.pos, l.column, l.cols⟩

/-- `lexer.emit`. -/
def emit (l : Lexer) (kind : TokenKind) : Option (Token × Lexer) :=
  if 0 ≤ l.start ∧ l.start ≤ l.pos ∧ l.pos ≤ l.input.length then
    some (⟨kind, (l.input.take l.pos.toNat).drop l.start.toNat, l.position⟩, l.skip)
  else none

/-- `strings.ContainsRune`, which finds no `eof`. -/
def containsRune (valid : GoString) (r : Option ℕ) : Bool :=
  match r with
  | none => false
  | some r => (Utf8.toRunes valid).contains r

/-- `lexer.accept`. -/
def accept (l : Lexer) (valid : GoString) : Option (Bool × Lexer) := do
  let (r, l) ← l.next
  if containsRune valid r then return (true, l) else return (false, l.rewind)

/-- `lexer.expect`. -/
def expect (l : Lexer) (valid : GoString) : Option (Except LexError Unit × Lexer) := do
  let (r, l) ← l.next
  if containsRune valid r then return (.ok (), l)
  else
    let l := l.rewind
    return (.error (.expected l.position l.input valid), l)

/-- A token as the result of a scan. -/
def emitted (l : Lexer) (kind : TokenKind) : Option (Except LexError Token × Lexer) := do
  let (t, l) ← l.emit kind
  return (.ok t, l)

/-- `lexer.scanOperator`. -/
def scanOperator (l : Lexer) : Option (Except LexError Token × Lexer) := do
  let (negative, l) ← l.accept (str "!")
  if negative then
    let (equal, l) ← l.accept (str "=")
    if equal then l.emitted .tokenNotEquals
    else
      let (tilde, l) ← l.accept (str "~")
      if tilde then l.emitted .tokenNotMatches
      else return (.error (.expected l.position l.input (str "=~")), l)
  else
    let (equal, l) ← l.accept (str "=")
    if equal then
      let (tilde, l) ← l.accept (str "~")
      if tilde then l.emitted .tokenMatches else l.emitted .tokenEquals
    else return (.error (.expected l.position l.input (str "!=")), l)

/-- The loop of `lexer.scanQuoted`. -/
def skipQuoted : ℕ → Bool → Lexer → Option Lexer
  | 0, _, _ => none
  | fuel + 1, isEscaped, l => do
      let (r, l) ← l.next
      match r with
      | none => return l
      | some r =>
        if isEscaped then skipQuoted fuel false l
        else if r = 92 then skipQuoted fuel true l
        else if r = 34 then return l.rewind
        else skipQuoted fuel false l

/-- `lexer.scanQuoted`. -/
def scanQuoted (l : Lexer) : Option (Except LexError Token × Lexer) := do
  let (opened, l) ← l.expect (str "\"")
  match opened with
  | .error err => return (.error err, l)
  | .ok () =>
    let l ← skipQuoted (l.input.length + 1) false l
    let (closed, l) ← l.expect (str "\"")
    match closed with
    | .error _ => return (.error (.unterminated l.position l.input (str "\"")), l)
    | .ok () => l.emitted .tokenQuoted

/-- The loop of `lexer.scanUnquoted`. -/
def skipUnquoted : ℕ → Lexer → Option Lexer
  | 0, _ => none
  | fuel + 1, l => do
      let (r, l) ← l.next
      match r with
      | none => return l
      | some r => if isReserved r then return l.rewind else skipUnquoted fuel l

/-- `lexer.scanUnquoted`. -/
def scanUnquoted (l : Lexer) : Option (Except LexError Token × Lexer) := do
  let l ← skipUnquoted (l.input.length + 1) l
  l.emitted .tokenUnquoted

/-- `t, l.err = ...`. -/
def recorded (scanned : Option (Except LexError Token × Lexer)) :
    Option (Except LexError Token × Lexer) := do
  let (t, l) ← scanned
  match t with
  | .error err => return (t, { l with err := some err })
  | .ok _ => return (t, { l with err := none })

/-- The loop of `lexer.scan`. -/
def scanLoop : ℕ → Lexer → Option (Except LexError Token × Lexer)
  | 0, _ => none
  | fuel + 1, l => do
      let (r, l) ← l.next
      match r with
      | none => return (.ok {}, l)
      | some r =>
        if r = 123 then l.emitted .tokenOpenBrace
        else if r = 125 then l.emitted .tokenCloseBrace
        else if r = 44 then l.emitted .tokenComma
        else if r = 61 ∨ r = 33 then recorded l.rewind.scanOperator
        else if r = 34 then recorded l.rewind.scanQuoted
        else if !isReserved r then recorded l.rewind.scanUnquoted
        else if isSpace r then scanLoop fuel l.skip
        else
          let err := LexError.invalidInput l.position l.input
          return (.error err, { l with err := some err })

/-- `lexer.scan`. -/
def scan (l : Lexer) : Option (Except LexError Token × Lexer) :=
  match l.err with
  | some err => some (.error err, l)
  | none => l.scanLoop (l.input.length + 1)

/-- `lexer.peek`, which keeps only the error of the scan. -/
def peek (l : Lexer) : Option (Except LexError Token × Lexer) := do
  let (t, after) ← l.scan
  return (t, { l with err := after.err })

/-- Scanning until the end of the input. -/
def tokens : ℕ → Lexer → Option (Except LexError (List Token))
  | 0, _ => none
  | fuel + 1, l => do
      let (t, l) ← l.scan
      match t with
      | .error err => return .error err
      | .ok t =>
        if t.kind = .tokenEOF then return .ok []
        else
          let ts ← tokens fuel l
          return ts.map (t :: ·)

end Lexer

/-- The tokens of an input. -/
def lex (input : GoString) : Option (Except LexError (List Token)) :=
  Lexer.tokens (input.length + 1) { input }

/-! ### The cursor -/

namespace Lexer

/-- The lexer has read the runes `us` since the last token and `ps` are left. Offsets count
the bytes, and columns the runes, that are before. -/
structure Cursor (input : GoString) (us ps : List GoString) (l : Lexer) : Prop where
  input_eq : l.input = input
  noErr : l.err = none
  split : ∃ before, Utf8.runes input = before ++ (us ++ ps) ∧
    l.start = before.flatten.length ∧ l.pos = before.flatten.length + us.flatten.length ∧
    l.column = before.length ∧ l.cols = before.length + us.length

variable {input : GoString} {us ps : List GoString} {c : GoString} {l : Lexer}

theorem Cursor.bytes (h : Cursor input us ps l) : ∃ before : GoString,
    input = before ++ (us.flatten ++ ps.flatten) ∧ l.start = before.length ∧
      l.pos = before.length + us.flatten.length := by
  obtain ⟨before, hsplit, hstart, hpos, -, -⟩ := h.split
  refine ⟨before.flatten, ?_, hstart, hpos⟩
  rw [← Utf8.flatten_runes input, hsplit, List.flatten_append, List.flatten_append]

theorem Cursor.runes_rest (h : Cursor input us ps l) : Utf8.runes ps.flatten = ps := by
  obtain ⟨before, hsplit, -⟩ := h.split
  refine Utf8.runes_of_append_runes (before ++ us) ?_
  rw [List.append_assoc, ← hsplit, Utf8.flatten_runes]

theorem Cursor.next_nil (h : Cursor input us [] l) : ∃ l', l.next = some (none, l') ∧
    Cursor input us [] l' ∧ Cursor input us [] l'.rewind := by
  obtain ⟨before, hsplit, hstart, hpos, hcolumn, hcols⟩ := h.split
  have hend : l.pos ≥ l.input.length := by
    obtain ⟨before', hbytes, -, hpos'⟩ := h.bytes
    rw [h.input_eq, hbytes, hpos']
    simp
  have hcursor : Cursor input us [] { l with width := 0 } :=
    ⟨h.input_eq, h.noErr, before, hsplit, hstart, hpos, hcolumn, hcols⟩
  refine ⟨{ l with width := 0 }, if_pos hend, hcursor, ?_⟩
  exact ⟨h.input_eq, h.noErr, before, hsplit, hstart, by simpa [rewind] using hpos, hcolumn,
    by simpa [rewind] using hcols⟩

theorem Cursor.next_cons (h : Cursor input us (c :: ps) l) : ∃ l',
    l.next = some (some (Utf8.pieceRune c), l') ∧ Cursor input (us ++ [c]) ps l' ∧
      Cursor input us (c :: ps) l'.rewind := by
  obtain ⟨before, hsplit, hstart, hpos, hcolumn, hcols⟩ := h.split
  obtain ⟨before', hbytes, -, hpos'⟩ := h.bytes
  have hne : 0 < c.length := Utf8.length_pos_of_mem_runes (s := (c :: ps).flatten) (by
    rw [h.runes_rest]
    exact List.mem_cons_self)
  have hdrop : l.input.drop l.pos.toNat = (c :: ps).flatten := by
    rw [h.input_eq, hbytes, hpos', ← List.append_assoc]
    exact List.drop_left' (by rw [List.length_append]; omega)
  have hdecode : Utf8.decodeRune (l.input.drop l.pos.toNat) = (Utf8.pieceRune c, c.length) := by
    rw [hdrop, Utf8.decodeRune, h.runes_rest]
  have hlength : input.length = before'.length + us.flatten.length + c.length +
      ps.flatten.length := by
    rw [hbytes]
    simp only [List.length_append, List.flatten_cons]
    omega
  refine ⟨{ l with width := c.length, pos := l.pos + c.length, cols := l.cols + 1 }, ?_, ?_, ?_⟩
  · rw [next, if_neg (by rw [h.input_eq]; omega), if_neg (by omega), hdecode]
  · refine ⟨h.input_eq, h.noErr, before, by simpa using hsplit, hstart, ?_, hcolumn, ?_⟩
    · simp only [hpos, List.flatten_append, List.flatten_singleton, List.length_append]
      omega
    · simp only [hcols, List.length_append, List.length_singleton]
      omega
  · refine ⟨h.input_eq, h.noErr, before, hsplit, hstart, ?_, hcolumn, ?_⟩
    · simp only [rewind]
      omega
    · rw [← hcols]
      simp only [rewind]
      split_ifs <;> omega

theorem Cursor.skip (h : Cursor input us ps l) : Cursor input [] ps l.skip := by
  obtain ⟨before, hsplit, hstart, hpos, hcolumn, hcols⟩ := h.split
  refine ⟨h.input_eq, h.noErr, before ++ us, by simpa using hsplit, ?_, ?_, ?_, ?_⟩
  · simpa [Lexer.skip] using hpos
  · simpa [Lexer.skip] using hpos
  · simpa [Lexer.skip] using hcols
  · simpa [Lexer.skip] using hcols

/-- Where a token with the runes `us` stands if the lexer is behind it. -/
def spanBefore (us : List GoString) (l : Lexer) : Position :=
  ⟨l.start - us.flatten.length, l.start, l.column - us.length, l.column⟩

/-- A token is what has been read. -/
theorem Cursor.emitted (h : Cursor input us ps l) (kind : TokenKind) : ∃ t l',
    l.emitted kind = some (.ok t, l') ∧ t.kind = kind ∧ t.value = us.flatten ∧
      t.position = spanBefore us l' ∧ Cursor input [] ps l' := by
  obtain ⟨before, hbytes, hstart, hpos⟩ := h.bytes
  obtain ⟨runesBefore, -, -, -, hcolumn, hcols⟩ := h.split
  have hrange : 0 ≤ l.start ∧ l.start ≤ l.pos ∧ l.pos ≤ l.input.length := by
    rw [h.input_eq, hbytes]
    simp only [List.length_append]
    omega
  have hvalue : (l.input.take l.pos.toNat).drop l.start.toNat = us.flatten := by
    rw [h.input_eq, hbytes, hstart, hpos, ← List.append_assoc,
      List.take_left' (by rw [List.length_append]; omega), Int.toNat_natCast]
    exact List.drop_left
  have hposition : l.position = spanBefore us l.skip := by
    simp only [position, spanBefore, Lexer.skip, Position.mk.injEq, true_and, and_true]
    omega
  refine ⟨_, l.skip, by rw [Lexer.emitted, emit, if_pos hrange]; rfl, rfl, hvalue, hposition,
    h.skip⟩

/-- The next rune is one of the valid ones. -/
def headIs (valid : GoString) (ps : List GoString) : Bool :=
  containsRune valid (ps.head?.map Utf8.pieceRune)

/-- `accept` consumes a valid rune and nothing else. -/
theorem Cursor.accept (h : Cursor input us ps l) (valid : GoString) : ∃ l',
    l.accept valid = some (headIs valid ps, l') ∧
      Cursor input (us ++ if headIs valid ps then ps.take 1 else [])
        (if headIs valid ps then ps.drop 1 else ps) l' := by
  cases ps with
  | nil =>
    obtain ⟨l', hnext, -, hrewind⟩ := h.next_nil
    refine ⟨l'.rewind, by simp [Lexer.accept, hnext, headIs, containsRune], ?_⟩
    simpa [headIs, containsRune] using hrewind
  | cons c ps =>
    obtain ⟨l', hnext, hread, hrewind⟩ := h.next_cons
    by_cases hc : containsRune valid (some (Utf8.pieceRune c)) = true
    · exact ⟨l', by simp [Lexer.accept, hnext, headIs, hc], by simpa [headIs, hc] using hread⟩
    · exact ⟨l'.rewind, by simp [Lexer.accept, hnext, headIs, hc],
        by simpa [headIs, hc] using hrewind⟩

/-- `expect` does the same and has an error otherwise. -/
theorem Cursor.expect (h : Cursor input us ps l) (valid : GoString) :
    (headIs valid ps = true → ∃ l', l.expect valid = some (.ok (), l') ∧
      Cursor input (us ++ ps.take 1) (ps.drop 1) l') ∧
    (headIs valid ps = false → ∃ err l', l.expect valid = some (.error err, l') ∧
      Cursor input us ps l') := by
  cases ps with
  | nil =>
    obtain ⟨l', hnext, -, hrewind⟩ := h.next_nil
    refine ⟨fun hhead => by simp [headIs, containsRune] at hhead, fun _ => ?_⟩
    exact ⟨_, l'.rewind, by simp [Lexer.expect, hnext, containsRune]; rfl, hrewind⟩
  | cons c ps =>
    obtain ⟨l', hnext, hread, hrewind⟩ := h.next_cons
    constructor
    · intro hhead
      have hc : containsRune valid (some (Utf8.pieceRune c)) = true := hhead
      exact ⟨l', by simp [Lexer.expect, hnext, hc], hread⟩
    · intro hhead
      have hc : containsRune valid (some (Utf8.pieceRune c)) = false := hhead
      exact ⟨_, l'.rewind, by simp [Lexer.expect, hnext, hc]; rfl, hrewind⟩

end Lexer

/-! ### Tokens of runes -/

/-- What the runes of the rest of an input begin with. -/
inductive Lexed
  | eof
  | error
  | token (kind : TokenKind) (us rest : List GoString)

namespace Lexed

def operator (c : GoString) (ps : List GoString) : Lexed :=
  if Utf8.pieceRune c = 33 then
    if Lexer.headIs (str "=") ps then .token .tokenNotEquals (c :: ps.take 1) (ps.drop 1)
    else if Lexer.headIs (str "~") ps then .token .tokenNotMatches (c :: ps.take 1) (ps.drop 1)
    else .error
  else if Lexer.headIs (str "~") ps then .token .tokenMatches (c :: ps.take 1) (ps.drop 1)
  else .token .tokenEquals [c] ps

/-- The runes before the first quote that is not escaped, and those from it on. -/
def untilQuote : Bool → List GoString → List GoString × List GoString
  | _, [] => ([], [])
  | true, c :: ps => ((untilQuote false ps).map (c :: ·) id)
  | false, c :: ps =>
    if Utf8.pieceRune c = 92 then (untilQuote true ps).map (c :: ·) id
    else if Utf8.pieceRune c = 34 then ([], c :: ps)
    else (untilQuote false ps).map (c :: ·) id

def quoted (c : GoString) (ps : List GoString) : Lexed :=
  match (untilQuote false ps).2 with
  | [] => .error
  | d :: rest => .token .tokenQuoted (c :: (untilQuote false ps).1 ++ [d]) rest

def plain (c : GoString) : Bool := !isReserved (Utf8.pieceRune c)

/-- The first token. -/
def first : List GoString → Lexed
  | [] => .eof
  | c :: ps =>
    let r := Utf8.pieceRune c
    if r = 123 then .token .tokenOpenBrace [c] ps
    else if r = 125 then .token .tokenCloseBrace [c] ps
    else if r = 44 then .token .tokenComma [c] ps
    else if r = 61 ∨ r = 33 then operator c ps
    else if r = 34 then quoted c ps
    else if !isReserved r then
      .token .tokenUnquoted (c :: ps.takeWhile plain) (ps.dropWhile plain)
    else if isSpace r then first ps
    else .error

end Lexed

namespace Lexer

variable {input : GoString} {us ps : List GoString} {c : GoString} {l : Lexer}

theorem Cursor.skipQuoted {fuel : ℕ} (isEscaped : Bool) (h : Cursor input us ps l)
    (hfuel : ps.length < fuel) : ∃ l', Lexer.skipQuoted fuel isEscaped l = some l' ∧
      Cursor input (us ++ (Lexed.untilQuote isEscaped ps).1) (Lexed.untilQuote isEscaped ps).2
        l' := by
  induction fuel generalizing isEscaped us ps l with
  | zero => exact absurd hfuel (Nat.not_lt_zero _)
  | succ fuel ih =>
    cases ps with
    | nil =>
      obtain ⟨l', hnext, hread, -⟩ := h.next_nil
      refine ⟨l', by simp [Lexer.skipQuoted, hnext], ?_⟩
      cases isEscaped <;> simpa [Lexed.untilQuote] using hread
    | cons c ps =>
      obtain ⟨l', hnext, hread, hrewind⟩ := h.next_cons
      have hstep : ∀ isEscaped', ∃ l'', Lexer.skipQuoted fuel isEscaped' l' = some l'' ∧
          Cursor input (us ++ c :: (Lexed.untilQuote isEscaped' ps).1)
            (Lexed.untilQuote isEscaped' ps).2 l'' := by
        intro isEscaped'
        obtain ⟨l'', hskip, hcursor⟩ := ih isEscaped' hread
          (Nat.lt_of_succ_lt_succ hfuel)
        exact ⟨l'', hskip, by simpa using hcursor⟩
      cases isEscaped with
      | true =>
        obtain ⟨l'', hskip, hcursor⟩ := hstep false
        exact ⟨l'', by simpa [Lexer.skipQuoted, hnext] using hskip, hcursor⟩
      | false =>
        by_cases hbackslash : Utf8.pieceRune c = 92
        · obtain ⟨l'', hskip, hcursor⟩ := hstep true
          exact ⟨l'', by simpa [Lexer.skipQuoted, hnext, hbackslash] using hskip,
            by simpa [Lexed.untilQuote, hbackslash] using hcursor⟩
        · by_cases hquote : Utf8.pieceRune c = 34
          · exact ⟨l'.rewind, by simp [Lexer.skipQuoted, hnext, hquote],
              by simpa [Lexed.untilQuote, hquote] using hrewind⟩
          · obtain ⟨l'', hskip, hcursor⟩ := hstep false
            exact ⟨l'', by simpa [Lexer.skipQuoted, hnext, hbackslash, hquote] using hskip,
              by simpa [Lexed.untilQuote, hbackslash, hquote] using hcursor⟩

theorem Cursor.skipUnquoted {fuel : ℕ} (h : Cursor input us ps l) (hfuel : ps.length < fuel) :
    ∃ l', Lexer.skipUnquoted fuel l = some l' ∧
      Cursor input (us ++ ps.takeWhile Lexed.plain) (ps.dropWhile Lexed.plain) l' := by
  induction fuel generalizing us ps l with
  | zero => exact absurd hfuel (Nat.not_lt_zero _)
  | succ fuel ih =>
    cases ps with
    | nil =>
      obtain ⟨l', hnext, hread, -⟩ := h.next_nil
      exact ⟨l', by simp [Lexer.skipUnquoted, hnext], by simpa using hread⟩
    | cons c ps =>
      obtain ⟨l', hnext, hread, hrewind⟩ := h.next_cons
      by_cases hreserved : isReserved (Utf8.pieceRune c) = true
      · exact ⟨l'.rewind, by simp [Lexer.skipUnquoted, hnext, hreserved],
          by simpa [Lexed.plain, hreserved] using hrewind⟩
      · obtain ⟨l'', hskip, hcursor⟩ := ih hread (Nat.lt_of_succ_lt_succ hfuel)
        exact ⟨l'', by simpa [Lexer.skipUnquoted, hnext, hreserved] using hskip,
          by simpa [Lexed.plain, hreserved] using hcursor⟩

theorem Cursor.length_rest_le (h : Cursor input us ps l) : ps.length ≤ l.input.length := by
  obtain ⟨before, hbytes, -, -⟩ := h.bytes
  have hle := Utf8.length_runes_le ps.flatten
  rw [h.runes_rest] at hle
  rw [h.input_eq, hbytes]
  simp only [List.length_append]
  omega

/-- What a scan has to return for the rest of the input, and where it leaves the lexer. -/
def Refines (input : GoString) (scanned : Option (Except LexError Token × Lexer)) :
    Lexed → Prop
  | .eof => ∃ l', scanned = some (.ok {}, l') ∧ Cursor input [] [] l'
  | .error => ∃ err l', scanned = some (.error err, l') ∧ l'.input = input ∧ l'.err = some err
  | .token kind us rest => ∃ t l', scanned = some (.ok t, l') ∧ t.kind = kind ∧
      t.value = us.flatten ∧ t.position = spanBefore us l' ∧ Cursor input [] rest l'

/-- The branches of a scan are those of the first token. -/
theorem refines_ite {p : Prop} [Decidable p] {a b : Option (Except LexError Token × Lexer)}
    {x y : Lexed} (hpos : p → Refines input a x) (hneg : ¬p → Refines input b y) :
    Refines input (if p then a else b) (if p then x else y) := by
  by_cases h : p
  · rw [if_pos h, if_pos h]
    exact hpos h
  · rw [if_neg h, if_neg h]
    exact hneg h

theorem Cursor.refines_emitted (h : Cursor input us ps l) (kind : TokenKind) :
    Refines input (l.emitted kind) (.token kind us ps) :=
  h.emitted kind

theorem Cursor.refines_recorded_emitted (h : Cursor input us ps l) (kind : TokenKind) :
    Refines input (recorded (l.emitted kind)) (.token kind us ps) := by
  obtain ⟨t, l', hemit, hkind, hvalue, hposition, hcursor⟩ := h.emitted kind
  refine ⟨t, { l' with err := none }, by rw [hemit]; rfl, hkind, hvalue, hposition, ?_⟩
  exact ⟨hcursor.input_eq, rfl, hcursor.split⟩

theorem Cursor.refines_recorded_error (h : Cursor input us ps l) (err : LexError) :
    Refines input (recorded (some (.error err, l))) .error :=
  ⟨err, { l with err := some err }, rfl, h.input_eq, rfl⟩

theorem headIs_cons_iff {b : UInt8} (hb : b.toNat < 0x80) :
    headIs [b] (c :: ps) = true ↔ Utf8.pieceRune c = b.toNat := by
  have hisRune : Utf8.isRune [b] = true := by
    simpa [Utf8.isRune, UInt8.lt_iff_toNat_lt] using hb
  have hrune : Utf8.toRunes [b] = [b.toNat] := by
    have hvalue : Utf8.rune [b] = b.toNat := Nat.mod_eq_of_lt hb
    simp [Utf8.toRunes, Utf8.runes, hisRune, Utf8.pieceRune, hvalue]
  simp [headIs, containsRune, hrune]

theorem headIs_bang : headIs (str "!") (c :: ps) = true ↔ Utf8.pieceRune c = 33 :=
  headIs_cons_iff (by decide)

theorem headIs_equal : headIs (str "=") (c :: ps) = true ↔ Utf8.pieceRune c = 61 :=
  headIs_cons_iff (by decide)

/-- An operator is read with as many runes as it has. -/
theorem Cursor.scanOperator (h : Cursor input [] (c :: ps) l)
    (hc : Utf8.pieceRune c = 61 ∨ Utf8.pieceRune c = 33) :
    Refines input (recorded l.scanOperator) (Lexed.operator c ps) := by
  obtain ⟨l₁, haccept, hcursor⟩ := h.accept (str "!")
  by_cases hnegative : Utf8.pieceRune c = 33
  · have hhead : headIs (str "!") (c :: ps) = true := headIs_bang.mpr hnegative
    simp only [hhead, if_true, List.nil_append, List.take_succ_cons, List.take_zero,
      List.drop_succ_cons, List.drop_zero] at haccept hcursor
    obtain ⟨l₂, haccept₂, hcursor₂⟩ := hcursor.accept (str "=")
    rw [Lexed.operator, if_pos hnegative]
    cases hequal : headIs (str "=") ps with
    | true =>
      simp only [hequal, if_true, List.singleton_append] at haccept₂ hcursor₂
      have hscan : l.scanOperator = l₂.emitted .tokenNotEquals := by
        simp [Lexer.scanOperator, haccept, haccept₂]
      rw [hscan, if_pos rfl]
      exact hcursor₂.refines_recorded_emitted .tokenNotEquals
    | false =>
      simp only [hequal, Bool.false_eq_true, if_false, List.append_nil] at haccept₂ hcursor₂
      obtain ⟨l₃, haccept₃, hcursor₃⟩ := hcursor₂.accept (str "~")
      cases htilde : headIs (str "~") ps with
      | true =>
        simp only [htilde, if_true, List.singleton_append] at haccept₃ hcursor₃
        have hscan : l.scanOperator = l₃.emitted .tokenNotMatches := by
          simp [Lexer.scanOperator, haccept, haccept₂, haccept₃]
        rw [hscan, if_neg (by decide), if_pos rfl]
        exact hcursor₃.refines_recorded_emitted .tokenNotMatches
      | false =>
        rw [htilde] at haccept₃
        simp only [htilde, Bool.false_eq_true, if_false, List.append_nil] at hcursor₃
        have hscan : l.scanOperator =
            some (.error (.expected l₃.position l₃.input (str "=~")), l₃) := by
          simp [Lexer.scanOperator, haccept, haccept₂, haccept₃]
        rw [hscan, if_neg (by decide), if_neg (by decide)]
        exact hcursor₃.refines_recorded_error _
  · have hhead : headIs (str "!") (c :: ps) = false := by
      rw [← Bool.not_eq_true]
      exact fun hhead => hnegative (headIs_bang.mp hhead)
    simp only [hhead, Bool.false_eq_true, if_false, List.append_nil] at haccept hcursor
    obtain ⟨l₂, haccept₂, hcursor₂⟩ := hcursor.accept (str "=")
    have hequal : headIs (str "=") (c :: ps) = true :=
      headIs_equal.mpr (hc.resolve_right hnegative)
    simp only [hequal, if_true, List.nil_append, List.take_succ_cons, List.take_zero,
      List.drop_succ_cons, List.drop_zero] at haccept₂ hcursor₂
    obtain ⟨l₃, haccept₃, hcursor₃⟩ := hcursor₂.accept (str "~")
    rw [Lexed.operator, if_neg hnegative]
    cases htilde : headIs (str "~") ps with
    | true =>
      simp only [htilde, if_true, List.singleton_append] at haccept₃ hcursor₃
      have hscan : l.scanOperator = l₃.emitted .tokenMatches := by
        simp [Lexer.scanOperator, haccept, haccept₂, haccept₃]
      rw [hscan, if_pos rfl]
      exact hcursor₃.refines_recorded_emitted .tokenMatches
    | false =>
      simp only [htilde, Bool.false_eq_true, if_false, List.append_nil] at haccept₃ hcursor₃
      have hscan : l.scanOperator = l₃.emitted .tokenEquals := by
        simp [Lexer.scanOperator, haccept, haccept₂, haccept₃]
      rw [hscan, if_neg (by decide)]
      exact hcursor₃.refines_recorded_emitted .tokenEquals

/-- The text of a loop over quoted text ends at a quote or at the end of the input. -/
theorem untilQuote_rest (isEscaped : Bool) (ps : List GoString) :
    (Lexed.untilQuote isEscaped ps).2 = [] ∨
      ∃ d rest, (Lexed.untilQuote isEscaped ps).2 = d :: rest ∧ Utf8.pieceRune d = 34 := by
  fun_induction Lexed.untilQuote isEscaped ps with
  | case1 => exact Or.inl rfl
  | case2 c ps ih => exact ih
  | case3 c ps hbackslash ih => exact ih
  | case4 c ps hbackslash hquote => exact Or.inr ⟨c, ps, rfl, hquote⟩
  | case5 c ps hbackslash hquote ih => exact ih

theorem Cursor.scanQuoted (h : Cursor input [] (c :: ps) l) (hc : Utf8.pieceRune c = 34) :
    Refines input (recorded l.scanQuoted) (Lexed.quoted c ps) := by
  obtain ⟨l₁, hopened, hcursor⟩ := (h.expect (str "\"")).1
    ((headIs_cons_iff (by decide)).mpr hc)
  simp only [List.nil_append, List.take_succ_cons, List.take_zero, List.drop_succ_cons,
    List.drop_zero] at hcursor
  obtain ⟨l₂, hskip, hcursor₂⟩ := hcursor.skipQuoted false
    (Nat.lt_succ_of_le hcursor.length_rest_le)
  rw [Lexed.quoted]
  obtain hend | ⟨d, rest, hrest, hd⟩ := untilQuote_rest false ps
  · rw [hend] at hcursor₂ ⊢
    obtain ⟨err, l₃, hclosed, hcursor₃⟩ := (hcursor₂.expect (str "\"")).2 rfl
    simpa [Lexer.scanQuoted, hopened, hskip, hclosed] using hcursor₃.refines_recorded_error _
  · rw [hrest] at hcursor₂ ⊢
    obtain ⟨l₃, hclosed, hcursor₃⟩ := (hcursor₂.expect (str "\"")).1
      ((headIs_cons_iff (by decide)).mpr hd)
    simpa [Lexer.scanQuoted, hopened, hskip, hclosed] using
      hcursor₃.refines_recorded_emitted .tokenQuoted

theorem Cursor.scanUnquoted (h : Cursor input [] (c :: ps) l)
    (hc : isReserved (Utf8.pieceRune c) = false) :
    Refines input (recorded l.scanUnquoted)
      (.token .tokenUnquoted (c :: ps.takeWhile Lexed.plain) (ps.dropWhile Lexed.plain)) := by
  obtain ⟨l', hskip, hcursor⟩ := h.skipUnquoted (Nat.lt_succ_of_le h.length_rest_le)
  have hplain : Lexed.plain c = true := by simp [Lexed.plain, hc]
  rw [List.takeWhile_cons_of_pos hplain, List.dropWhile_cons_of_pos hplain] at hcursor
  rw [Lexer.scanUnquoted, hskip]
  exact hcursor.refines_recorded_emitted .tokenUnquoted

theorem Cursor.scanLoop {fuel : ℕ} (h : Cursor input [] ps l) (hfuel : ps.length < fuel) :
    Refines input (Lexer.scanLoop fuel l) (Lexed.first ps) := by
  induction fuel generalizing ps l with
  | zero => exact absurd hfuel (Nat.not_lt_zero _)
  | succ fuel ih =>
    cases ps with
    | nil =>
      obtain ⟨l', hnext, hread, -⟩ := h.next_nil
      exact ⟨l', by simp [Lexer.scanLoop, hnext], hread⟩
    | cons c ps =>
      obtain ⟨l', hnext, hread, hrewind⟩ := h.next_cons
      rw [List.nil_append] at hread
      simp only [Lexer.scanLoop, hnext, Option.bind_eq_bind, Option.bind_some, Lexed.first]
      refine refines_ite (fun _ => hread.refines_emitted _) fun _ => ?_
      refine refines_ite (fun _ => hread.refines_emitted _) fun _ => ?_
      refine refines_ite (fun _ => hread.refines_emitted _) fun _ => ?_
      refine refines_ite (fun hoperator => hrewind.scanOperator hoperator) fun _ => ?_
      refine refines_ite (fun hquote => hrewind.scanQuoted hquote) fun _ => ?_
      refine refines_ite (fun hplain => hrewind.scanUnquoted (by simpa using hplain))
        fun _ => ?_
      refine refines_ite (fun _ => ih hread.skip (Nat.lt_of_succ_lt_succ hfuel)) fun _ => ?_
      exact ⟨_, _, rfl, hread.input_eq, rfl⟩

/-- A scan returns the first token of the rest. -/
theorem Cursor.scan (h : Cursor input [] ps l) : Refines input l.scan (Lexed.first ps) := by
  rw [Lexer.scan, h.noErr]
  exact h.scanLoop (Nat.lt_succ_of_le h.length_rest_le)

/-! ### Streams of tokens -/

/-- The tokens that the lexer returns, one scan after the other, and the error that comes
after them, if it is not the end of the input. -/
inductive Yields : Lexer → List Token → Option LexError → Prop
  | eof {l l' : Lexer} (hscan : l.scan = some (.ok {}, l')) (hinput : l'.input = l.input)
      (hbefore : l.err = none) (hafter : l'.err = none) : Yields l [] none
  | error {l l' : Lexer} {err : LexError} (hscan : l.scan = some (.error err, l'))
      (hinput : l'.input = l.input) (hafter : l'.err = some err) : Yields l [] (some err)
  | token {l l' : Lexer} {t : Token} {ts : List Token} {fin : Option LexError}
      (hscan : l.scan = some (.ok t, l')) (hkind : t.kind ≠ .tokenEOF)
      (hinput : l'.input = l.input) (hbefore : l.err = none) (hafter : l'.err = none)
      (hrest : Yields l' ts fin) : Yields l (t :: ts) fin

/-- There is one stream of tokens. -/
theorem Yields.unique {ts ts' : List Token} {fin fin' : Option LexError} (h : Yields l ts fin)
    (h' : Yields l ts' fin') : ts = ts' ∧ fin = fin' := by
  induction h generalizing ts' with
  | eof hscan =>
    cases h' with
    | eof => exact ⟨rfl, rfl⟩
    | error hscan' => simp [hscan] at hscan'
    | token hscan' hkind =>
      simp only [hscan, Option.some.injEq, Prod.mk.injEq, Except.ok.injEq] at hscan'
      exact absurd (by rw [← hscan'.1]) hkind
  | error hscan =>
    cases h' with
    | eof hscan' => simp [hscan] at hscan'
    | error hscan' => simp_all
    | token hscan' hkind => simp [hscan] at hscan'
  | token hscan hkind hinput hbefore hafter hrest ih =>
    cases h' with
    | eof hscan' =>
      simp only [hscan, Option.some.injEq, Prod.mk.injEq, Except.ok.injEq] at hscan'
      exact absurd (by rw [hscan'.1]) hkind
    | error hscan' => simp [hscan] at hscan'
    | token hscan' hkind' hinput' hbefore' hafter' hrest' =>
      simp only [hscan, Option.some.injEq, Prod.mk.injEq, Except.ok.injEq] at hscan'
      obtain ⟨rfl, rfl⟩ := hscan'
      obtain ⟨rfl, rfl⟩ := ih hrest'
      exact ⟨rfl, rfl⟩

theorem kind_operator_ne_eof {k : TokenKind} {rest : List GoString}
    (h : Lexed.operator c ps = .token k us rest) :
    k ≠ .tokenEOF ∧ rest.length ≤ ps.length := by
  unfold Lexed.operator at h
  split_ifs at h <;> cases h <;> simp

theorem length_untilQuote_le (isEscaped : Bool) (ps : List GoString) :
    (Lexed.untilQuote isEscaped ps).2.length ≤ ps.length := by
  fun_induction Lexed.untilQuote isEscaped ps with
  | case1 => exact le_rfl
  | case2 c ps ih => exact ih.trans (Nat.le_succ _)
  | case3 c ps hbackslash ih => exact ih.trans (Nat.le_succ _)
  | case4 c ps hbackslash hquote => exact le_rfl
  | case5 c ps hbackslash hquote ih => exact ih.trans (Nat.le_succ _)

theorem kind_quoted_ne_eof {k : TokenKind} {rest : List GoString}
    (h : Lexed.quoted c ps = .token k us rest) : k ≠ .tokenEOF ∧ rest.length ≤ ps.length := by
  have hle := length_untilQuote_le false ps
  unfold Lexed.quoted at h
  split at h
  · cases h
  · rename_i d rest' hrest
    rw [hrest, List.length_cons] at hle
    obtain ⟨rfl, -, rfl⟩ := Lexed.token.inj h
    exact ⟨by simp, by omega⟩

theorem first_cases {k : TokenKind} {rest : List GoString}
    (h : Lexed.first (c :: ps) = .token k us rest) :
    (k = .tokenOpenBrace ∨ k = .tokenCloseBrace ∨ k = .tokenComma) ∧ us = [c] ∧ rest = ps ∨
      Lexed.operator c ps = .token k us rest ∨ Lexed.quoted c ps = .token k us rest ∨
      Lexed.plain c = true ∧ k = .tokenUnquoted ∧ us = c :: ps.takeWhile Lexed.plain ∧
        rest = ps.dropWhile Lexed.plain ∨
      isSpace (Utf8.pieceRune c) = true ∧ Lexed.first ps = .token k us rest := by
  simp only [Lexed.first] at h
  by_cases hopen : Utf8.pieceRune c = 123
  · rw [if_pos hopen] at h
    obtain ⟨rfl, rfl, rfl⟩ := Lexed.token.inj h
    exact Or.inl ⟨Or.inl rfl, rfl, rfl⟩
  rw [if_neg hopen] at h
  by_cases hclose : Utf8.pieceRune c = 125
  · rw [if_pos hclose] at h
    obtain ⟨rfl, rfl, rfl⟩ := Lexed.token.inj h
    exact Or.inl ⟨Or.inr (Or.inl rfl), rfl, rfl⟩
  rw [if_neg hclose] at h
  by_cases hcomma : Utf8.pieceRune c = 44
  · rw [if_pos hcomma] at h
    obtain ⟨rfl, rfl, rfl⟩ := Lexed.token.inj h
    exact Or.inl ⟨Or.inr (Or.inr rfl), rfl, rfl⟩
  rw [if_neg hcomma] at h
  by_cases hoperator : Utf8.pieceRune c = 61 ∨ Utf8.pieceRune c = 33
  · rw [if_pos hoperator] at h
    exact Or.inr (Or.inl h)
  rw [if_neg hoperator] at h
  by_cases hquote : Utf8.pieceRune c = 34
  · rw [if_pos hquote] at h
    exact Or.inr (Or.inr (Or.inl h))
  rw [if_neg hquote] at h
  by_cases hplain : (!isReserved (Utf8.pieceRune c)) = true
  · rw [if_pos hplain] at h
    obtain ⟨rfl, rfl, rfl⟩ := Lexed.token.inj h
    exact Or.inr (Or.inr (Or.inr (Or.inl ⟨hplain, rfl, rfl, rfl⟩)))
  rw [if_neg hplain] at h
  by_cases hspace : isSpace (Utf8.pieceRune c) = true
  · rw [if_pos hspace] at h
    exact Or.inr (Or.inr (Or.inr (Or.inr ⟨hspace, h⟩)))
  · rw [if_neg hspace] at h
    cases h

/-- A token takes at least one rune. -/
theorem length_rest_lt {k : TokenKind} {rest : List GoString}
    (h : Lexed.first ps = .token k us rest) : k ≠ .tokenEOF ∧ rest.length < ps.length := by
  induction ps with
  | nil => cases h
  | cons c ps ih =>
    obtain ⟨hkind, -, rfl⟩ | hoperator | hquoted | ⟨-, rfl, -, rfl⟩ | ⟨-, hfirst⟩ :=
      first_cases h
    · exact ⟨by rcases hkind with rfl | rfl | rfl <;> simp, Nat.lt_succ_self _⟩
    · obtain ⟨hkind, hle⟩ := kind_operator_ne_eof hoperator
      exact ⟨hkind, Nat.lt_succ_of_le hle⟩
    · obtain ⟨hkind, hle⟩ := kind_quoted_ne_eof hquoted
      exact ⟨hkind, Nat.lt_succ_of_le hle⟩
    · exact ⟨by simp, Nat.lt_succ_of_le ((List.dropWhile_suffix Lexed.plain).length_le)⟩
    · obtain ⟨hkind, hlt⟩ := ih hfirst
      exact ⟨hkind, hlt.trans (Nat.lt_succ_self _)⟩

/-- The tokens of an input are found with as many scans as it has runes, and one more. -/
theorem Cursor.exists_yields (h : Cursor input [] ps l) :
    ∃ ts fin, Yields l ts fin ∧ ts.length ≤ ps.length := by
  induction hn : ps.length using Nat.strong_induction_on generalizing ps l with
  | _ n ih =>
    have hscan := h.scan
    cases hfirst : Lexed.first ps with
    | eof =>
      rw [hfirst] at hscan
      obtain ⟨l', hl', hcursor⟩ := hscan
      exact ⟨[], none, .eof hl' (hcursor.input_eq.trans h.input_eq.symm) h.noErr
        hcursor.noErr, by simp⟩
    | error =>
      rw [hfirst] at hscan
      obtain ⟨err, l', hl', hinput, herr⟩ := hscan
      exact ⟨[], some err, .error hl' (hinput.trans h.input_eq.symm) herr, by simp⟩
    | token k us rest =>
      rw [hfirst] at hscan
      obtain ⟨t, l', hl', rfl, -, -, hcursor⟩ := hscan
      obtain ⟨hkind, hlt⟩ := length_rest_lt hfirst
      obtain ⟨ts, fin, hyields, hlength⟩ := ih rest.length (by omega) hcursor rfl
      exact ⟨t :: ts, fin, .token hl' hkind (hcursor.input_eq.trans h.input_eq.symm) h.noErr
        hcursor.noErr hyields, by simp only [List.length_cons]; omega⟩

/-- The tokens, unless there is an error after them. -/
def outcome (ts : List Token) : Option LexError → Except LexError (List Token)
  | none => .ok ts
  | some err => .error err

theorem Yields.tokens {ts : List Token} {fin : Option LexError} (h : Yields l ts fin)
    {fuel : ℕ} (hfuel : ts.length < fuel) : Lexer.tokens fuel l = some (outcome ts fin) := by
  induction h generalizing fuel with
  | eof hscan hinput hbefore hafter =>
    obtain ⟨fuel, rfl⟩ := Nat.exists_eq_add_one_of_ne_zero (Nat.ne_of_gt hfuel)
    simp [Lexer.tokens, hscan, outcome]
  | error hscan hinput hafter =>
    obtain ⟨fuel, rfl⟩ := Nat.exists_eq_add_one_of_ne_zero (Nat.ne_of_gt hfuel)
    simp [Lexer.tokens, hscan, outcome]
  | @token l l' t ts fin hscan hkind hinput hbefore hafter hrest ih =>
    obtain ⟨fuel, rfl⟩ := Nat.exists_eq_add_one_of_ne_zero (Nat.ne_zero_of_lt hfuel)
    have htokens := ih (Nat.lt_of_succ_lt_succ hfuel)
    cases fin <;> simp [Lexer.tokens, hscan, hkind, htokens, outcome, Except.map]

theorem cursor_start (input : GoString) :
    Cursor input [] (Utf8.runes input) { input } :=
  ⟨rfl, rfl, [], rfl, rfl, rfl, rfl, rfl⟩

/-- Scanning an input ends, with its tokens or with an error. -/
theorem exists_yields_start (input : GoString) : ∃ ts fin, Yields { input } ts fin ∧
    ts.length ≤ input.length ∧ lex input = some (outcome ts fin) := by
  obtain ⟨ts, fin, hyields, hle⟩ := (cursor_start input).exists_yields
  have hlength := hle.trans (Utf8.length_runes_le input)
  exact ⟨ts, fin, hyields, hlength, hyields.tokens (Nat.lt_succ_of_le hlength)⟩

end Lexer

end Alertmanager
