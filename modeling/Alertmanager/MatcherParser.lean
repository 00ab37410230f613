import Alertmanager.MatcherLexer

/-!
# The parser of the matcher syntax

`parse.Matchers` of `matcher/parse/parse.go`. The parser is a state machine over a lexer
that it peeks into before it takes a token. Its panics, and a loop that runs out of fuel,
are an outcome of their own here, which is shown not to occur: the parser returns the
matchers of exactly those inputs whose tokens are a sentence of the grammar.
-/
namespace Alertmanager

/-- The errors of the parser. -/
inductive ParseError
  | lexer (err : LexError)
  | eof
  | unexpected (t : Token)
  | noCloseBrace (columnEnd : ℤ) (err : ParseError)
  | noOpenBrace (columnEnd : ℤ)
  | noLabelName (err : ParseError)
  | noOperator (err : ParseError)
  | noLabelValue (err : ParseError)
  | invalidInput (t : Token)
  | failedToCreate (pattern : GoString)
  | expectedComma (err : ParseError)
  | expectedCommaOrCloseBrace (err : ParseError)
  | expectedMatcherOrCloseBrace (err : ParseError)
  | expectedEOF (err : ParseError)
  | trailing (t : Token)
  | parserPanic

/-- The texts of the errors, with that of `regexp.Compile` for a pattern. -/
def ParseError.text (compileError : GoString → GoString) : ParseError → GoString
  | lexer err => err.text
  | eof => str "end of input"
  | unexpected t => t.position.columns ++ str "unexpected " ++ t.value
  | noCloseBrace columnEnd err => str "0:" ++ str (toString columnEnd) ++ str ": " ++
      err.text compileError ++ str ": expected close brace"
  | noOpenBrace columnEnd => str "0:" ++ str (toString columnEnd) ++
      str ": \x7d: expected opening brace"
  | noLabelName err => err.text compileError ++ str ": expected label name"
  | noOperator err => err.text compileError ++
      str ": expected an operator such as '=', '!=', '=~' or '!~'"
  | noLabelValue err => err.text compileError ++ str ": expected label value"
  | invalidInput t => t.position.columns ++ t.value ++ str ": invalid input"
  | failedToCreate pattern => str "failed to create matcher: " ++ compileError pattern
  | expectedComma err => err.text compileError ++ str ": expected a comma"
  | expectedCommaOrCloseBrace err => err.text compileError ++
      str ": expected a comma or close brace"
  | expectedMatcherOrCloseBrace err => err.text compileError ++
      str ": expected a matcher or close brace after comma"
  | expectedEOF err => err.text compileError ++ str ": expected end of input"
  | trailing t => t.position.columns ++ t.value ++ str ": expected end of input"
  | parserPanic =>
    str "parser panic: this should never happen, check stderr for the stack trace"

namespace Lexer

/-- `parser.acceptPeek`. -/
def acceptPeek (l : Lexer) (kinds : List TokenKind) : Option (Except ParseError Bool × Lexer) := do
  let (t, l) ← l.peek
  match t with
  | .error err => return (.error (.lexer err), l)
  | .ok t =>
    if t.kind = .tokenEOF then return (.error .eof, l) else return (.ok (t.isOneOf kinds), l)

/-- A scan of a token that was peeked at, which panics if it fails. -/
def scanPeeked (l : Lexer) : Option Lexer := do
  let (t, l) ← l.scan
  match t with
  | .error _ => none
  | .ok _ => return l

/-- `parser.accept`. -/
def acceptToken (l : Lexer) (kinds : List TokenKind) :
    Option (Except ParseError Bool × Lexer) := do
  let (ok, l) ← l.acceptPeek kinds
  match ok with
  | .ok true => return (ok, ← l.scanPeeked)
  | _ => return (ok, l)

/-- `parser.expectPeek`. -/
def expectPeek (l : Lexer) (kinds : List TokenKind) :
    Option (Except ParseError Token × Lexer) := do
  let (t, l) ← l.peek
  match t with
  | .error err => return (.error (.lexer err), l)
  | .ok t =>
    if t.kind = .tokenEOF then return (.error .eof, l)
    else if !t.isOneOf kinds then return (.error (.unexpected t), l)
    else return (.ok t, l)

/-- `parser.expect`. -/
def expectToken (l : Lexer) (kinds : List TokenKind) :
    Option (Except ParseError Token × Lexer) := do
  let (t, l) ← l.expectPeek kinds
  match t with
  | .error _ => return (t, l)
  | .ok _ => return (t, ← l.scanPeeked)

end Lexer

section
variable [Regexp]

structure Parser where
  matchers : Matchers := []
  hasOpenBrace : Bool := false
  lexer : Lexer

/-- The states of the parser. -/
inductive ParseFunc
  | parseOpenBrace
  | parseCloseBrace
  | parseMatcher
  | parseEndOfMatcher
  | parseComma
  | parseEOF
  deriving DecidableEq

namespace Parser

/-- What a state returns: the next state or an error, nothing if it panics. -/
abbrev Step := Option (Except ParseError (Option ParseFunc) × Parser)

def parseOpenBrace (p : Parser) : Step := do
  let (accepted, l) ← p.lexer.acceptToken [.tokenOpenBrace]
  match accepted with
  | .error .eof => return (.ok (some .parseEOF), { p with hasOpenBrace := false, lexer := l })
  | .error err => return (.error err, { p with hasOpenBrace := false, lexer := l })
  | .ok hasOpenBrace =>
    let p := { p with hasOpenBrace, lexer := l }
    let (hasCloseBrace, l) ← p.lexer.acceptPeek [.tokenCloseBrace]
    let p := { p with lexer := l }
    match hasCloseBrace with
    | .error .eof => return (.ok (some .parseCloseBrace), p)
    | .error err => return (.error err, p)
    | .ok true => return (.ok (some .parseCloseBrace), p)
    | .ok false => return (.ok (some .parseMatcher), p)

def parseCloseBrace (p : Parser) : Step := do
  let (t, l) ← p.lexer.expectToken [.tokenCloseBrace]
  let p := { p with lexer := l }
  if p.hasOpenBrace then
    match t with
    | .error err => return (.error (.noCloseBrace l.position.columnEnd err), p)
    | .ok _ => return (.ok (some .parseEOF), p)
  else
    match t with
    | .error _ => return (.ok (some .parseEOF), p)
    | .ok _ => return (.error (.noOpenBrace l.position.columnEnd), p)

/-- The operator of a token. -/
def matchType : TokenKind → Option MatchType
  | .tokenEquals => some .equal
  | .tokenNotEquals => some .notEqual
  | .tokenMatches => some .regexp
  | .tokenNotMatches => some .notRegexp
  | _ => none

def parseMatcher (p : Parser) : Step := do
  let (name, l) ← p.lexer.expectToken [.tokenQuoted, .tokenUnquoted]
  match name with
  | .error err => return (.error (.noLabelName err), { p with lexer := l })
  | .ok name =>
    match name.unquote with
    | none => return (.error (.invalidInput name), { p with lexer := l })
    | some matchName =>
      let (op, l) ← l.expectToken [.tokenEquals, .tokenNotEquals, .tokenMatches, .tokenNotMatches]
      match op with
      | .error err => return (.error (.noOperator err), { p with lexer := l })
      | .ok op =>
        let matchTy ← matchType op.kind
        let (value, l) ← l.expectToken [.tokenUnquoted, .tokenQuoted]
        match value with
        | .error err => return (.error (.noLabelValue err), { p with lexer := l })
        | .ok value =>
          match value.unquote with
          | none => return (.error (.invalidInput value), { p with lexer := l })
          | some matchValue =>
            match newMatcher matchTy matchName matchValue with
            | none => return (.error (.failedToCreate matchValue), { p with lexer := l })
            | some m =>
              return (.ok (some .parseEndOfMatcher),
                { p with matchers := p.matchers ++ [m], lexer := l })

def parseEndOfMatcher (p : Parser) : Step := do
  let (t, l) ← p.lexer.expectPeek [.tokenComma, .tokenCloseBrace]
  let p := { p with lexer := l }
  match t with
  | .error .eof => return (.ok (some .parseCloseBrace), p)
  | .error err => return (.error (.expectedCommaOrCloseBrace err), p)
  | .ok t =>
    match t.kind with
    | .tokenComma => return (.ok (some .parseComma), p)
    | .tokenCloseBrace => return (.ok (some .parseCloseBrace), p)
    | _ => none

def parseComma (p : Parser) : Step := do
  let (comma, l) ← p.lexer.expectToken [.tokenComma]
  match comma with
  | .error err => return (.error (.expectedComma err), { p with lexer := l })
  | .ok _ =>
    let (t, l) ← l.expectPeek [.tokenCloseBrace, .tokenUnquoted, .tokenQuoted]
    let p := { p with lexer := l }
    match t with
    | .error .eof => return (.ok (some .parseCloseBrace), p)
    | .error err => return (.error (.expectedMatcherOrCloseBrace err), p)
    | .ok t =>
      if t.kind = .tokenCloseBrace then return (.ok (some .parseCloseBrace), p)
      else return (.ok (some .parseMatcher), p)

def parseEOF (p : Parser) : Step := do
  let (t, l) ← p.lexer.scan
  let p := { p with lexer := l }
  match t with
  | .error err => return (.error (.expectedEOF (.lexer err)), p)
  | .ok t => if t.kind ≠ .tokenEOF then return (.error (.trailing t), p) else return (.ok none, p)

/-- A step of the state machine. -/
def step (p : Parser) : ParseFunc → Step
  | .parseOpenBrace => p.parseOpenBrace
  | .parseCloseBrace => p.parseCloseBrace
  | .parseMatcher => p.parseMatcher
  | .parseEndOfMatcher => p.parseEndOfMatcher
  | .parseComma => p.parseComma
  | .parseEOF => p.parseEOF

/-- The loop of `parser.parse`. -/
def parse : ℕ → ParseFunc → Parser → Option (Except ParseError Matchers)
  | 0, _, _ => none
  | fuel + 1, fn, p => do
      let (next, p) ← p.step fn
      match next with
      | .error err => return .error err
      | .ok none => return .ok p.matchers
      | .ok (some fn) => parse fuel fn p

end Parser

namespace Parse

/-- `parser.parse` of an input, nothing if it panics. -/
def run (input : GoString) : Option (Except ParseError Matchers) :=
  Parser.parse (input.length + 6) .parseOpenBrace { lexer := { input } }

/-- `parse.Matchers`, which recovers from panics. -/
def matchers (input : GoString) : Except ParseError Matchers :=
  (run input).getD (.error .parserPanic)

end Parse

/-! ### The grammar -/

/-- A name or a value. -/
def Token.IsText (t : Token) : Prop := t.kind = .tokenQuoted ∨ t.kind = .tokenUnquoted

/-- A name, an operator and a value that make a matcher, whose expression compiles as that
of every matcher does. -/
structure Triple (n o v : Token) (m : Matcher) : Prop where
  isName : n.IsText
  isValue : v.IsText
  name : n.unquote = some m.name
  operator : Parser.matchType o.kind = some m.type
  value : v.unquote = some m.value

theorem Triple.unique {n o v : Token} {m m' : Matcher} (h : Triple n o v m)
    (h' : Triple n o v m') : m = m' :=
  Matcher.ext_fields (Option.some.inj (h.operator.symm.trans h'.operator))
    (Option.some.inj (h.name.symm.trans h'.name)) (Option.some.inj (h.value.symm.trans h'.value))

/-- Triples between commas, with an optional comma at the end. -/
inductive Triples : List Token → Matchers → Prop
  | one {n o v : Token} {m : Matcher} (h : Triple n o v m) : Triples [n, o, v] [m]
  | last {n o v c : Token} {m : Matcher} (h : Triple n o v m) (hc : c.kind = .tokenComma) :
      Triples [n, o, v, c] [m]
  | cons {n o v c : Token} {m : Matcher} {ts : List Token} {ms : Matchers} (h : Triple n o v m)
      (hc : c.kind = .tokenComma) (hts : Triples ts ms) : Triples (n :: o :: v :: c :: ts) (m :: ms)

/-- The inputs of the parser: nothing, triples, or braces with triples or nothing between
them. -/
inductive Sentence : List Token → Matchers → Prop
  | empty : Sentence [] []
  | bare {ts : List Token} {ms : Matchers} (h : Triples ts ms) : Sentence ts ms
  | braces {o c : Token} (ho : o.kind = .tokenOpenBrace) (hc : c.kind = .tokenCloseBrace) :
      Sentence [o, c] []
  | braced {o c : Token} {ts : List Token} {ms : Matchers} (ho : o.kind = .tokenOpenBrace)
      (h : Triples ts ms) (hc : c.kind = .tokenCloseBrace) : Sentence (o :: ts ++ [c]) ms

theorem Triples.exists_triple {ts : List Token} {ms : Matchers} (h : Triples ts ms) {m : Matcher}
    (hm : m ∈ ms) : ∃ n o v, n ∈ ts ∧ Triple n o v m := by
  induction h with
  | one htriple =>
    obtain rfl := List.mem_singleton.mp hm
    exact ⟨_, _, _, List.mem_cons_self, htriple⟩
  | last htriple hc =>
    obtain rfl := List.mem_singleton.mp hm
    exact ⟨_, _, _, List.mem_cons_self, htriple⟩
  | cons htriple hc hts ih =>
    obtain rfl | hm := List.mem_cons.mp hm
    · exact ⟨_, _, _, List.mem_cons_self, htriple⟩
    · obtain ⟨n, o, v, hn, htriple'⟩ := ih hm
      exact ⟨n, o, v, by simp [hn], htriple'⟩

theorem Sentence.exists_triple {ts : List Token} {ms : Matchers} (h : Sentence ts ms)
    {m : Matcher} (hm : m ∈ ms) : ∃ n o v, n ∈ ts ∧ Triple n o v m := by
  cases h with
  | empty => cases hm
  | bare h => exact h.exists_triple hm
  | braces ho hc => cases hm
  | braced ho h hc =>
    obtain ⟨n, o, v, hn, htriple⟩ := h.exists_triple hm
    exact ⟨n, o, v, by simp [hn], htriple⟩

end

/-! ### Tokens under the parser -/

namespace Lexer

variable {l : Lexer} {t : Token} {ts : List Token} {fin : Option LexError}

/-- A token can be peeked at, and then be scanned. -/
theorem Yields.peek_cons (h : Yields l (t :: ts) fin) : l.peek = some (.ok t, l) ∧
    t.kind ≠ .tokenEOF ∧ ∃ l', l.scanPeeked = some l' ∧ Yields l' ts fin := by
  cases h with
  | @token _ l' _ _ _ hscan hkind hinput hbefore hafter hrest =>
    refine ⟨?_, hkind, l', by simp [scanPeeked, hscan], hrest⟩
    simp only [peek, hscan, Option.bind_eq_bind, Option.bind_some, Option.pure_def, hafter,
      ← hbefore]

theorem Yields.peek_eof (h : Yields l [] none) : l.peek = some (.ok {}, l) ∧
    ∃ l', l.scan = some (.ok {}, l') := by
  cases h with
  | @eof _ l' hscan hinput hbefore hafter =>
    refine ⟨?_, l', hscan⟩
    simp only [peek, hscan, Option.bind_eq_bind, Option.bind_some, Option.pure_def, hafter,
      ← hbefore]

/-- An error that was peeked at is there to stay. -/
theorem Yields.peek_error {err : LexError} (h : Yields l [] (some err)) :
    (∃ l', l.peek = some (.error err, l') ∧ Yields l' [] (some err)) ∧
      ∃ l', l.scan = some (.error err, l') := by
  cases h with
  | @error _ l' _ hscan hinput hafter =>
    refine ⟨⟨{ l with err := some err }, ?_, .error rfl rfl rfl⟩, l', hscan⟩
    simp only [peek, hscan, Option.bind_eq_bind, Option.bind_some, Option.pure_def, hafter]

theorem Yields.expectPeek_cons (h : Yields l (t :: ts) fin) (kinds : List TokenKind) :
    l.expectPeek kinds =
      some (if t.isOneOf kinds then .ok t else .error (.unexpected t), l) := by
  obtain ⟨hpeek, hkind, -⟩ := h.peek_cons
  cases hone : t.isOneOf kinds <;> simp [expectPeek, hpeek, hkind, hone]

theorem Yields.expectToken_cons (h : Yields l (t :: ts) fin) (kinds : List TokenKind)
    (hone : t.isOneOf kinds = true) :
    ∃ l', l.expectToken kinds = some (.ok t, l') ∧ Yields l' ts fin := by
  obtain ⟨-, -, l', hscan, hrest⟩ := h.peek_cons
  exact ⟨l', by simp [expectToken, h.expectPeek_cons, hone, hscan], hrest⟩

theorem Yields.expectToken_unexpected (h : Yields l (t :: ts) fin) {kinds : List TokenKind}
    (hone : t.isOneOf kinds = false) :
    l.expectToken kinds = some (.error (.unexpected t), l) := by
  simp [expectToken, h.expectPeek_cons, hone]

theorem Yields.expectPeek_eof (h : Yields l [] none) (kinds : List TokenKind) :
    l.expectPeek kinds = some (.error .eof, l) := by
  simp [expectPeek, h.peek_eof.1]

theorem Yields.expectToken_eof (h : Yields l [] none) (kinds : List TokenKind) :
    l.expectToken kinds = some (.error .eof, l) := by
  simp [expectToken, h.expectPeek_eof]

theorem Yields.expectPeek_error {err : LexError} (h : Yields l [] (some err))
    (kinds : List TokenKind) : ∃ l', l.expectPeek kinds = some (.error (.lexer err), l') ∧
      Yields l' [] (some err) := by
  obtain ⟨⟨l', hpeek, hyields⟩, -⟩ := h.peek_error
  exact ⟨l', by simp [expectPeek, hpeek], hyields⟩

theorem Yields.expectToken_error {err : LexError} (h : Yields l [] (some err))
    (kinds : List TokenKind) : ∃ l', l.expectToken kinds = some (.error (.lexer err), l') ∧
      Yields l' [] (some err) := by
  obtain ⟨l', hexpect, hyields⟩ := h.expectPeek_error kinds
  exact ⟨l', by simp [expectToken, hexpect], hyields⟩

theorem Yields.acceptPeek_cons (h : Yields l (t :: ts) fin) (kinds : List TokenKind) :
    l.acceptPeek kinds = some (.ok (t.isOneOf kinds), l) := by
  obtain ⟨hpeek, hkind, -⟩ := h.peek_cons
  simp [acceptPeek, hpeek, hkind]

theorem Yields.acceptPeek_eof (h : Yields l [] none) (kinds : List TokenKind) :
    l.acceptPeek kinds = some (.error .eof, l) := by
  simp [acceptPeek, h.peek_eof.1]

theorem Yields.acceptPeek_error {err : LexError} (h : Yields l [] (some err))
    (kinds : List TokenKind) : ∃ l', l.acceptPeek kinds = some (.error (.lexer err), l') := by
  obtain ⟨⟨l', hpeek, -⟩, -⟩ := h.peek_error
  exact ⟨l', by simp [acceptPeek, hpeek]⟩

theorem Yields.expectToken_cases (h : Yields l ts fin) (kinds : List TokenKind) :
    (∃ t ts' l', ts = t :: ts' ∧ t.isOneOf kinds = true ∧
      l.expectToken kinds = some (.ok t, l') ∧ Yields l' ts' fin) ∨
    (∀ t ts', ts = t :: ts' → t.isOneOf kinds = false) ∧
      ∃ err l', l.expectToken kinds = some (.error err, l') ∧ Yields l' ts fin := by
  cases ts with
  | nil =>
    refine Or.inr ⟨fun t ts' h => (by cases h), ?_⟩
    cases fin with
    | none => exact ⟨_, _, h.expectToken_eof kinds, h⟩
    | some err =>
      obtain ⟨l', hexpect, hyields⟩ := h.expectToken_error kinds
      exact ⟨_, l', hexpect, hyields⟩
  | cons t ts =>
    cases hone : t.isOneOf kinds with
    | true =>
      obtain ⟨l', hexpect, hrest⟩ := h.expectToken_cons kinds hone
      exact Or.inl ⟨t, ts, l', rfl, hone, hexpect, hrest⟩
    | false =>
      refine Or.inr ⟨fun u us heq => ?_, _, _, h.expectToken_unexpected hone, h⟩
      obtain ⟨rfl, -⟩ := List.cons.inj heq
      exact hone

theorem Yields.expectPeek_cases (h : Yields l ts fin) (kinds : List TokenKind) :
    (∃ t ts', ts = t :: ts' ∧ t.isOneOf kinds = true ∧ l.expectPeek kinds = some (.ok t, l)) ∨
    (ts = [] ∧ fin = none ∧ l.expectPeek kinds = some (.error .eof, l)) ∨
    (¬(ts = [] ∧ fin = none) ∧ (∀ t ts', ts = t :: ts' → t.isOneOf kinds = false) ∧
      ∃ err l', err ≠ .eof ∧ l.expectPeek kinds = some (.error err, l')) := by
  cases ts with
  | nil =>
    cases fin with
    | none => exact Or.inr (Or.inl ⟨rfl, rfl, h.expectPeek_eof kinds⟩)
    | some err =>
      obtain ⟨l', hexpect, -⟩ := h.expectPeek_error kinds
      exact Or.inr (Or.inr ⟨by simp, fun t ts' h => (by cases h), _, l', by simp, hexpect⟩)
  | cons t ts =>
    have hexpect := h.expectPeek_cons kinds
    cases hone : t.isOneOf kinds with
    | true => exact Or.inl ⟨t, ts, rfl, hone, by rw [hexpect, hone, if_pos rfl]⟩
    | false =>
      rw [hone, if_neg (by simp)] at hexpect
      refine Or.inr (Or.inr ⟨by simp, fun u us heq => ?_, _, _, by simp, hexpect⟩)
      obtain ⟨rfl, -⟩ := List.cons.inj heq
      exact hone

end Lexer

/-! ### The states -/

theorem isText_iff_name {t : Token} :
    t.IsText ↔ t.isOneOf [.tokenQuoted, .tokenUnquoted] = true := by
  simp [Token.IsText, Token.isOneOf]

theorem isText_iff_value {t : Token} :
    t.IsText ↔ t.isOneOf [.tokenUnquoted, .tokenQuoted] = true := by
  simp [Token.IsText, Token.isOneOf, or_comm]

theorem exists_matchType_iff {t : Token} : (∃ ty, Parser.matchType t.kind = some ty) ↔
    t.isOneOf [.tokenEquals, .tokenNotEquals, .tokenMatches, .tokenNotMatches] = true := by
  cases hkind : t.kind <;> simp [Parser.matchType, Token.isOneOf, hkind]

/-- What closes the input: a close brace exactly if there was an open one. -/
def Closing (hasOpenBrace : Bool) (ts : List Token) : Prop :=
  if hasOpenBrace then ∃ c, ts = [c] ∧ c.kind = .tokenCloseBrace else ts = []

theorem closing_cons {b : Bool} {c : Token} {ts : List Token} (h : Closing b (c :: ts)) :
    c.kind = .tokenCloseBrace := by
  cases b with
  | true =>
    obtain ⟨d, heq, hd⟩ := h
    obtain ⟨rfl, -⟩ := List.cons.inj heq
    exact hd
  | false => cases h

section
variable [Regexp]

/-- The parser ends with a result, and with matchers exactly as said. -/
def Returns (r : Option (Except ParseError Matchers)) (S : Matchers → Prop) : Prop :=
  ∃ res, r = some res ∧ ∀ ms, res = .ok ms ↔ S ms

theorem Returns.error {S : Matchers → Prop} (err : ParseError) (h : ∀ ms, ¬S ms) :
    Returns (some (.error err)) S :=
  ⟨.error err, rfl, fun ms => iff_of_false (by simp) (h ms)⟩

theorem Returns.congr {r : Option (Except ParseError Matchers)} {S S' : Matchers → Prop}
    (h : Returns r S) (hS : ∀ ms, S ms ↔ S' ms) : Returns r S' := by
  obtain ⟨res, hres, hiff⟩ := h
  exact ⟨res, hres, fun ms => (hiff ms).trans (hS ms)⟩

namespace Parser

variable {p p' : Parser} {ts : List Token} {fin : Option LexError} {fn fn' : ParseFunc}
  {err : ParseError}

theorem parse_of_next (h : p.step fn = some (.ok (some fn'), p')) (fuel : ℕ) :
    parse (fuel + 1) fn p = parse fuel fn' p' := by
  simp [parse, h]

theorem parse_of_error (h : p.step fn = some (.error err, p')) (fuel : ℕ) :
    parse (fuel + 1) fn p = some (.error err) := by
  simp [parse, h]

theorem parse_of_done (h : p.step fn = some (.ok none, p')) (fuel : ℕ) :
    parse (fuel + 1) fn p = some (.ok p'.matchers) := by
  simp [parse, h]

theorem returns_parseEOF (h : p.lexer.Yields ts fin) (fuel : ℕ) :
    Returns (parse (fuel + 1) .parseEOF p)
      fun ms => ts = [] ∧ fin = none ∧ ms = p.matchers := by
  cases ts with
  | nil =>
    cases fin with
    | none =>
      obtain ⟨l', hscan⟩ := h.peek_eof.2
      have hstep : p.step .parseEOF = some (.ok none, { p with lexer := l' }) := by
        simp [step, parseEOF, hscan]
      rw [parse_of_done hstep]
      exact ⟨_, rfl, fun ms => by simp [eq_comm]⟩
    | some err =>
      obtain ⟨l', hscan⟩ := h.peek_error.2
      have hstep : p.step .parseEOF =
          some (.error (.expectedEOF (.lexer err)), { p with lexer := l' }) := by
        simp [step, parseEOF, hscan]
      rw [parse_of_error hstep]
      exact .error _ (by simp)
  | cons t ts =>
    cases h with
    | @token _ l' _ _ _ hscan hkind hinput hbefore hafter hrest =>
      have hstep : p.step .parseEOF = some (.error (.trailing t), { p with lexer := l' }) := by
        simp [step, parseEOF, hscan, hkind]
      rw [parse_of_error hstep]
      exact .error _ (by simp)

theorem returns_parseCloseBrace (h : p.lexer.Yields ts fin) (fuel : ℕ) :
    Returns (parse (fuel + 2) .parseCloseBrace p)
      fun ms => Closing p.hasOpenBrace ts ∧ fin = none ∧ ms = p.matchers := by
  obtain ⟨t, ts, l', rfl, hone, hexpect, hrest⟩ | ⟨hnone, err, l', hexpect, hrest⟩ :=
    h.expectToken_cases [.tokenCloseBrace]
  · have hkind : t.kind = .tokenCloseBrace := by simpa [Token.isOneOf] using hone
    cases hbrace : p.hasOpenBrace with
    | true =>
      have hstep : p.step .parseCloseBrace =
          some (.ok (some .parseEOF), { p with lexer := l' }) := by
        simp [step, parseCloseBrace, hexpect, hbrace]
      rw [parse_of_next hstep]
      refine (returns_parseEOF (p := { p with lexer := l' }) hrest fuel).congr fun ms => ?_
      simp [Closing, hkind]
    | false =>
      have hstep : p.step .parseCloseBrace = some
          (.error (.noOpenBrace l'.position.columnEnd), { p with lexer := l' }) := by
        simp [step, parseCloseBrace, hexpect, hbrace]
      rw [parse_of_error hstep]
      exact .error _ (by simp [Closing])
  · cases hbrace : p.hasOpenBrace with
    | true =>
      have hstep : p.step .parseCloseBrace = some
          (.error (.noCloseBrace l'.position.columnEnd err), { p with lexer := l' }) := by
        simp [step, parseCloseBrace, hexpect, hbrace]
      rw [parse_of_error hstep]
      refine .error _ ?_
      rintro ms ⟨⟨c, rfl, hc⟩, -⟩
      simpa [Token.isOneOf, hc] using hnone c [] rfl
    | false =>
      have hstep : p.step .parseCloseBrace =
          some (.ok (some .parseEOF), { p with lexer := l' }) := by
        simp [step, parseCloseBrace, hexpect, hbrace]
      rw [parse_of_next hstep]
      refine (returns_parseEOF (p := { p with lexer := l' }) hrest fuel).congr fun ms => ?_
      simp [Closing]

/-- What `parseMatcher` can do: take a triple, or fail if there is none. -/
theorem parseMatcher_cases (h : p.lexer.Yields ts fin) :
    (∃ n o v rest m l', ts = n :: o :: v :: rest ∧ Triple n o v m ∧
      p.step .parseMatcher = some (.ok (some .parseEndOfMatcher),
        { p with matchers := p.matchers ++ [m], lexer := l' }) ∧ l'.Yields rest fin) ∨
    (∀ n o v rest m, ts = n :: o :: v :: rest → ¬Triple n o v m) ∧
      ∃ err p', p.step .parseMatcher = some (.error err, p') := by
  -- the name
  obtain ⟨n, ts, l₁, rfl, hn, hname, h₁⟩ | ⟨hnone, err, l₁, hname, -⟩ :=
    h.expectToken_cases [.tokenQuoted, .tokenUnquoted]
  swap
  · refine Or.inr ⟨?_, .noLabelName err, _, by simp [step, parseMatcher, hname]; rfl⟩
    rintro n o v rest m rfl htriple
    simpa [isText_iff_name.mp htriple.isName] using hnone n _ rfl
  cases hunquote : n.unquote with
  | none =>
    refine Or.inr ⟨?_, .invalidInput n, _, by simp [step, parseMatcher, hname, hunquote]; rfl⟩
    rintro n' o v rest m heq htriple
    obtain ⟨rfl, -⟩ := List.cons.inj heq
    simpa [hunquote] using htriple.name
  | some name =>
  -- the operator
  obtain ⟨o, ts, l₂, rfl, ho, hoperator, h₂⟩ | ⟨hnone, err, l₂, hoperator, -⟩ :=
    h₁.expectToken_cases [.tokenEquals, .tokenNotEquals, .tokenMatches, .tokenNotMatches]
  swap
  · refine Or.inr ⟨?_, .noOperator err, _,
      by simp [step, parseMatcher, hname, hunquote, hoperator]; rfl⟩
    rintro n' o v rest m heq htriple
    obtain ⟨rfl, rfl⟩ := List.cons.inj heq
    simpa [exists_matchType_iff.mp ⟨_, htriple.operator⟩] using hnone o _ rfl
  obtain ⟨ty, hty⟩ := exists_matchType_iff.mpr ho
  -- the value
  obtain ⟨v, ts, l₃, rfl, hv, hvalue, h₃⟩ | ⟨hnone, err, l₃, hvalue, -⟩ :=
    h₂.expectToken_cases [.tokenUnquoted, .tokenQuoted]
  swap
  · refine Or.inr ⟨?_, .noLabelValue err, _,
      by simp [step, parseMatcher, hname, hunquote, hoperator, hty, hvalue]; rfl⟩
    rintro n' o' v rest m heq htriple
    simp only [List.cons.injEq] at heq
    obtain ⟨rfl, rfl, rfl⟩ := heq
    simpa [isText_iff_value.mp htriple.isValue] using hnone v _ rfl
  cases hunquote' : v.unquote with
  | none =>
    refine Or.inr ⟨?_, .invalidInput v, _,
      by simp [step, parseMatcher, hname, hunquote, hoperator, hty, hvalue, hunquote']; rfl⟩
    rintro n' o' v' rest m heq htriple
    simp only [List.cons.injEq] at heq
    obtain ⟨rfl, rfl, rfl, rfl⟩ := heq
    simpa [hunquote'] using htriple.value
  | some value =>
  cases hnew : newMatcher ty name value with
  | none =>
    refine Or.inr ⟨?_, .failedToCreate value, _,
      by simp [step, parseMatcher, hname, hunquote, hoperator, hty, hvalue, hunquote', hnew]; rfl⟩
    rintro n' o' v' rest m heq htriple
    simp only [List.cons.injEq] at heq
    obtain ⟨rfl, rfl, rfl, rfl⟩ := heq
    have hsome : newMatcher ty name value = some m := newMatcher_eq_some_iff.mpr
      ⟨Option.some.inj (htriple.operator.symm.trans hty),
        Option.some.inj (htriple.name.symm.trans hunquote),
        Option.some.inj (htriple.value.symm.trans hunquote')⟩
    simp [hnew] at hsome
  | some m =>
    obtain ⟨hmty, hmname, hmvalue⟩ := newMatcher_eq_some_iff.mp hnew
    have htriple : Triple n o v m := ⟨isText_iff_name.mpr hn, isText_iff_value.mpr hv,
      by rw [hunquote, hmname], by rw [hty, hmty], by rw [hunquote', hmvalue]⟩
    exact Or.inl ⟨n, o, v, ts, m, l₃, rfl, htriple,
      by simp [step, parseMatcher, hname, hunquote, hoperator, hty, hvalue, hunquote', hnew], h₃⟩

/-- What may follow a triple. -/
inductive After (hasOpenBrace : Bool) : List Token → Matchers → Prop
  | closing {ts : List Token} (h : Closing hasOpenBrace ts) : After hasOpenBrace ts []
  | comma {c : Token} {ts : List Token} (hc : c.kind = .tokenComma)
      (h : Closing hasOpenBrace ts) : After hasOpenBrace (c :: ts) []
  | next {c n o v : Token} {m : Matcher} {ts : List Token} {ms : Matchers}
      (hc : c.kind = .tokenComma) (htriple : Triple n o v m) (h : After hasOpenBrace ts ms) :
      After hasOpenBrace (c :: n :: o :: v :: ts) (m :: ms)

/-- A triple and what may follow it. -/
def AtMatcher (hasOpenBrace : Bool) (ts : List Token) (ms : Matchers) : Prop :=
  ∃ n o v rest m ms', ts = n :: o :: v :: rest ∧ Triple n o v m ∧
    After hasOpenBrace rest ms' ∧ ms = m :: ms'

section
variable {b : Bool} {c : Token} {ms : Matchers}

theorem after_nil_iff : After b [] ms ↔ Closing b [] ∧ ms = [] := by
  constructor
  · rintro ⟨h⟩
    exact ⟨h, rfl⟩
  · rintro ⟨h, rfl⟩
    exact .closing h

theorem after_close_iff (hc : c.kind = .tokenCloseBrace) :
    After b (c :: ts) ms ↔ Closing b (c :: ts) ∧ ms = [] := by
  constructor
  · intro h
    cases h with
    | closing h => exact ⟨h, rfl⟩
    | comma hcomma h => simp [hc] at hcomma
    | next hcomma htriple h => simp [hc] at hcomma
  · rintro ⟨h, rfl⟩
    exact .closing h

theorem after_comma_iff (hc : c.kind = .tokenComma) :
    After b (c :: ts) ms ↔ Closing b ts ∧ ms = [] ∨ AtMatcher b ts ms := by
  constructor
  · intro h
    cases h with
    | closing h => simp [closing_cons h] at hc
    | comma hcomma h => exact Or.inl ⟨h, rfl⟩
    | next hcomma htriple h => exact Or.inr ⟨_, _, _, _, _, _, rfl, htriple, h, rfl⟩
  · rintro (⟨h, rfl⟩ | ⟨n, o, v, rest, m, ms', rfl, htriple, h, rfl⟩)
    · exact .comma hc h
    · exact .next hc htriple h

theorem not_after (hc : c.isOneOf [.tokenComma, .tokenCloseBrace] = false) :
    ¬After b (c :: ts) ms := by
  intro h
  cases h with
  | closing h => simp [Token.isOneOf, closing_cons h] at hc
  | comma hcomma h => simp [Token.isOneOf, hcomma] at hc
  | next hcomma htriple h => simp [Token.isOneOf, hcomma] at hc

end

/-- Where only the end of the input is allowed. -/
theorem returns_closing (h : p.lexer.Yields ts fin) {fuel : ℕ} (hfuel : 2 ≤ fuel)
    {S : Matchers → Prop} (hS : ∀ ms, S ms ↔ Closing p.hasOpenBrace ts ∧ ms = []) :
    Returns (parse fuel .parseCloseBrace p)
      fun ms => fin = none ∧ ∃ ms', S ms' ∧ ms = p.matchers ++ ms' := by
  obtain ⟨fuel, rfl⟩ := Nat.exists_eq_add_of_le' hfuel
  refine (returns_parseCloseBrace h fuel).congr fun ms => ?_
  simp only [hS]
  constructor
  · rintro ⟨hclosing, hfin, rfl⟩
    exact ⟨hfin, [], ⟨hclosing, rfl⟩, by simp⟩
  · rintro ⟨hfin, ms', ⟨hclosing, rfl⟩, rfl⟩
    exact ⟨hclosing, hfin, by simp⟩

/-- A triple, if the parser is right about what follows it. -/
theorem returns_parseMatcher (h : p.lexer.Yields ts fin) {fuel : ℕ}
    (hend : ∀ {p' : Parser} {rest : List Token}, rest.length + 3 ≤ ts.length →
      p'.lexer.Yields rest fin → Returns (parse fuel .parseEndOfMatcher p')
        fun ms => fin = none ∧ ∃ ms', After p'.hasOpenBrace rest ms' ∧ ms = p'.matchers ++ ms') :
    Returns (parse (fuel + 1) .parseMatcher p)
      fun ms => fin = none ∧ ∃ ms', AtMatcher p.hasOpenBrace ts ms' ∧ ms = p.matchers ++ ms' := by
  obtain ⟨n, o, v, rest, m, l', rfl, htriple, hstep, hrest⟩ | ⟨hnone, err, p', hstep⟩ :=
    parseMatcher_cases h
  · rw [parse_of_next hstep]
    refine (hend (by simp) hrest).congr fun ms => ?_
    simp only [List.append_assoc, List.singleton_append]
    constructor
    · rintro ⟨hfin, ms', hafter, rfl⟩
      exact ⟨hfin, m :: ms', ⟨n, o, v, rest, m, ms', rfl, htriple, hafter, rfl⟩, rfl⟩
    · rintro ⟨hfin, _, ⟨n', o', v', rest', m', ms', heq, htriple', hafter, rfl⟩, rfl⟩
      simp only [List.cons.injEq] at heq
      obtain ⟨rfl, rfl, rfl, rfl⟩ := heq
      obtain rfl : m' = m := htriple'.unique htriple
      exact ⟨hfin, ms', hafter, rfl⟩
  · rw [parse_of_error hstep]
    refine .error err ?_
    rintro ms ⟨-, _, ⟨n, o, v, rest, m, ms', rfl, htriple, -⟩, -⟩
    exact hnone n o v rest m rfl htriple

/-- Any error but the end of the input is passed on. -/
theorem step_parseComma_error {t : Token} {l l' : Lexer} {err : ParseError}
    (hexpect : p.lexer.expectToken [.tokenComma] = some (.ok t, l))
    (hpeek : l.expectPeek [.tokenCloseBrace, .tokenUnquoted, .tokenQuoted] = some (.error err, l'))
    (herr : err ≠ .eof) : p.step .parseComma =
      some (.error (.expectedMatcherOrCloseBrace err), { p with lexer := l' }) := by
  rw [step, parseComma]
  simp only [hexpect, hpeek, Option.bind_eq_bind, Option.bind_some]
  rfl

theorem step_parseEndOfMatcher_error {l' : Lexer} {err : ParseError}
    (hpeek : p.lexer.expectPeek [.tokenComma, .tokenCloseBrace] = some (.error err, l'))
    (herr : err ≠ .eof) : p.step .parseEndOfMatcher =
      some (.error (.expectedCommaOrCloseBrace err), { p with lexer := l' }) := by
  rw [step, parseEndOfMatcher]
  simp only [hpeek, Option.bind_eq_bind, Option.bind_some]
  rfl

theorem returns_parseComma {c : Token} (h : p.lexer.Yields (c :: ts) fin)
    (hc : c.kind = .tokenComma) {fuel : ℕ} (hfuel : 1 ≤ fuel)
    (hend : ∀ {p' : Parser} {rest : List Token}, rest.length + 3 ≤ ts.length →
      p'.lexer.Yields rest fin → Returns (parse fuel .parseEndOfMatcher p')
        fun ms => fin = none ∧ ∃ ms', After p'.hasOpenBrace rest ms' ∧ ms = p'.matchers ++ ms') :
    Returns (parse (fuel + 2) .parseComma p)
      fun ms => fin = none ∧
        ∃ ms', After p.hasOpenBrace (c :: ts) ms' ∧ ms = p.matchers ++ ms' := by
  obtain ⟨l, hexpect, hrest⟩ := h.expectToken_cons [.tokenComma]
    (by simp [Token.isOneOf, hc])
  -- the parser behind the comma
  have hpl : ({ p with lexer := l } : Parser).lexer.Yields ts fin := hrest
  simp only [after_comma_iff hc]
  obtain ⟨t, ts, rfl, hone, hpeek⟩ | ⟨rfl, rfl, hpeek⟩ | ⟨hmore, hnone, err, l', herr, hpeek⟩ :=
    hrest.expectPeek_cases [.tokenCloseBrace, .tokenUnquoted, .tokenQuoted]
  · by_cases hclose : t.kind = .tokenCloseBrace
    · have hstep : p.step .parseComma =
          some (.ok (some .parseCloseBrace), { p with lexer := l }) := by
        simp [step, parseComma, hexpect, hpeek, hclose]
      rw [parse_of_next hstep]
      refine returns_closing hpl (by omega) fun ms => or_iff_left ?_
      rintro ⟨n, o, v, rest, m, ms', heq, htriple, -⟩
      obtain ⟨rfl, -⟩ := List.cons.inj heq
      simpa [Token.IsText, hclose] using htriple.isName
    · have hstep : p.step .parseComma =
          some (.ok (some .parseMatcher), { p with lexer := l }) := by
        simp [step, parseComma, hexpect, hpeek, hclose]
      rw [parse_of_next hstep]
      refine (returns_parseMatcher hpl hend).congr fun ms => ?_
      have hopen : ∀ ms' : Matchers, ¬(Closing p.hasOpenBrace (t :: ts) ∧ ms' = []) :=
        fun ms' hclosing => hclose (closing_cons hclosing.1)
      simp only [hopen, false_or]
  · have hstep : p.step .parseComma =
        some (.ok (some .parseCloseBrace), { p with lexer := l }) := by
      simp [step, parseComma, hexpect, hpeek]
    rw [parse_of_next hstep]
    refine returns_closing hpl (by omega) fun ms => or_iff_left ?_
    rintro ⟨n, o, v, rest, m, ms', heq, -⟩
    cases heq
  · rw [parse_of_error (step_parseComma_error hexpect hpeek herr)]
    refine .error _ ?_
    rintro ms ⟨hfin, ms', ⟨hclosing, -⟩ | ⟨n, o, v, rest, m, ms', rfl, htriple, -⟩, -⟩
    · cases ts with
      | nil => exact hmore ⟨rfl, hfin⟩
      | cons t ts => simpa [Token.isOneOf, closing_cons hclosing] using hnone t ts rfl
    · have := hnone n _ rfl
      obtain hname | hname := htriple.isName <;> simp [Token.isOneOf, hname] at this

/-- After a triple the parser has what the grammar allows there. -/
theorem returns_parseEndOfMatcher (h : p.lexer.Yields ts fin) {fuel : ℕ}
    (hfuel : ts.length + 4 ≤ fuel) : Returns (parse fuel .parseEndOfMatcher p)
      fun ms => fin = none ∧ ∃ ms', After p.hasOpenBrace ts ms' ∧ ms = p.matchers ++ ms' := by
  induction hn : ts.length using Nat.strong_induction_on generalizing ts p fuel with
  | _ n ih =>
  obtain ⟨fuel, rfl⟩ : ∃ k, fuel = k + 1 := ⟨fuel - 1, by omega⟩
  obtain ⟨t, ts, rfl, hone, hpeek⟩ | ⟨rfl, rfl, hpeek⟩ | ⟨hmore, hnone, err, l', herr, hpeek⟩ :=
    h.expectPeek_cases [.tokenComma, .tokenCloseBrace]
  · obtain hcomma | hclose : t.kind = .tokenComma ∨ t.kind = .tokenCloseBrace := by
      simpa [Token.isOneOf] using hone
    · have hstep : p.step .parseEndOfMatcher = some (.ok (some .parseComma), p) := by
        simp [step, parseEndOfMatcher, hpeek, hcomma]
      obtain ⟨fuel, rfl⟩ : ∃ k, fuel = k + 2 := ⟨fuel - 2, by omega⟩
      rw [parse_of_next hstep]
      simp only [List.length_cons] at hn hfuel
      exact returns_parseComma h hcomma (by omega) fun hlt hrest =>
        ih _ (by omega) hrest (by omega) rfl
    · have hstep : p.step .parseEndOfMatcher = some (.ok (some .parseCloseBrace), p) := by
        simp [step, parseEndOfMatcher, hpeek, hclose]
      rw [parse_of_next hstep]
      exact returns_closing h (by omega) fun ms => after_close_iff hclose
  · have hstep : p.step .parseEndOfMatcher = some (.ok (some .parseCloseBrace), p) := by
      simp [step, parseEndOfMatcher, hpeek]
    rw [parse_of_next hstep]
    exact returns_closing h (by omega) fun ms => after_nil_iff
  · rw [parse_of_error (step_parseEndOfMatcher_error hpeek herr)]
    refine .error _ ?_
    rintro ms ⟨hfin, ms', hafter, -⟩
    cases ts with
    | nil => exact hmore ⟨rfl, hfin⟩
    | cons t ts => exact not_after (hnone t ts rfl) hafter

/-- A triple with what follows it is triples with what closes the input. -/
theorem exists_triples {b : Bool} {ts : List Token} {ms : Matchers} (h : After b ts ms)
    {n o v : Token} {m : Matcher} (htriple : Triple n o v m) :
    ∃ body close, n :: o :: v :: ts = body ++ close ∧ Closing b close ∧
      Triples body (m :: ms) := by
  induction h generalizing n o v m with
  | @closing ts hclosing => exact ⟨[n, o, v], ts, rfl, hclosing, .one htriple⟩
  | @comma c ts hc hclosing => exact ⟨[n, o, v, c], ts, rfl, hclosing, .last htriple hc⟩
  | @next c _ _ _ _ _ _ hc htriple' h ih =>
    obtain ⟨body, close, heq, hclosing, htriples⟩ := ih htriple'
    exact ⟨n :: o :: v :: c :: body, close, by rw [heq]; rfl, hclosing,
      .cons htriple hc htriples⟩

theorem atMatcher_append {b : Bool} {body close : List Token} {ms : Matchers}
    (h : Triples body ms) (hclosing : Closing b close) : AtMatcher b (body ++ close) ms := by
  induction h with
  | one htriple => exact ⟨_, _, _, _, _, _, rfl, htriple, .closing hclosing, rfl⟩
  | last htriple hc => exact ⟨_, _, _, _, _, _, rfl, htriple, .comma hc hclosing, rfl⟩
  | @cons _ _ _ c _ ts ms htriple hc h ih =>
    obtain ⟨n, o, v, rest, m, ms', heq, htriple', hafter, rfl⟩ := ih
    have hnext : After b (c :: (ts ++ close)) (m :: ms') := by
      rw [heq]
      exact .next hc htriple' hafter
    exact ⟨_, _, _, _, _, _, rfl, htriple, hnext, rfl⟩

theorem atMatcher_iff {b : Bool} {ts : List Token} {ms : Matchers} : AtMatcher b ts ms ↔
    ∃ body close, ts = body ++ close ∧ Closing b close ∧ Triples body ms := by
  constructor
  · rintro ⟨n, o, v, rest, m, ms', rfl, htriple, hafter, rfl⟩
    exact exists_triples hafter htriple
  · rintro ⟨body, close, rfl, hclosing, htriples⟩
    exact atMatcher_append htriples hclosing

theorem sentence_iff {ts : List Token} {ms : Matchers} : Sentence ts ms ↔
    ts = [] ∧ ms = [] ∨ AtMatcher false ts ms ∨ ∃ o rest, ts = o :: rest ∧
      o.kind = .tokenOpenBrace ∧ (Closing true rest ∧ ms = [] ∨ AtMatcher true rest ms) := by
  simp only [atMatcher_iff]
  constructor
  · intro h
    cases h with
    | empty => exact Or.inl ⟨rfl, rfl⟩
    | bare h => exact Or.inr (Or.inl ⟨ts, [], (List.append_nil ts).symm, rfl, h⟩)
    | @braces o c ho hc => exact Or.inr (Or.inr ⟨o, [c], rfl, ho, Or.inl ⟨⟨c, rfl, hc⟩, rfl⟩⟩)
    | @braced o c ts ms ho h hc =>
      exact Or.inr (Or.inr ⟨o, ts ++ [c], rfl, ho, Or.inr ⟨ts, [c], rfl, ⟨c, rfl, hc⟩, h⟩⟩)
  · rintro (⟨rfl, rfl⟩ | ⟨body, close, rfl, hclosing, h⟩ | ⟨o, rest, rfl, ho,
      ⟨⟨c, rfl, hc⟩, rfl⟩ | ⟨body, close, rfl, ⟨c, rfl, hc⟩, h⟩⟩)
    · exact .empty
    · obtain rfl : close = [] := hclosing
      rw [List.append_nil]
      exact .bare h
    · exact .braces ho hc
    · exact .braced ho h hc

theorem not_atMatcher_nil {b : Bool} {ms : Matchers} : ¬AtMatcher b [] ms := by
  rintro ⟨n, o, v, rest, m, ms', heq, -⟩
  cases heq

theorem isText_of_atMatcher {b : Bool} {t : Token} {ms : Matchers}
    (h : AtMatcher b (t :: ts) ms) : t.IsText := by
  obtain ⟨n, o, v, rest, m, ms', heq, htriple, -⟩ := h
  obtain ⟨rfl, -⟩ := List.cons.inj heq
  exact htriple.isName

theorem sentence_open_iff {o : Token} {ms : Matchers} (ho : o.kind = .tokenOpenBrace) :
    Sentence (o :: ts) ms ↔ Closing true ts ∧ ms = [] ∨ AtMatcher true ts ms := by
  have hbare : ¬AtMatcher false (o :: ts) ms := by
    intro hat
    simpa [Token.IsText, ho] using isText_of_atMatcher hat
  simp [sentence_iff, hbare, ho]

/-- The second half of `parseOpenBrace`, behind the open brace if there is one. -/
theorem returns_behindBrace {l : Lexer} {hasOpenBrace : Bool} (h : l.Yields ts fin) {fuel : ℕ}
    (hfuel : ts.length + 5 ≤ fuel)
    (haccept : p.lexer.acceptToken [.tokenOpenBrace] = some (.ok hasOpenBrace, l)) :
    Returns (parse (fuel + 1) .parseOpenBrace p) fun ms => fin = none ∧
      ∃ ms', (Closing hasOpenBrace ts ∧ ms' = [] ∨ AtMatcher hasOpenBrace ts ms') ∧
        ms = p.matchers ++ ms' := by
  have hp : ({ p with hasOpenBrace, lexer := l } : Parser).lexer.Yields ts fin := h
  cases ts with
  | nil =>
    cases fin with
    | none =>
      have hstep : p.step .parseOpenBrace =
          some (.ok (some .parseCloseBrace), { p with hasOpenBrace, lexer := l }) := by
        simp [step, parseOpenBrace, haccept, h.acceptPeek_eof]
      rw [parse_of_next hstep]
      exact returns_closing hp (by omega) fun ms => or_iff_left not_atMatcher_nil
    | some err =>
      obtain ⟨l', hpeek⟩ := h.acceptPeek_error [.tokenCloseBrace]
      have hstep : p.step .parseOpenBrace =
          some (.error (.lexer err), { p with hasOpenBrace, lexer := l' }) := by
        simp [step, parseOpenBrace, haccept, hpeek]
      rw [parse_of_error hstep]
      exact .error _ (by simp)
  | cons t ts =>
    have hpeek := h.acceptPeek_cons [.tokenCloseBrace]
    by_cases hclose : t.kind = .tokenCloseBrace
    · have hstep : p.step .parseOpenBrace =
          some (.ok (some .parseCloseBrace), { p with hasOpenBrace, lexer := l }) := by
        simp [step, parseOpenBrace, haccept, hpeek, Token.isOneOf, hclose]
      rw [parse_of_next hstep]
      refine returns_closing hp (by omega) fun ms => or_iff_left fun hat => ?_
      simpa [Token.IsText, hclose] using isText_of_atMatcher hat
    · have hstep : p.step .parseOpenBrace =
          some (.ok (some .parseMatcher), { p with hasOpenBrace, lexer := l }) := by
        simp [step, parseOpenBrace, haccept, hpeek, Token.isOneOf, hclose]
      obtain ⟨fuel, rfl⟩ : ∃ k, fuel = k + 1 := ⟨fuel - 1, by omega⟩
      rw [parse_of_next hstep]
      refine (returns_parseMatcher hp fun hlt hrest =>
        returns_parseEndOfMatcher hrest (by omega)).congr fun ms => ?_
      have hopen : ∀ ms' : Matchers, ¬(Closing hasOpenBrace (t :: ts) ∧ ms' = []) :=
        fun ms' hclosing => hclose (closing_cons hclosing.1)
      simp only [hopen, false_or]

theorem returns_parseOpenBrace (h : p.lexer.Yields ts fin) (hp : p.matchers = []) {fuel : ℕ}
    (hfuel : ts.length + 6 ≤ fuel) : Returns (parse fuel .parseOpenBrace p)
      fun ms => fin = none ∧ Sentence ts ms := by
  obtain ⟨fuel, rfl⟩ : ∃ k, fuel = k + 1 := ⟨fuel - 1, by omega⟩
  cases ts with
  | nil =>
    cases fin with
    | none =>
      have hstep : p.step .parseOpenBrace =
          some (.ok (some .parseEOF), { p with hasOpenBrace := false }) := by
        simp [step, parseOpenBrace, Lexer.acceptToken, h.acceptPeek_eof]
      obtain ⟨fuel, rfl⟩ : ∃ k, fuel = k + 1 := ⟨fuel - 1, by omega⟩
      rw [parse_of_next hstep]
      refine (returns_parseEOF (p := { p with hasOpenBrace := false }) h fuel).congr
        fun ms => ?_
      simp [sentence_iff, not_atMatcher_nil, hp]
    | some err =>
      obtain ⟨l', hpeek⟩ := h.acceptPeek_error [.tokenOpenBrace]
      have hstep : p.step .parseOpenBrace =
          some (.error (.lexer err), { p with hasOpenBrace := false, lexer := l' }) := by
        simp [step, parseOpenBrace, Lexer.acceptToken, hpeek]
      rw [parse_of_error hstep]
      exact .error _ (by simp)
  | cons t ts =>
    have hpeek := h.acceptPeek_cons [.tokenOpenBrace]
    simp only [List.length_cons] at hfuel
    by_cases hopen : t.kind = .tokenOpenBrace
    · obtain ⟨-, -, l', hscan, hrest⟩ := h.peek_cons
      have haccept : p.lexer.acceptToken [.tokenOpenBrace] = some (.ok true, l') := by
        simp [Lexer.acceptToken, hpeek, Token.isOneOf, hopen, hscan]
      refine (returns_behindBrace hrest (by omega) haccept).congr fun ms => ?_
      simp [sentence_open_iff hopen, hp]
    · have haccept : p.lexer.acceptToken [.tokenOpenBrace] = some (.ok false, p.lexer) := by
        simp [Lexer.acceptToken, hpeek, Token.isOneOf, hopen]
      refine (returns_behindBrace h (by simp only [List.length_cons]; omega) haccept).congr
        fun ms => ?_
      simp [sentence_iff, hp, hopen, Closing]

end Parser

/-- The tokens of an input and what the parser makes of them. -/
theorem returns_run (input : GoString) : ∃ ts fin, Lexer.Yields { input } ts fin ∧
    lex input = some (Lexer.outcome ts fin) ∧
      Returns (Parse.run input) fun ms => fin = none ∧ Sentence ts ms := by
  obtain ⟨ts, fin, hyields, hlength, hlex⟩ := Lexer.exists_yields_start input
  exact ⟨ts, fin, hyields, hlex, Parser.returns_parseOpenBrace hyields rfl (by omega)⟩

theorem matchers_eq_ok_iff {input : GoString} {S : Matchers → Prop}
    (h : Returns (Parse.run input) S) (ms : Matchers) : Parse.matchers input = .ok ms ↔ S ms := by
  obtain ⟨res, hres, hiff⟩ := h
  rw [Parse.matchers, hres, Option.getD_some, hiff]

/-- `parse.Matchers` ends and does not panic, whatever the input is. It returns matchers
if and only if the input has tokens and these are a sentence of the grammar, and then the
matchers of the sentence. -/
theorem matchers_iff_sentence (input : GoString) :
    (∃ res, Parse.run input = some res) ∧
      ∀ ms, Parse.matchers input = .ok ms ↔
        ∃ ts, lex input = some (.ok ts) ∧ Sentence ts ms := by
  obtain ⟨ts, fin, -, hlex, hreturns⟩ := returns_run input
  refine ⟨⟨hreturns.choose, hreturns.choose_spec.1⟩, fun ms => ?_⟩
  rw [matchers_eq_ok_iff hreturns, hlex]
  cases fin with
  | none => simp [Lexer.outcome]
  | some err => simp [Lexer.outcome]

end

end Alertmanager
