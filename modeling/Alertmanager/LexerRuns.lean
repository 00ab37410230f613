import Alertmanager.MatcherLexer

/-!
# Runs of the lexer

Any sequence of `scan` and `peek` calls on the lexer of `matcher/parse/lexer.go`. The
scanned tokens lie one behind the other in the input with nothing but white space between
them, and a token knows where it is, in bytes and in runes. The end of the input and an
error are final. A `peek` keeps the error of its scan, which is the one that the next scan
would return anyway.
-/
namespace Alertmanager

/-- `input[a:b]`. -/
def slice (input : GoString) (a b : ℕ) : GoString := (input.take b).drop a

/-- The number of runes that are decoded before an offset. -/
def columnAt (input : GoString) (offset : ℕ) : ℕ := (Utf8.runes (input.take offset)).length

/-- There is nothing but white space. -/
def Blank (s : GoString) : Prop := ∀ c ∈ Utf8.runes s, isSpace (Utf8.pieceRune c) = true

/-- From the first offset to the last the input has the given tokens, with blanks before
each of them. -/
inductive Tiles (input : GoString) : ℕ → List Token → ℕ → Prop
  | nil (offset : ℕ) : Tiles input offset [] offset
  | cons {offset a b last : ℕ} {t : Token} {ts : List Token} (hblank : Blank (slice input offset a))
      (hoffset : offset ≤ a) (hne : a < b) (hlength : b ≤ input.length)
      (hvalue : t.value = slice input a b)
      (hposition : t.position = ⟨a, b, columnAt input a, columnAt input b⟩)
      (hrest : Tiles input b ts last) : Tiles input offset (t :: ts) last

/-! ### The first token -/

namespace Lexed

theorem untilQuote_split (isEscaped : Bool) (ps : List GoString) :
    (untilQuote isEscaped ps).1 ++ (untilQuote isEscaped ps).2 = ps := by
  fun_induction untilQuote isEscaped ps <;> simp_all

/-- An operator begins with its first rune, and nothing is lost behind it. -/
theorem operator_eq_token {c : GoString} {ps us rest : List GoString} {kind : TokenKind}
    (h : operator c ps = .token kind us rest) : c :: ps = us ++ rest ∧ us ≠ [] := by
  have htake : c :: ps = (c :: ps.take 1) ++ ps.drop 1 := by
    rw [List.cons_append, List.take_append_drop]
  unfold operator at h
  split_ifs at h
  · obtain ⟨-, rfl, rfl⟩ := token.inj h
    exact ⟨htake, by simp⟩
  · obtain ⟨-, rfl, rfl⟩ := token.inj h
    exact ⟨htake, by simp⟩
  · obtain ⟨-, rfl, rfl⟩ := token.inj h
    exact ⟨htake, by simp⟩
  · obtain ⟨-, rfl, rfl⟩ := token.inj h
    exact ⟨rfl, by simp⟩

theorem quoted_eq_token {c : GoString} {ps us rest : List GoString} {kind : TokenKind}
    (h : quoted c ps = .token kind us rest) : c :: ps = us ++ rest ∧ us ≠ [] := by
  have happend := untilQuote_split false ps
  unfold quoted at h
  split at h
  · cases h
  · rename_i d rest' hrest
    obtain ⟨-, rfl, rfl⟩ := token.inj h
    rw [hrest] at happend
    exact ⟨by simp [happend], by simp⟩

/-- Before the first token there are spaces, and it takes at least one rune. -/
theorem first_eq_token {ps us rest : List GoString} {kind : TokenKind}
    (h : first ps = .token kind us rest) : ∃ gap, ps = gap ++ (us ++ rest) ∧ us ≠ [] ∧
      ∀ c ∈ gap, isSpace (Utf8.pieceRune c) = true := by
  induction ps with
  | nil => cases h
  | cons c ps ih =>
    obtain ⟨-, rfl, rfl⟩ | hoperator | hquoted | ⟨-, -, rfl, rfl⟩ | ⟨hspace, hfirst⟩ :=
      Lexer.first_cases h
    · exact ⟨[], rfl, by simp, by simp⟩
    · exact ⟨[], (operator_eq_token hoperator).1, (operator_eq_token hoperator).2, by simp⟩
    · exact ⟨[], (quoted_eq_token hquoted).1, (quoted_eq_token hquoted).2, by simp⟩
    · exact ⟨[], by simp [List.takeWhile_append_dropWhile], by simp, by simp⟩
    · obtain ⟨gap, rfl, hne, hgap⟩ := ih hfirst
      exact ⟨c :: gap, rfl, hne, List.forall_mem_cons.mpr ⟨hspace, hgap⟩⟩

/-- Only spaces are left at the end. -/
theorem first_eq_eof {ps : List GoString} (h : first ps = .eof) :
    ∀ c ∈ ps, isSpace (Utf8.pieceRune c) = true := by
  have hoperator : ∀ c ps, operator c ps ≠ .eof := by
    intro c ps heq
    unfold operator at heq
    split_ifs at heq
  have hquoted : ∀ c ps, quoted c ps ≠ .eof := by
    intro c ps heq
    unfold quoted at heq
    split at heq <;> cases heq
  induction ps with
  | nil => simp
  | cons c ps ih =>
    simp only [first] at h
    split_ifs at h with _ _ _ _ _ _ hspace
    · exact absurd h (hoperator c ps)
    · exact absurd h (hquoted c ps)
    · exact List.forall_mem_cons.mpr ⟨hspace, ih h⟩

end Lexed

namespace Lexer
variable {input : GoString} {us ps : List GoString} {l : Lexer}

/-- Offsets and columns at the boundary of two runes. -/
theorem columnAt_flatten {before rest : List GoString} (h : Utf8.runes input = before ++ rest) :
    columnAt input before.flatten.length = before.length := by
  have hinput : input = before.flatten ++ rest.flatten := by
    rw [← Utf8.flatten_runes input, h, List.flatten_append]
  have hpieces : Utf8.runes (before ++ rest).flatten = before ++ rest := by
    rw [← h, Utf8.flatten_runes]
  have hbefore : Utf8.runes before.flatten = before := Utf8.runes_of_runes_append hpieces
  rw [columnAt, hinput, List.take_left, hbefore]

theorem slice_flatten {before us rest : List GoString}
    (h : Utf8.runes input = before ++ (us ++ rest)) :
    slice input before.flatten.length (before ++ us).flatten.length = us.flatten := by
  have hinput : input = (before ++ us).flatten ++ rest.flatten := by
    rw [← Utf8.flatten_runes input, h]
    simp
  rw [slice, hinput, List.take_left, List.flatten_append, List.drop_left]

theorem runes_middle {before us rest : List GoString}
    (h : Utf8.runes input = before ++ (us ++ rest)) : Utf8.runes us.flatten = us := by
  have hpieces : Utf8.runes (before ++ (us ++ rest)).flatten = before ++ (us ++ rest) := by
    rw [← h, Utf8.flatten_runes]
  exact Utf8.runes_of_runes_append (Utf8.runes_of_append_runes before hpieces)

theorem Cursor.start_eq (h : Cursor input [] ps l) : ∃ before,
    Utf8.runes input = before ++ ps ∧ l.start = before.flatten.length ∧
      l.column = before.length := by
  obtain ⟨before, hsplit, hstart, -, hcolumn, -⟩ := h.split
  exact ⟨before, hsplit, hstart, hcolumn⟩

/-- Where the first token of the rest lies. -/
theorem Cursor.tiles_cons {gap rest : List GoString} {l' : Lexer} {t : Token} {ts : List Token}
    {last : ℕ} (h : Cursor input [] (gap ++ (us ++ rest)) l) (h' : Cursor input [] rest l')
    (hgap : ∀ c ∈ gap, isSpace (Utf8.pieceRune c) = true) (hne : us ≠ [])
    (hvalue : t.value = us.flatten) (hposition : t.position = spanBefore us l')
    (hrest : Tiles input l'.start.toNat ts last) :
    Tiles input l.start.toNat (t :: ts) last := by
  obtain ⟨before, hsplit, hstart, -⟩ := h.start_eq
  obtain ⟨before', hsplit', hstart', hcolumn'⟩ := h'.start_eq
  have hsplitGap : Utf8.runes input = (before ++ gap) ++ (us ++ rest) := by simpa using hsplit
  have hbefore : before' = before ++ gap ++ us := by
    rw [hsplitGap, ← List.append_assoc] at hsplit'
    exact (List.append_cancel_right hsplit').symm
  subst hbefore
  have hpos : 0 < us.flatten.length := by
    obtain ⟨c, us, rfl⟩ := List.exists_cons_of_ne_nil hne
    have hmem : c ∈ Utf8.runes input := by
      rw [hsplit]
      simp
    have := Utf8.length_pos_of_mem_runes hmem
    simp only [List.flatten_cons, List.length_append]
    omega
  have hlength : (before ++ gap ++ us).flatten.length =
      (before ++ gap).flatten.length + us.flatten.length := by
    rw [List.flatten_append, List.length_append]
  have hinput : input.length = (before ++ gap ++ us).flatten.length + rest.flatten.length := by
    conv_lhs => rw [← Utf8.flatten_runes input, hsplit', List.flatten_append, List.length_append]
  rw [hstart', Int.toNat_natCast] at hrest
  rw [hstart, Int.toNat_natCast]
  refine .cons (a := (before ++ gap).flatten.length) ?_ ?_ (by omega) (by omega) ?_ ?_ hrest
  · rw [slice_flatten hsplit, Blank, runes_middle hsplit]
    exact hgap
  · rw [List.flatten_append, List.length_append]
    omega
  · rw [hvalue, slice_flatten hsplitGap]
  · rw [hposition, spanBefore, hstart', hcolumn', columnAt_flatten hsplitGap,
      columnAt_flatten hsplit']
    simp only [hlength, List.length_append, Position.mk.injEq, Nat.cast_add]
    refine ⟨by ring, trivial, by ring, trivial⟩

/-- The tokens of the rest of an input tile it, up to its end or to an error. -/
theorem Cursor.exists_tiles (h : Cursor input [] ps l) : ∃ ts fin last, Yields l ts fin ∧
    Tiles input l.start.toNat ts last ∧ (fin = none → Blank (slice input last input.length)) := by
  induction hn : ps.length using Nat.strong_induction_on generalizing ps l with
  | _ n ih =>
    have hscan := h.scan
    cases hfirst : Lexed.first ps with
    | eof =>
      rw [hfirst] at hscan
      obtain ⟨l', hl', hcursor⟩ := hscan
      obtain ⟨before, hsplit, hstart, -⟩ := h.start_eq
      refine ⟨[], none, l.start.toNat, .eof hl' (hcursor.input_eq.trans h.input_eq.symm) h.noErr
        hcursor.noErr, .nil _, fun _ => ?_⟩
      have hrest : slice input l.start.toNat input.length = ps.flatten := by
        rw [slice, List.take_length, hstart, Int.toNat_natCast, ← Utf8.flatten_runes input,
          hsplit, List.flatten_append, List.drop_left]
      rw [hrest, Blank, h.runes_rest]
      exact Lexed.first_eq_eof hfirst
    | error =>
      rw [hfirst] at hscan
      obtain ⟨err, l', hl', hinput, herr⟩ := hscan
      exact ⟨[], some err, l.start.toNat, .error hl' (hinput.trans h.input_eq.symm) herr,
        .nil _, by simp⟩
    | token k us rest =>
      rw [hfirst] at hscan
      obtain ⟨t, l', hl', rfl, hvalue, hposition, hcursor⟩ := hscan
      obtain ⟨hkind, hlt⟩ := length_rest_lt hfirst
      obtain ⟨gap, rfl, hne, hgap⟩ := Lexed.first_eq_token hfirst
      obtain ⟨ts, fin, last, hyields, htiles, hend⟩ := ih rest.length (by omega) hcursor rfl
      exact ⟨t :: ts, fin, last, .token hl' hkind (hcursor.input_eq.trans h.input_eq.symm)
        h.noErr hcursor.noErr hyields,
        h.tiles_cons hcursor hgap hne hvalue hposition htiles, hend⟩

/-! ### Calls -/

inductive Call
  | scan
  | peek
  deriving DecidableEq

/-- The results of the scans among some calls. -/
def scanResults : List Call → Lexer → Option (List (Except LexError Token))
  | [], _ => some []
  | .scan :: calls, l => do
      let (t, l) ← l.scan
      let ts ← scanResults calls l
      return t :: ts
  | .peek :: calls, l => do
      let (_, l) ← l.peek
      scanResults calls l

/-- What is returned behind the tokens. -/
def final : Option LexError → Except LexError Token
  | none => .ok {}
  | some err => .error err

/-- The result of the scan with the given number: a token, or what is behind all. -/
def nthResult (ts : List Token) (fin : Option LexError) (k : ℕ) : Except LexError Token :=
  match ts[k]? with
  | some t => .ok t
  | none => final fin

/-- The lexer yields the tokens, and has a cursor as long as it has no error. -/
structure Stable (input : GoString) (ts : List Token) (fin : Option LexError) (l : Lexer) :
    Prop where
  yields : Yields l ts fin
  cursor : l.err = none → ∃ ps, Cursor input [] ps l

/-- A lexer with an error stays as it is. -/
theorem stable_of_err {err : LexError} (h : l.err = some err) : Stable input [] (some err) l := by
  have hscan : l.scan = some (.error err, l) := by rw [scan, h]
  refine ⟨.error hscan rfl h, fun hnone => ?_⟩
  rw [h] at hnone
  cases hnone

theorem stable_eof (h : Cursor input [] [] l) : Stable input [] none l := by
  obtain ⟨l', hscan, hcursor⟩ := h.scan
  exact ⟨.eof hscan (hcursor.input_eq.trans h.input_eq.symm) h.noErr hcursor.noErr,
    fun _ => ⟨[], h⟩⟩

/-- A scan without error leaves a cursor, and one behind everything at the end. -/
theorem Cursor.after_scan (h : Cursor input [] ps l) {t : Token} {l' : Lexer}
    (hscan : l.scan = some (.ok t, l')) :
    (∃ ps', Cursor input [] ps' l') ∧ (t.kind = .tokenEOF → Cursor input [] [] l') := by
  have hrefines := h.scan
  rw [hscan] at hrefines
  cases hfirst : Lexed.first ps with
  | eof =>
    rw [hfirst] at hrefines
    obtain ⟨l'', heq, hcursor⟩ := hrefines
    cases heq
    exact ⟨⟨[], hcursor⟩, fun _ => hcursor⟩
  | error =>
    rw [hfirst] at hrefines
    obtain ⟨err, l'', heq, -⟩ := hrefines
    cases heq
  | token kind us rest =>
    rw [hfirst] at hrefines
    obtain ⟨t', l'', heq, rfl, -, -, hcursor⟩ := hrefines
    cases heq
    exact ⟨⟨rest, hcursor⟩, fun heof => absurd heof (length_rest_lt hfirst).1⟩

theorem Stable.scan {ts : List Token} {fin : Option LexError} (h : Stable input ts fin l) :
    ∃ l', l.scan = some (nthResult ts fin 0, l') ∧ Stable input ts.tail fin l' := by
  obtain ⟨hyields, hcursor⟩ := h
  cases hyields with
  | eof hscan hinput hbefore hafter =>
    obtain ⟨ps, hps⟩ := hcursor hbefore
    exact ⟨_, hscan, stable_eof ((hps.after_scan hscan).2 rfl)⟩
  | error hscan hinput hafter => exact ⟨_, hscan, stable_of_err hafter⟩
  | token hscan hkind hinput hbefore hafter hrest =>
    obtain ⟨ps, hps⟩ := hcursor hbefore
    exact ⟨_, hscan, hrest, fun _ => (hps.after_scan hscan).1⟩

/-- A peek returns the next result as well, and does not change it. -/
theorem Stable.peek {ts : List Token} {fin : Option LexError} (h : Stable input ts fin l) :
    ∃ l', l.peek = some (nthResult ts fin 0, l') ∧ Stable input ts fin l' := by
  have hkept : ∀ {l' : Lexer}, l.err = none → l'.err = none → { l with err := l'.err } = l := by
    intro l' hbefore hafter
    rw [hafter, ← hbefore]
  obtain ⟨hyields, hcursor⟩ := h
  cases hyields with
  | eof hscan hinput hbefore hafter =>
    refine ⟨l, ?_, .eof hscan hinput hbefore hafter, hcursor⟩
    rw [Lexer.peek, hscan]
    simp [hkept hbefore hafter, nthResult, final]
  | @error _ l' err hscan hinput hafter =>
    refine ⟨{ l with err := l'.err }, ?_, stable_of_err hafter⟩
    rw [Lexer.peek, hscan]
    rfl
  | token hscan hkind hinput hbefore hafter hrest =>
    refine ⟨l, ?_, .token hscan hkind hinput hbefore hafter hrest, hcursor⟩
    rw [Lexer.peek, hscan]
    simp [hkept hbefore hafter, nthResult]

theorem nthResult_tail (ts : List Token) (fin : Option LexError) (k : ℕ) :
    nthResult ts.tail fin k = nthResult ts fin (k + 1) := by
  rw [nthResult, nthResult, List.getElem?_tail]

/-- The scans among any calls return one result after the other. -/
theorem Stable.scanResults {ts : List Token} {fin : Option LexError} (h : Stable input ts fin l)
    (calls : List Call) :
    Lexer.scanResults calls l = some ((List.range (calls.count .scan)).map (nthResult ts fin)) := by
  induction calls generalizing ts l with
  | nil => rfl
  | cons call calls ih =>
    cases call with
    | scan =>
      obtain ⟨l', hscan, hstable⟩ := h.scan
      rw [Lexer.scanResults, hscan, List.count_cons_self, List.range_succ_eq_map]
      simp [ih hstable, nthResult_tail, Function.comp_def]
    | peek =>
      obtain ⟨l', hpeek, hstable⟩ := h.peek
      rw [Lexer.scanResults, hpeek, List.count_cons_of_ne (by decide)]
      exact ih hstable

theorem Yields.kind_ne_eof {ts : List Token} {fin : Option LexError} (h : Yields l ts fin) :
    ∀ t ∈ ts, t.kind ≠ .tokenEOF := by
  induction h with
  | eof | error => simp
  | token hscan hkind hinput hbefore hafter hrest ih =>
    exact List.forall_mem_cons.mpr ⟨hkind, ih⟩

end Lexer

/-- Whatever calls are made, the scans return the tokens of the input, which tile it from
its beginning on, and then always the end, with only blanks before it, or always the same
error. -/
theorem lexer_tiles (input : GoString) : ∃ ts fin last, Tiles input 0 ts last ∧
    (fin = none → Blank (slice input last input.length)) ∧
    (∀ t ∈ ts, t.kind ≠ .tokenEOF) ∧
    ∀ calls : List Lexer.Call, Lexer.scanResults calls { input } =
      some ((List.range (calls.count .scan)).map (Lexer.nthResult ts fin)) := by
  have hcursor := Lexer.cursor_start input
  obtain ⟨ts, fin, last, hyields, htiles, hend⟩ := hcursor.exists_tiles
  refine ⟨ts, fin, last, htiles, hend, hyields.kind_ne_eof, fun calls => ?_⟩
  exact Lexer.Stable.scanResults ⟨hyields, fun _ => ⟨_, hcursor⟩⟩ calls

end Alertmanager
