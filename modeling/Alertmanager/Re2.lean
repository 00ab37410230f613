import Alertmanager.Utf8Text
import Mathlib.Logic.Relation

/-!
# The syntax of regular expressions

Which texts the parser of Go's `regexp/syntax` accepts with the flags of `regexp.Compile`,
the syntax of RE2. The parser takes one token at a time from the front of the text; of its
stack only what decides about acceptance is kept: the open groups, whether there is
something to repeat, and how often the copies of a subexpression are counted, which may
not exceed 1000. A character class and a quotation `\Q...\E` are taken item by item, so
they are modes of the parser. The limits that the implementation puts on the depth and
the size of an expression are not part of the syntax.

The main result says when a text that is accepted is accepted between `^(?:` and `)$`.
-/
namespace Alertmanager

namespace Utf8

/-- The characters of a string, if it is valid. -/
def decode (s : GoString) : Option (List Char) :=
  if (runes s).all isRune then some ((runes s).map fun c => Char.ofNat (rune c)) else none

theorem decode_append {s u : GoString} {t v : List Char} (hs : decode s = some t)
    (hu : decode u = some v) : decode (s ++ u) = some (t ++ v) := by
  unfold decode at *
  split_ifs at hs hu with hvalid huvalid
  rw [runes_append hvalid]
  obtain rfl := Option.some.inj hs
  obtain rfl := Option.some.inj hu
  simp only [List.all_append, hvalid, huvalid, Bool.and_self, if_true, List.map_append]

end Utf8

namespace Re2

/-! ### Readers -/

/-- The text up to a character and the text after it. -/
def cut (sep : Char) : List Char → Option (List Char × List Char)
  | [] => none
  | c :: t => if c = sep then some ([], t) else (cut sep t).map fun r => (c :: r.1, r.2)

/-- The text up to a pair of characters and the text after it. -/
def cut2 (a b : Char) : List Char → Option (List Char × List Char)
  | [] => none
  | c :: t =>
    if c = a ∧ t.head? = some b then some ([], t.tail)
    else (cut2 a b t).map fun r => (c :: r.1, r.2)

/-- The value of a hexadecimal digit. -/
def unhex (c : Char) : Option ℕ :=
  if c.isDigit then some (c.toNat - '0'.toNat)
  else if 'a' ≤ c ∧ c ≤ 'f' then some (c.toNat - 'a'.toNat + 10)
  else if 'A' ≤ c ∧ c ≤ 'F' then some (c.toNat - 'A'.toNat + 10)
  else none

/-- Up to the given number of further octal digits. -/
def octalDigits : ℕ → ℕ → List Char → ℕ × List Char
  | 0, r, t => (r, t)
  | _ + 1, r, [] => (r, [])
  | n + 1, r, c :: t =>
    if '0' ≤ c ∧ c ≤ '7' then octalDigits n (r * 8 + (c.toNat - '0'.toNat)) t else (r, c :: t)

/-- The digits of `\x{...}`, with the number of those read and their value. -/
def hexDigits : ℕ → ℕ → List Char → Option (ℕ × List Char)
  | _, _, [] => none
  | count, r, c :: t =>
    if c = '}' then if count = 0 then none else some (r, t)
    else
      match unhex c with
      | none => none
      | some v => if 0x10FFFF < r * 16 + v then none else hexDigits (count + 1) (r * 16 + v) t

/-- A hexadecimal escape, after `\x`. -/
def hexEscape : List Char → Option (ℕ × List Char)
  | [] => none
  | c :: t =>
    if c = '{' then hexDigits 0 0 t
    else
      (unhex c).bind fun x => (t.head?.bind unhex).map fun y => (x * 16 + y, t.tail)

/-- An escape of a single character: a letter of C, or a character that is neither a
letter nor a digit. -/
def singleEscape (c : Char) : Option ℕ :=
  if c = 'a' then some 7 else if c = 'f' then some 12 else if c = 'n' then some 10
  else if c = 'r' then some 13 else if c = 't' then some 9 else if c = 'v' then some 11
  else if c.toNat < 128 ∧ c.isAlphanum = false then some c.toNat else none

/-- `parseEscape`, after the backslash: the code of the character that is meant. A single
digit other than zero would be a backreference. -/
def parseEscape : List Char → Option (ℕ × List Char)
  | [] => none
  | c :: t =>
    if '1' ≤ c ∧ c ≤ '7' ∧ ¬(t.head?.any fun d => '0' ≤ d ∧ d ≤ '7') then none
    else if '0' ≤ c ∧ c ≤ '7' then some (octalDigits 2 (c.toNat - '0'.toNat) t)
    else if c = 'x' then hexEscape t
    else (singleEscape c).map fun r => (r, t)

/-- `parsePerlClassEscape`: the letters of the Perl classes. -/
def isPerlClass (c : Char) : Bool := c ∈ ['d', 'D', 's', 'S', 'w', 'W']

/-- The names of Unicode categories and scripts. -/
class UnicodeNames where
  isName : List Char → Bool

/-- The text without a character at its front. -/
def skip (x : Char) : List Char → List Char
  | [] => []
  | c :: t => if c = x then t else c :: t

section
variable [UnicodeNames]

/-- `parseUnicodeClass`, after `\p` or `\P`. -/
def parseUnicodeClass : List Char → Option (List Char)
  | [] => none
  | c :: t =>
    if c = '{' then
      match cut '}' t with
      | none => none
      | some (name, rest) => if UnicodeNames.isName (skip '^' name) then some rest else none
    else if UnicodeNames.isName (skip '^' [c]) then some t
    else none

/-- The names of the classes `[:name:]`. -/
def posixNames : List String :=
  ["alnum", "alpha", "ascii", "blank", "cntrl", "digit", "graph", "lower", "print", "punct",
    "space", "upper", "word", "xdigit"]

def isPosixName (name : List Char) : Bool :=
  posixNames.any fun n => n.toList = skip '^' name

/-- `parseClassChar`. -/
def parseClassChar : List Char → Option (ℕ × List Char)
  | [] => none
  | c :: t => if c = '\\' then parseEscape t else some (c.toNat, t)

/-- A single character of a class, or a range whose ends are in order. -/
def classRange (t : List Char) : Option (List Char) :=
  match parseClassChar t with
  | none => none
  | some (lo, rest) =>
    if rest.head? = some '-' ∧ (rest.tail.head?.any fun c => c ≠ ']') then
      match parseClassChar rest.tail with
      | none => none
      | some (hi, rest') => if hi < lo then none else some rest'
    else some rest

/-- One item of a class. Without a closing `:]` further on, `[:` is not special. -/
def classItem : List Char → Option (List Char)
  | [] => none
  | c :: t =>
    if c = '[' ∧ t.head? = some ':' then
      match cut2 ':' ']' t.tail with
      | some (name, rest) => if isPosixName name then some rest else none
      | none => classRange (c :: t)
    else if c = '\\' ∧ (t.head? = some 'p' ∨ t.head? = some 'P') then parseUnicodeClass t.tail
    else if c = '\\' ∧ (t.head?.any isPerlClass) then some t.tail
    else classRange (c :: t)

end

/-- `isValidCaptureName`. -/
def isValidCaptureName (name : List Char) : Bool :=
  name ≠ [] && name.all fun c => c.isAlphanum || c = '_'

/-- A capture name up to its closing bracket. -/
def captureName (t : List Char) : Option (List Char) :=
  match cut '>' t with
  | none => none
  | some (name, rest) => if isValidCaptureName name then some rest else none

/-- The flags of a group: whether a group is opened, and what follows. -/
def flags : Bool → Bool → List Char → Option (Bool × List Char)
  | _, _, [] => none
  | negated, sawFlag, c :: t =>
    if c ∈ ['i', 'm', 's', 'U'] then flags negated true t
    else if c = '-' then if negated then none else flags true false t
    else if c = ':' ∨ c = ')' then
      if negated && !sawFlag then none else some (decide (c = ':'), t)
    else none

/-- `parsePerlFlags`, after `(?`. -/
def parsePerlFlags : List Char → Option (Bool × List Char)
  | [] => none
  | c :: t =>
    if c = '<' then (captureName t).map fun rest => (true, rest)
    else if c = 'P' ∧ t.head? = some '<' then (captureName t.tail).map fun rest => (true, rest)
    else flags false false (c :: t)

/-- `parseInt`: leading zeros are not allowed. -/
def parseInt (t : List Char) : Option (ℕ × List Char) :=
  let digits := t.takeWhile Char.isDigit
  if digits = [] ∨ (digits.head? = some '0' ∧ 1 < digits.length) then none
  else some (digits.foldl (fun n c => n * 10 + (c.toNat - '0'.toNat)) 0, t.dropWhile Char.isDigit)

/-- `parseRepeat`, after the opening brace: the bounds, of which the upper may be missing. -/
def parseRepeat (t : List Char) : Option ((ℕ × Option ℕ) × List Char) :=
  match parseInt t with
  | none => none
  | some (_, []) => none
  | some (min, c :: rest) =>
    if c = '}' then some ((min, some min), rest)
    else if c = ',' then
      if rest.head? = some '}' then some ((min, none), rest.tail)
      else
        match parseInt rest with
        | some (max, d :: rest') => if d = '}' then some ((min, some max), rest') else none
        | _ => none
    else none

/-! ### The parser -/

/-- What the parser is in the middle of. -/
inductive Mode
  | expr
  | quote
  | charClass (first : Bool)
  deriving DecidableEq, Repr

/-- An open group: the number of copies that are counted in its items before the last,
and in the last, if there is one that can be repeated. -/
structure Frame where
  before : ℕ
  last : Option ℕ
  deriving DecidableEq, Repr

/-- The copies counted in a group. -/
def Frame.copies (f : Frame) : ℕ := max f.before (f.last.getD 1)

/-- One more item. -/
def Frame.push (f : Frame) (copies : ℕ) : Frame := ⟨f.copies, some copies⟩

/-- The parser: its mode, the innermost group, the groups around it, and whether the last
token was a repetition. -/
structure State where
  mode : Mode
  frame : Frame
  outer : List Frame
  repeated : Bool
  deriving DecidableEq, Repr

namespace State

def init : State := ⟨.expr, ⟨1, none⟩, [], false⟩

/-- An item that is matched once. -/
def item (st : State) : State := { st with frame := st.frame.push 1, repeated := false }

def openGroup (st : State) : State :=
  { st with frame := ⟨1, none⟩, outer := st.frame :: st.outer, repeated := false }

/-- `parseRightParen`. -/
def closeGroup (st : State) : Option State :=
  match st.outer with
  | [] => none
  | f :: outer =>
    some { st with frame := f.push st.frame.copies, outer := outer, repeated := false }

/-- `parseVerticalBar`. -/
def verticalBar (st : State) : State :=
  { st with frame := ⟨st.frame.copies, none⟩, repeated := false }

/-- `repeat` for the operators without bounds. -/
def repeatAny (st : State) : Option State :=
  if st.repeated || st.frame.last.isNone then none else some { st with repeated := true }

/-- The copies of an item in a bounded repetition. -/
def repeatCopies (min : ℕ) (max : Option ℕ) (copies : ℕ) : ℕ :=
  match max with
  | some 0 => 1
  | some m => m * copies
  | none => if min = 0 then copies else min * copies

/-- `repeat` with bounds: they are at most 1000 and in order, and together with the
repetitions inside they make at most 1000 copies. -/
def repeatBounded (st : State) (min : ℕ) (max : Option ℕ) : Option State :=
  if 1000 < min ∨ (max.any fun m => 1000 < m ∨ m < min) then none
  else if st.repeated then none
  else
    match st.frame.last with
    | none => none
    | some copies =>
      if (2 ≤ min ∨ max.any (2 ≤ ·)) ∧ 1000 < repeatCopies min max copies then none
      else
        some { st with
          frame := ⟨st.frame.before, some (repeatCopies min max copies)⟩, repeated := true }

end State

section
variable [UnicodeNames]

/-- The token that begins with a backslash. -/
def backslash (st : State) : List Char → Option (State × List Char)
  | [] => none
  | c :: t =>
    if c ∈ ['A', 'b', 'B', 'z'] ∨ isPerlClass c then some (st.item, t)
    else if c = 'Q' then some ({ st with mode := .quote, repeated := false }, t)
    else if c = 'p' ∨ c = 'P' then (parseUnicodeClass t).map fun rest => (st.item, rest)
    else (parseEscape (c :: t)).map fun r => (st.item, r.2)

/-- A token of an expression. -/
def exprToken (st : State) (c : Char) (t : List Char) : Option (State × List Char) :=
  if c = '(' then
    if t.head? = some '?' then
      (parsePerlFlags t.tail).map fun r =>
        (if r.1 then st.openGroup else { st with repeated := false }, r.2)
    else some (st.openGroup, t)
  else if c = '|' then some (st.verticalBar, t)
  else if c = ')' then st.closeGroup.map fun st' => (st', t)
  else if c = '[' then
    some ({ st with mode := .charClass true, repeated := false }, skip '^' t)
  else if c ∈ ['*', '+', '?'] then st.repeatAny.map fun st' => (st', skip '?' t)
  else if c = '{' then
    match parseRepeat t with
    | none => some (st.item, t)
    | some (bounds, rest) =>
      (st.repeatBounded bounds.1 bounds.2).map fun st' => (st', skip '?' rest)
  else if c = '\\' then backslash st t
  else some (st.item, t)

/-- One token of the parser. A class ends at a bracket that is not its first character. -/
def step (st : State) : List Char → Option (State × List Char)
  | [] => none
  | c :: t =>
    match st.mode with
    | .expr => exprToken st c t
    | .quote =>
      if c = '\\' ∧ t.head? = some 'E' then some ({ st with mode := .expr }, t.tail)
      else some (st.item, t)
    | .charClass first =>
      if c = ']' ∧ first = false then some ({ st.item with mode := .expr }, t)
      else (classItem (c :: t)).map fun rest => ({ st with mode := .charClass false }, rest)

/-- The loop of the parser, for a number of tokens. -/
def parseLoop : ℕ → State → List Char → Option State
  | _, st, [] => some st
  | 0, _, _ :: _ => none
  | n + 1, st, c :: t => (step st (c :: t)).bind fun r => parseLoop n r.1 r.2

/-- The state of the parser at the end of a text. -/
def parse (t : List Char) : Option State := parseLoop t.length State.init t

/-- All groups and classes are closed. -/
def State.complete (st : State) : Bool :=
  st.outer = [] && st.mode ≠ .charClass true && st.mode ≠ .charClass false

/-- Whether an expression is accepted. -/
def accepts (s : GoString) : Bool :=
  ((Utf8.decode s).bind parse).any State.complete

/-- Whether an expression ends within a quotation, after a `\Q` without `\E`. -/
def endsQuoted (s : GoString) : Bool :=
  ((Utf8.decode s).bind parse).any fun st => st.mode = .quote

end

/-! ### Readers before a closing group

What a reader takes does not change when the text is followed by `)$`: no token can reach
into that. -/

/-- The end of an anchored expression. -/
def closing : List Char := [')', '$']

theorem head?_append_closing {t : List Char} (h : t ≠ []) : (t ++ closing).head? = t.head? := by
  cases t with
  | nil => exact absurd rfl h
  | cons c t => rfl

theorem tail_append_closing {t : List Char} (h : t ≠ []) :
    (t ++ closing).tail = t.tail ++ closing := by
  cases t with
  | nil => exact absurd rfl h
  | cons c t => rfl

/-- The next character is not one that closes the group. -/
theorem head?_closing_eq {t : List Char} {c : Char} (hc : c ≠ ')') :
    (t ++ closing).head? = some c ↔ t.head? = some c := by
  cases t with
  | nil => simp [closing, Ne.symm hc]
  | cons d t => simp

theorem cut_local {sep : Char} {s a b : List Char} (h : cut sep s = some (a, b)) :
    b.length < s.length ∧ cut sep (s ++ closing) = some (a, b ++ closing) := by
  induction s generalizing a with
  | nil => simp [cut] at h
  | cons c t ih =>
    rw [cut] at h
    rw [List.cons_append, cut]
    split_ifs at h ⊢ with hc
    · obtain ⟨rfl, rfl⟩ := Prod.mk.inj (Option.some.inj h)
      simp
    · obtain ⟨⟨a', b'⟩, hcut, hr⟩ := Option.map_eq_some_iff.mp h
      simp only [Prod.mk.injEq] at hr
      obtain ⟨rfl, rfl⟩ := hr
      obtain ⟨hlen, hext⟩ := ih hcut
      simp only [List.length_cons, hext, Option.map_some, and_true]
      omega

theorem cut2_local {x y : Char} (hy : y ≠ ')') {s a b : List Char}
    (h : cut2 x y s = some (a, b)) :
    b.length < s.length ∧ cut2 x y (s ++ closing) = some (a, b ++ closing) := by
  induction s generalizing a with
  | nil => simp [cut2] at h
  | cons c t ih =>
    rw [cut2] at h
    rw [List.cons_append, cut2]
    simp only [head?_closing_eq hy]
    split_ifs at h ⊢ with hc
    · obtain ⟨rfl, rfl⟩ := Prod.mk.inj (Option.some.inj h)
      have hne : t ≠ [] := by
        rintro rfl
        simp at hc
      rw [tail_append_closing hne]
      simp
    · obtain ⟨⟨a', b'⟩, hcut, hr⟩ := Option.map_eq_some_iff.mp h
      simp only [Prod.mk.injEq] at hr
      obtain ⟨rfl, rfl⟩ := hr
      obtain ⟨hlen, hext⟩ := ih hcut
      simp only [List.length_cons, hext, Option.map_some, and_true]
      omega

theorem cut2_none {x y : Char} (hx : x ≠ ')' ∧ x ≠ '$') (hy : y ≠ ')') {s : List Char}
    (h : cut2 x y s = none) : cut2 x y (s ++ closing) = none := by
  induction s with
  | nil => simp [cut2, closing, hx.1.symm, hx.2.symm]
  | cons c t ih =>
    rw [cut2] at h
    rw [List.cons_append, cut2]
    simp only [head?_closing_eq hy]
    split_ifs at h ⊢ with hc
    rw [ih (Option.map_eq_none_iff.mp h)]
    rfl

theorem octalDigits_local (n r : ℕ) (t : List Char) :
    (octalDigits n r t).2.length ≤ t.length ∧ octalDigits n r (t ++ closing) =
      ((octalDigits n r t).1, (octalDigits n r t).2 ++ closing) := by
  induction n generalizing r t with
  | zero => simp [octalDigits]
  | succ n ih =>
    cases t with
    | nil => exact ⟨le_rfl, if_neg (by decide)⟩
    | cons c t =>
      rw [List.cons_append, octalDigits, octalDigits]
      split_ifs with hc
      · obtain ⟨hlen, hext⟩ := ih (r * 8 + (c.toNat - '0'.toNat)) t
        exact ⟨hlen.trans (by simp), hext⟩
      · exact ⟨le_rfl, rfl⟩

theorem hexDigits_local {count r v : ℕ} {s rest : List Char}
    (h : hexDigits count r s = some (v, rest)) :
    rest.length < s.length ∧ hexDigits count r (s ++ closing) = some (v, rest ++ closing) := by
  induction s generalizing count r with
  | nil => simp [hexDigits] at h
  | cons c t ih =>
    rw [hexDigits] at h
    rw [List.cons_append, hexDigits]
    split_ifs at h ⊢ with hc hcount
    · obtain ⟨rfl, rfl⟩ := Prod.mk.inj (Option.some.inj h)
      simp
    · cases hv : unhex c with
      | none => simp [hv] at h
      | some d =>
        simp only [hv] at h ⊢
        split_ifs at h ⊢
        obtain ⟨hlen, hext⟩ := ih h
        exact ⟨by simp only [List.length_cons]; omega, hext⟩

theorem hexEscape_local {v : ℕ} {s rest : List Char} (h : hexEscape s = some (v, rest)) :
    rest.length < s.length ∧ hexEscape (s ++ closing) = some (v, rest ++ closing) := by
  cases s with
  | nil => simp [hexEscape] at h
  | cons c t =>
    rw [hexEscape] at h
    rw [List.cons_append, hexEscape]
    split_ifs at h ⊢ with hc
    · obtain ⟨hlen, hext⟩ := hexDigits_local h
      exact ⟨by simp only [List.length_cons]; omega, hext⟩
    · obtain ⟨x, hx, hmap⟩ := Option.bind_eq_some_iff.mp h
      obtain ⟨y, hy, hr⟩ := Option.map_eq_some_iff.mp hmap
      have hne : t ≠ [] := by
        rintro rfl
        simp at hy
      obtain ⟨rfl, rfl⟩ := Prod.mk.inj hr
      rw [hx, Option.bind_some, head?_append_closing hne, hy, tail_append_closing hne]
      simp

theorem parseEscape_local {v : ℕ} {s rest : List Char} (h : parseEscape s = some (v, rest)) :
    rest.length < s.length ∧ parseEscape (s ++ closing) = some (v, rest ++ closing) := by
  cases s with
  | nil => simp [parseEscape] at h
  | cons c t =>
    have hhead : ((t ++ closing).head?.any fun d => '0' ≤ d ∧ d ≤ '7') =
        t.head?.any fun d => '0' ≤ d ∧ d ≤ '7' := by
      cases t with
      | nil => decide
      | cons d t => rfl
    rw [parseEscape] at h
    rw [List.cons_append, parseEscape, hhead]
    split_ifs at h ⊢ with hback hoctal hx
    · obtain ⟨hlen, hext⟩ := octalDigits_local 2 (c.toNat - '0'.toNat) t
      rw [Option.some.inj h] at hlen hext
      exact ⟨Nat.lt_succ_of_le hlen, congrArg some hext⟩
    · obtain ⟨hlen, hext⟩ := hexEscape_local h
      exact ⟨by simp only [List.length_cons]; omega, hext⟩
    · obtain ⟨r, hsingle, hr⟩ := Option.map_eq_some_iff.mp h
      obtain ⟨rfl, rfl⟩ := Prod.mk.inj hr
      rw [hsingle]
      simp

section
variable [UnicodeNames]

theorem parseUnicodeClass_local {s rest : List Char} (h : parseUnicodeClass s = some rest) :
    rest.length < s.length ∧ parseUnicodeClass (s ++ closing) = some (rest ++ closing) := by
  cases s with
  | nil => simp [parseUnicodeClass] at h
  | cons c t =>
    rw [parseUnicodeClass] at h
    rw [List.cons_append, parseUnicodeClass]
    split_ifs at h ⊢ with hbrace hname
    · cases hcut : cut '}' t with
      | none => simp [hcut] at h
      | some r =>
        obtain ⟨hlen, hext⟩ := cut_local hcut
        rw [hext]
        simp only [hcut] at h ⊢
        split_ifs at h ⊢
        obtain rfl := Option.some.inj h
        exact ⟨by simp only [List.length_cons]; omega, rfl⟩
    · obtain rfl := Option.some.inj h
      simp

omit [UnicodeNames] in
theorem parseClassChar_local {v : ℕ} {s rest : List Char}
    (h : parseClassChar s = some (v, rest)) :
    rest.length < s.length ∧ parseClassChar (s ++ closing) = some (v, rest ++ closing) := by
  cases s with
  | nil => simp [parseClassChar] at h
  | cons c t =>
    rw [parseClassChar] at h
    rw [List.cons_append, parseClassChar]
    split_ifs at h ⊢ with hc
    · obtain ⟨hlen, hext⟩ := parseEscape_local h
      exact ⟨by simp only [List.length_cons]; omega, hext⟩
    · obtain ⟨rfl, rfl⟩ := Prod.mk.inj (Option.some.inj h)
      simp

omit [UnicodeNames] in
/-- Whether a range follows is the same, unless the text ends with its dash. -/
theorem isRange_closing {t : List Char} (ht : t ≠ ['-']) :
    ((t ++ closing).head? = some '-' ∧ ((t ++ closing).tail.head?.any fun c => c ≠ ']') = true) ↔
      (t.head? = some '-' ∧ (t.tail.head?.any fun c => c ≠ ']') = true) := by
  rcases t with _ | ⟨c, _ | ⟨d, t⟩⟩
  · simp [closing]
  · have hc : c ≠ '-' := fun hc => ht (by rw [hc])
    simp [hc]
  · rfl

omit [UnicodeNames] in
theorem classRange_local {s rest : List Char} (h : classRange s = some rest) :
    rest.length < s.length ∧
      (rest ≠ ['-'] → classRange (s ++ closing) = some (rest ++ closing)) := by
  unfold classRange at h ⊢
  cases hlo : parseClassChar s with
  | none => simp [hlo] at h
  | some r =>
    obtain ⟨lo, t⟩ := r
    obtain ⟨hlen, hext⟩ := parseClassChar_local hlo
    simp only [hlo, hext] at h ⊢
    by_cases ht : t = ['-']
    · subst ht
      obtain rfl : ['-'] = rest := by simpa using h
      exact ⟨hlen, fun hrest => absurd rfl hrest⟩
    · simp only [isRange_closing ht]
      split_ifs at h ⊢ with hrange
      · cases hhi : parseClassChar t.tail with
        | none => simp [hhi] at h
        | some r' =>
          obtain ⟨hi, t'⟩ := r'
          have hne : t ≠ [] := by
            rintro rfl
            simp at hrange
          obtain ⟨hlen', hext'⟩ := parseClassChar_local hhi
          rw [tail_append_closing hne, hext']
          simp only [hhi] at h ⊢
          split_ifs at h ⊢
          obtain rfl := Option.some.inj h
          simp only [List.length_tail] at hlen'
          exact ⟨by omega, fun _ => rfl⟩
      · obtain rfl := Option.some.inj h
        exact ⟨hlen, fun _ => rfl⟩

theorem classItem_local {s rest : List Char} (h : classItem s = some rest) :
    rest.length < s.length ∧
      (rest ≠ ['-'] → classItem (s ++ closing) = some (rest ++ closing)) := by
  cases s with
  | nil => simp [classItem] at h
  | cons c t =>
    have hperl : ((t ++ closing).head?.any isPerlClass) = t.head?.any isPerlClass := by
      cases t with
      | nil => decide
      | cons d t => rfl
    rw [classItem] at h
    rw [List.cons_append, classItem]
    simp only [head?_closing_eq (show ':' ≠ ')' by decide),
      head?_closing_eq (show 'p' ≠ ')' by decide), head?_closing_eq (show 'P' ≠ ')' by decide),
      hperl]
    split_ifs at h ⊢ with hposix hunicode hperl
    · have hne : t ≠ [] := by
        rintro rfl
        simp at hposix
      rw [tail_append_closing hne]
      cases hcut : cut2 ':' ']' t.tail with
      | none =>
        simp only [hcut] at h
        rw [cut2_none (by decide) (by decide) hcut]
        exact classRange_local h
      | some r =>
        obtain ⟨hlen, hext⟩ := cut2_local (by decide) hcut
        rw [hext]
        simp only [hcut] at h ⊢
        split_ifs at h ⊢
        obtain rfl := Option.some.inj h
        simp only [List.length_tail] at hlen
        exact ⟨by simp only [List.length_cons]; omega, fun _ => rfl⟩
    · have hne : t ≠ [] := by
        rintro rfl
        simp at hunicode
      rw [tail_append_closing hne]
      obtain ⟨hlen, hext⟩ := parseUnicodeClass_local h
      simp only [List.length_tail] at hlen
      exact ⟨by simp only [List.length_cons]; omega, fun _ => hext⟩
    · have hne : t ≠ [] := by
        rintro rfl
        simp at hperl
      rw [tail_append_closing hne]
      obtain rfl := Option.some.inj h
      exact ⟨by simp only [List.length_tail, List.length_cons]; omega, fun _ => rfl⟩
    · exact classRange_local h

end

theorem captureName_local {s rest : List Char} (h : captureName s = some rest) :
    rest.length < s.length ∧ captureName (s ++ closing) = some (rest ++ closing) := by
  unfold captureName at h ⊢
  cases hcut : cut '>' s with
  | none => simp [hcut] at h
  | some r =>
    obtain ⟨hlen, hext⟩ := cut_local hcut
    rw [hext]
    simp only [hcut] at h ⊢
    split_ifs at h ⊢
    obtain rfl := Option.some.inj h
    exact ⟨hlen, rfl⟩

theorem flags_local {negated sawFlag opens : Bool} {s rest : List Char}
    (h : flags negated sawFlag s = some (opens, rest)) :
    rest.length < s.length ∧
      flags negated sawFlag (s ++ closing) = some (opens, rest ++ closing) := by
  induction s generalizing negated sawFlag with
  | nil => simp [flags] at h
  | cons c t ih =>
    rw [flags] at h
    rw [List.cons_append, flags]
    split_ifs at h ⊢ with hflag hdash hneg hend hsaw
    · obtain ⟨hlen, hext⟩ := ih h
      exact ⟨by simp only [List.length_cons]; omega, hext⟩
    · obtain ⟨hlen, hext⟩ := ih h
      exact ⟨by simp only [List.length_cons]; omega, hext⟩
    · obtain ⟨rfl, rfl⟩ := Prod.mk.inj (Option.some.inj h)
      simp

theorem parsePerlFlags_local {opens : Bool} {s rest : List Char}
    (h : parsePerlFlags s = some (opens, rest)) :
    rest.length < s.length ∧ parsePerlFlags (s ++ closing) = some (opens, rest ++ closing) := by
  cases s with
  | nil => simp [parsePerlFlags] at h
  | cons c t =>
    rw [parsePerlFlags] at h
    rw [List.cons_append, parsePerlFlags]
    simp only [head?_closing_eq (show '<' ≠ ')' by decide)]
    split_ifs at h ⊢ with hname hP
    · obtain ⟨rest', hcapture, hr⟩ := Option.map_eq_some_iff.mp h
      obtain ⟨rfl, rfl⟩ := Prod.mk.inj hr
      obtain ⟨hlen, hext⟩ := captureName_local hcapture
      rw [hext]
      exact ⟨by simp only [List.length_cons]; omega, rfl⟩
    · have hne : t ≠ [] := by
        rintro rfl
        simp at hP
      obtain ⟨rest', hcapture, hr⟩ := Option.map_eq_some_iff.mp h
      obtain ⟨rfl, rfl⟩ := Prod.mk.inj hr
      obtain ⟨hlen, hext⟩ := captureName_local hcapture
      rw [tail_append_closing hne, hext]
      simp only [List.length_tail] at hlen
      exact ⟨by simp only [List.length_cons]; omega, rfl⟩
    · exact flags_local h

theorem takeWhile_digits_closing (t : List Char) :
    (t ++ closing).takeWhile Char.isDigit = t.takeWhile Char.isDigit ∧
      (t ++ closing).dropWhile Char.isDigit = t.dropWhile Char.isDigit ++ closing := by
  induction t with
  | nil => decide
  | cons c t ih => by_cases hc : c.isDigit <;> simp [hc, ih]

/-- Where no bound is found there is none with the closing either. -/
theorem parseInt_closing (t : List Char) :
    parseInt (t ++ closing) = (parseInt t).map fun r => (r.1, r.2 ++ closing) := by
  obtain ⟨htake, hdrop⟩ := takeWhile_digits_closing t
  simp only [parseInt, htake, hdrop]
  split_ifs <;> rfl

theorem parseInt_length {t rest : List Char} {n : ℕ} (h : parseInt t = some (n, rest)) :
    rest.length < t.length := by
  simp only [parseInt] at h
  split_ifs at h with hdigits
  obtain ⟨-, rfl⟩ := Prod.mk.inj (Option.some.inj h)
  rw [not_or] at hdigits
  have hsplit := congrArg List.length (List.takeWhile_append_dropWhile (p := Char.isDigit) (l := t))
  rw [List.length_append] at hsplit
  have hpos := List.length_pos_iff.mpr hdigits.1
  omega

theorem parseRepeat_closing (t : List Char) :
    parseRepeat (t ++ closing) = (parseRepeat t).map fun r => (r.1, r.2 ++ closing) := by
  unfold parseRepeat
  rw [parseInt_closing]
  rcases parseInt t with _ | ⟨min, _ | ⟨c, rest⟩⟩
  · rfl
  · rfl
  · simp only [Option.map_some, List.cons_append, head?_closing_eq (show '}' ≠ ')' by decide),
      parseInt_closing]
    split_ifs with hclose hcomma hopen
    · rfl
    · have hne : rest ≠ [] := by
        rintro rfl
        simp at hopen
      rw [tail_append_closing hne]
      rfl
    · rcases parseInt rest with _ | ⟨max, _ | ⟨d, rest'⟩⟩
      · rfl
      · rfl
      · simp only [Option.map_some, List.cons_append]
        split_ifs <;> rfl
    · rfl

theorem parseRepeat_length {t rest : List Char} {bounds : ℕ × Option ℕ}
    (h : parseRepeat t = some (bounds, rest)) : rest.length < t.length := by
  unfold parseRepeat at h
  cases hmin : parseInt t with
  | none => simp [hmin] at h
  | some r =>
    obtain ⟨min, _ | ⟨c, t'⟩⟩ := r
    · simp [hmin] at h
    · have hlen := parseInt_length hmin
      simp only [hmin] at h
      simp only [List.length_cons] at hlen
      split_ifs at h with hclose hcomma hopen
      · obtain ⟨-, rfl⟩ := Prod.mk.inj (Option.some.inj h)
        omega
      · obtain ⟨-, rfl⟩ := Prod.mk.inj (Option.some.inj h)
        rw [List.length_tail]
        omega
      · cases hmax : parseInt t' with
        | none => simp [hmax] at h
        | some r' =>
          obtain ⟨max, _ | ⟨d, t''⟩⟩ := r'
          · simp [hmax] at h
          · have hlen' := parseInt_length hmax
            simp only [hmax] at h
            split_ifs at h
            obtain ⟨-, rfl⟩ := Prod.mk.inj (Option.some.inj h)
            simp only [List.length_cons] at hlen'
            omega

theorem skip_closing {x : Char} (hx : x ≠ ')') (t : List Char) :
    skip x (t ++ closing) = skip x t ++ closing := by
  cases t with
  | nil => simp [skip, closing, Ne.symm hx]
  | cons c t =>
    rw [List.cons_append, skip, skip]
    split_ifs <;> rfl

theorem skip_length (x : Char) (t : List Char) : (skip x t).length ≤ t.length := by
  cases t with
  | nil => rfl
  | cons c t =>
    rw [skip]
    split_ifs <;> simp

/-! ### Tokens within a group -/

namespace State

/-- The parser within one more group. -/
def under (st : State) (f : Frame) : State := { st with outer := st.outer ++ [f] }

theorem closeGroup_under {st st' : State} (h : st.closeGroup = some st') (f : Frame) :
    (st.under f).closeGroup = some (st'.under f) := by
  unfold closeGroup at h
  cases houter : st.outer with
  | nil => simp [houter] at h
  | cons g outer =>
    simp only [houter] at h
    obtain rfl := Option.some.inj h
    simp [closeGroup, under, houter]

theorem repeatAny_under (st : State) (f : Frame) :
    (st.under f).repeatAny = st.repeatAny.map (under · f) := by
  change (if (st.repeated || st.frame.last.isNone) = true then none else _) = _
  unfold repeatAny
  split_ifs <;> rfl

theorem repeatBounded_under (st : State) (min : ℕ) (max : Option ℕ) (f : Frame) :
    (st.under f).repeatBounded min max = (st.repeatBounded min max).map (under · f) := by
  change (if 1000 < min ∨ (max.any fun m => 1000 < m ∨ m < min) then none
    else if st.repeated then none else _) = _
  unfold repeatBounded
  split_ifs
  · rfl
  · rfl
  · cases hlast : st.frame.last with
    | none => simp [under, hlast]
    | some copies =>
      simp only [under, hlast]
      split_ifs <;> rfl

end State

section
variable [UnicodeNames] {st st' : State} {t t' : List Char} (f : Frame)

theorem backslash_local (h : backslash st t = some (st', t')) :
    t'.length < t.length ∧
      backslash (st.under f) (t ++ closing) = some (st'.under f, t' ++ closing) := by
  cases t with
  | nil => simp [backslash] at h
  | cons c t =>
    rw [backslash] at h
    rw [List.cons_append, backslash]
    split_ifs at h ⊢ with hitem hquote hunicode
    · obtain ⟨rfl, rfl⟩ := Prod.mk.inj (Option.some.inj h)
      exact ⟨by simp, rfl⟩
    · obtain ⟨rfl, rfl⟩ := Prod.mk.inj (Option.some.inj h)
      exact ⟨by simp, rfl⟩
    · obtain ⟨rest, hclass, hr⟩ := Option.map_eq_some_iff.mp h
      obtain ⟨rfl, rfl⟩ := Prod.mk.inj hr
      obtain ⟨hlen, hext⟩ := parseUnicodeClass_local hclass
      rw [hext]
      exact ⟨by simp only [List.length_cons]; omega, rfl⟩
    · obtain ⟨⟨v, rest⟩, hescape, hr⟩ := Option.map_eq_some_iff.mp h
      obtain ⟨rfl, rfl⟩ := Prod.mk.inj hr
      obtain ⟨hlen, hext⟩ := parseEscape_local hescape
      rw [List.cons_append] at hext
      rw [hext]
      exact ⟨hlen, rfl⟩

theorem exprToken_local {c : Char} (h : exprToken st c t = some (st', t')) :
    t'.length ≤ t.length ∧
      exprToken (st.under f) c (t ++ closing) = some (st'.under f, t' ++ closing) := by
  unfold exprToken at h ⊢
  simp only [head?_closing_eq (show '?' ≠ ')' by decide)]
  split_ifs at h ⊢ with hopen hflags hbar hclose hclass hany hbrace hback
  · have hne : t ≠ [] := by
      rintro rfl
      simp at hflags
    obtain ⟨⟨opens, rest⟩, hread, hr⟩ := Option.map_eq_some_iff.mp h
    simp only [Prod.mk.injEq] at hr
    obtain ⟨rfl, rfl⟩ := hr
    obtain ⟨hlen, hext⟩ := parsePerlFlags_local hread
    rw [tail_append_closing hne, hext]
    simp only [List.length_tail] at hlen
    refine ⟨by omega, ?_⟩
    cases opens <;> rfl
  · obtain ⟨rfl, rfl⟩ := Prod.mk.inj (Option.some.inj h)
    exact ⟨le_rfl, rfl⟩
  · obtain ⟨rfl, rfl⟩ := Prod.mk.inj (Option.some.inj h)
    exact ⟨le_rfl, rfl⟩
  · obtain ⟨st₁, hgroup, hr⟩ := Option.map_eq_some_iff.mp h
    obtain ⟨rfl, rfl⟩ := Prod.mk.inj hr
    rw [State.closeGroup_under hgroup f]
    exact ⟨le_rfl, rfl⟩
  · obtain ⟨rfl, rfl⟩ := Prod.mk.inj (Option.some.inj h)
    rw [skip_closing (by decide)]
    exact ⟨skip_length '^' t, rfl⟩
  · obtain ⟨st₁, hrepeat, hr⟩ := Option.map_eq_some_iff.mp h
    obtain ⟨rfl, rfl⟩ := Prod.mk.inj hr
    rw [State.repeatAny_under, hrepeat, skip_closing (by decide)]
    exact ⟨skip_length '?' t, rfl⟩
  · rw [parseRepeat_closing]
    cases hbounds : parseRepeat t with
    | none =>
      simp only [hbounds] at h
      obtain ⟨rfl, rfl⟩ := Prod.mk.inj (Option.some.inj h)
      exact ⟨le_rfl, rfl⟩
    | some r =>
      obtain ⟨⟨min, max⟩, rest⟩ := r
      have hlen := parseRepeat_length hbounds
      simp only [hbounds] at h
      obtain ⟨st₁, hrepeat, hr⟩ := Option.map_eq_some_iff.mp h
      obtain ⟨rfl, rfl⟩ := Prod.mk.inj hr
      simp only [Option.map_some, State.repeatBounded_under, hrepeat,
        skip_closing (show '?' ≠ ')' by decide), and_true]
      exact (skip_length '?' rest).trans hlen.le
  · obtain ⟨hlen, hext⟩ := backslash_local f h
    exact ⟨hlen.le, hext⟩
  · obtain ⟨rfl, rfl⟩ := Prod.mk.inj (Option.some.inj h)
    exact ⟨le_rfl, rfl⟩

/-- What a token does to the parser and to the text is the same within a group that is
closed after the text; only a class may not break off before a dash. -/
theorem step_local (h : step st t = some (st', t')) :
    t'.length < t.length ∧ ((st'.mode = .charClass false → t' ≠ ['-']) →
      step (st.under f) (t ++ closing) = some (st'.under f, t' ++ closing)) := by
  cases t with
  | nil => simp [step] at h
  | cons c t =>
    rw [step] at h
    rw [List.cons_append, step]
    change _ ∧ (_ → (match st.mode with
      | .expr => exprToken (st.under f) c (t ++ closing)
      | .quote => _
      | .charClass first => _) = _)
    cases hmode : st.mode with
    | expr =>
      simp only [hmode] at h
      obtain ⟨hlen, hext⟩ := exprToken_local f h
      exact ⟨Nat.lt_succ_of_le hlen, fun _ => hext⟩
    | quote =>
      simp only [hmode] at h
      simp only [head?_closing_eq (show 'E' ≠ ')' by decide)]
      split_ifs at h ⊢ with hend
      · have hne : t ≠ [] := by
          rintro rfl
          simp at hend
        obtain ⟨rfl, rfl⟩ := Prod.mk.inj (Option.some.inj h)
        rw [tail_append_closing hne]
        exact ⟨by simp only [List.length_tail, List.length_cons]; omega, fun _ => rfl⟩
      · obtain ⟨rfl, rfl⟩ := Prod.mk.inj (Option.some.inj h)
        exact ⟨by simp, fun _ => rfl⟩
    | charClass first =>
      simp only [hmode] at h
      simp only
      split_ifs at h ⊢ with hend
      · obtain ⟨rfl, rfl⟩ := Prod.mk.inj (Option.some.inj h)
        exact ⟨by simp, fun _ => rfl⟩
      · obtain ⟨rest, hitem, hr⟩ := Option.map_eq_some_iff.mp h
        obtain ⟨rfl, rfl⟩ := Prod.mk.inj hr
        obtain ⟨hlen, hext⟩ := classItem_local hitem
        refine ⟨hlen, fun hclass => ?_⟩
        rw [← List.cons_append, hext (hclass rfl)]
        rfl

/-! ### Runs of the parser -/

/-- The parser takes a token. -/
def Step (a b : State × List Char) : Prop := step a.1 a.2 = some b

theorem eq_of_runs_nil {st r : State} {rest : List Char}
    (h : Relation.ReflTransGen Step (st, []) (r, rest)) : r = st ∧ rest = [] := by
  rcases Relation.ReflTransGen.cases_head h with heq | ⟨b, hstep, -⟩
  · obtain ⟨rfl, rfl⟩ := Prod.mk.inj heq
    exact ⟨rfl, rfl⟩
  · cases hstep

theorem parseLoop_nil_iff (n : ℕ) {st r : State} :
    parseLoop n st [] = some r ↔ Relation.ReflTransGen Step (st, []) (r, []) := by
  have hloop : parseLoop n st [] = some st := by
    cases n <;> rfl
  rw [hloop]
  constructor
  · intro h
    obtain rfl := Option.some.inj h
    exact Relation.ReflTransGen.refl
  · intro h
    rw [(eq_of_runs_nil h).1]

/-- Every token shortens the text, so the length of the text bounds their number. -/
theorem parseLoop_eq_some_iff {n : ℕ} {st r : State} {t : List Char} (hn : t.length ≤ n) :
    parseLoop n st t = some r ↔ Relation.ReflTransGen Step (st, t) (r, []) := by
  induction n generalizing st t with
  | zero =>
    obtain rfl := List.length_eq_zero_iff.mp (Nat.le_zero.mp hn)
    exact parseLoop_nil_iff 0
  | succ n ih =>
    cases t with
    | nil => exact parseLoop_nil_iff (n + 1)
    | cons c t =>
      have hle : ∀ {st' t'}, step st (c :: t) = some (st', t') → t'.length ≤ n := by
        intro st' t' hstep
        have hlen := (step_local ⟨1, none⟩ hstep).1
        omega
      rw [parseLoop, Option.bind_eq_some_iff]
      constructor
      · rintro ⟨⟨st', t'⟩, hstep, hloop⟩
        exact Relation.ReflTransGen.head hstep ((ih (hle hstep)).mp hloop)
      · intro h
        rcases Relation.ReflTransGen.cases_head h with heq | ⟨⟨st', t'⟩, hstep, hrest⟩
        · cases (Prod.mk.inj heq).2
        · exact ⟨(st', t'), hstep, (ih (hle hstep)).mpr hrest⟩

/-- A class that breaks off before a dash is not closed. -/
theorem not_complete_of_dash {st r : State} (hst : st.mode = .charClass false)
    (h : Relation.ReflTransGen Step (st, ['-']) (r, [])) : r.mode = .charClass false := by
  rcases Relation.ReflTransGen.cases_head h with heq | ⟨⟨st', t'⟩, hstep, hrest⟩
  · cases (Prod.mk.inj heq).2
  · have hdash : step st ['-'] = some ({ st with mode := .charClass false }, []) := by
      simp only [step, hst]
      rfl
    obtain ⟨rfl, rfl⟩ := Prod.mk.inj (Option.some.inj (hstep.symm.trans hdash))
    rw [(eq_of_runs_nil hrest).1]

/-- A run that does not end within a class goes through in the same way within a group. -/
theorem runs_under {st r : State} {t : List Char} (hr : r.mode ≠ .charClass false)
    (h : Relation.ReflTransGen Step (st, t) (r, [])) (f : Frame) :
    Relation.ReflTransGen Step (st.under f, t ++ closing) (r.under f, closing) := by
  generalize hend : (r, ([] : List Char)) = last at h
  generalize hstart : (st, t) = start at h
  induction h using Relation.ReflTransGen.head_induction_on generalizing st t with
  | refl =>
    obtain ⟨rfl, rfl⟩ := Prod.mk.inj (hstart.trans hend.symm)
    exact Relation.ReflTransGen.refl
  | head hstep hrest ih =>
    rename_i a b
    subst hstart hend
    obtain ⟨st', t'⟩ := b
    refine Relation.ReflTransGen.head ((step_local f hstep).2 fun hmode hdash => ?_) (ih rfl)
    subst hdash
    exact hr (not_complete_of_dash hmode hrest)

/-- The characters before the text in an anchored expression. -/
def opening : List Char := ['^', '(', '?', ':']

/-- An accepted text is parsed within the group of the anchored expression, up to its
closing. -/
theorem runs_anchored {t : List Char} {r : State} (hr : r.mode ≠ .charClass false)
    (h : parse t = some r) :
    Relation.ReflTransGen Step (State.init, opening ++ t ++ closing)
      (r.under ⟨1, some 1⟩, closing) := by
  have hrun := runs_under hr ((parseLoop_eq_some_iff le_rfl).mp h) ⟨1, some 1⟩
  have hanchor : Step (State.init, opening ++ t ++ closing)
      (State.init.item, '(' :: '?' :: ':' :: (t ++ closing)) := rfl
  have hgroup : Step (State.init.item, '(' :: '?' :: ':' :: (t ++ closing))
      (State.init.under ⟨1, some 1⟩, t ++ closing) := rfl
  exact (hrun.head hgroup).head hanchor

/-- The closing ends the group if the text is not quoted at its end, else it is quoted
itself. -/
theorem parse_anchored {t : List Char} {r : State} (hr : r.complete = true)
    (h : parse t = some r) : ∃ r', parse (opening ++ t ++ closing) = some r' ∧
      (r'.complete = true ↔ r.mode ≠ .quote) := by
  have hcomplete : r.outer = [] ∧ r.mode ≠ .charClass true ∧ r.mode ≠ .charClass false := by
    simpa [State.complete, and_assoc] using hr
  have hrun := runs_anchored hcomplete.2.2 h
  have hparse : ∀ {r'}, Relation.ReflTransGen Step (r.under ⟨1, some 1⟩, closing) (r', []) →
      parse (opening ++ t ++ closing) = some r' :=
    fun hclose => (parseLoop_eq_some_iff le_rfl).mpr (hrun.trans hclose)
  obtain ⟨mode, frame, outer, repeated⟩ := r
  obtain ⟨rfl, hfirst, hclass⟩ := hcomplete
  cases mode with
  | expr =>
    refine ⟨_, hparse (.head (b := (_, ['$'])) rfl (.single rfl)), ?_⟩
    simp [State.complete, State.item, State.under]
  | quote =>
    refine ⟨_, hparse (.head (b := (_, ['$'])) rfl (.single rfl)), ?_⟩
    simp [State.complete, State.item, State.under]
  | charClass first => cases first <;> contradiction

/-- An accepted expression is accepted between `^(?:` and `)$` if and only if it does not
end within a quotation. -/
theorem accepts_anchored {s : GoString} (h : accepts s = true) :
    accepts (str "^(?:" ++ s ++ str ")$") = !endsQuoted s := by
  obtain ⟨r, hr, hcomplete⟩ := (Option.any_eq_true _ _).mp h
  obtain ⟨t, ht, hparse⟩ := Option.bind_eq_some_iff.mp hr
  obtain ⟨r', hr', hiff⟩ := parse_anchored hcomplete hparse
  have hdecode : Utf8.decode (str "^(?:" ++ s ++ str ")$") = some (opening ++ t ++ closing) :=
    Utf8.decode_append (Utf8.decode_append (by decide +kernel) ht) (by decide +kernel)
  have hanchored : accepts (str "^(?:" ++ s ++ str ")$") = r'.complete := by
    rw [accepts, hdecode, Option.bind_some, hr', Option.any_some]
  have hquoted : endsQuoted s = decide (r.mode = .quote) := by
    rw [endsQuoted, hr, Option.any_some]
  rw [hanchored, hquoted, Bool.eq_iff_iff, hiff]
  simp

end

end Re2

end Alertmanager
