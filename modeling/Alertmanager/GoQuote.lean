import Alertmanager.SelfDelimiting
import Alertmanager.Wire

/-!
# Quoted strings

`strconv.Quote` and the decoding of UTF-8 by which it walks through a string. A byte
that begins no valid sequence stands alone. Which runes are printable is a table of
the `unicode` package and a parameter here: whatever the table says, a quoted string is
delimited by its quotes.
-/
namespace Alertmanager

/-- `unicode.IsPrint`. -/
class Unicode where
  isPrint : ℕ → Bool

abbrev asciiUnicode : Unicode := ⟨fun r => decide (32 ≤ r ∧ r ≤ 126)⟩

namespace Utf8

/-- The bytes are the encoding of a rune. -/
def isRune : GoString → Bool
  | [b0] => b0 < 0x80
  | [b0, b1] => 0xC2 ≤ b0 && b0 ≤ 0xDF && isCont b1
  | [b0, b1, b2] => 0xE0 ≤ b0 && b0 ≤ 0xEF && second3 b0 b1 && isCont b2
  | [b0, b1, b2, b3] =>
    0xF0 ≤ b0 && b0 ≤ 0xF4 && second4 b0 b1 && isCont b2 && isCont b3
  | _ => false

/-- The number of values that the first byte of an encoding has for the rune. -/
def leading : ℕ → ℕ
  | 0 => 128
  | 1 => 32
  | 2 => 16
  | _ => 8

/-- The rune that the bytes encode. -/
def rune : GoString → ℕ
  | [] => 0
  | b0 :: bs => bs.foldl (fun r b => r * 64 + b.toNat % 64) (b0.toNat % leading bs.length)

/-- The bytes of the runes of a string, as `utf8.DecodeRuneInString` finds them. -/
def runes : GoString → List GoString
  | [] => []
  | b0 :: s1 =>
    if isRune [b0] then [b0] :: runes s1
    else match s1 with
      | [] => [[b0]]
      | b1 :: s2 =>
        if isRune [b0, b1] then [b0, b1] :: runes s2
        else match s2 with
          | [] => [b0] :: runes [b1]
          | b2 :: s3 =>
            if isRune [b0, b1, b2] then [b0, b1, b2] :: runes s3
            else match s3 with
              | [] => [b0] :: runes [b1, b2]
              | b3 :: s4 =>
                if isRune [b0, b1, b2, b3] then [b0, b1, b2, b3] :: runes s4
                else [b0] :: runes (b1 :: b2 :: b3 :: s4)

/-- A piece of a string: the encoding of a rune, or a byte that is none. -/
def IsPiece (c : GoString) : Prop := isRune c = true ∨ ∃ b, c = [b] ∧ 0x80 ≤ b

theorem isPiece_singleton (b : UInt8) : IsPiece [b] := by
  by_cases hb : b < 0x80
  · exact Or.inl (by simpa [isRune] using hb)
  · exact Or.inr ⟨b, rfl, UInt8.not_lt.mp hb⟩

theorem flatten_runes (s : GoString) : (runes s).flatten = s := by
  fun_induction runes s <;> simp_all

theorem isPiece_of_mem_runes {s c : GoString} (h : c ∈ runes s) : IsPiece c := by
  fun_induction runes s <;> grind [isPiece_singleton, IsPiece]

theorem runes_injective : Function.Injective runes := by
  intro s t h
  rw [← flatten_runes s, h, flatten_runes]

/-- The first byte of an encoding tells its length. -/
theorem eq_of_isRune_append {c d s t : GoString} (hc : isRune c = true) (hd : isRune d = true)
    (h : c ++ s = d ++ t) : c = d ∧ s = t := by
  match c, d with
  | [_], [_] | [_, _], [_, _] | [_, _, _], [_, _, _] | [_, _, _, _], [_, _, _, _] =>
    simpa [and_assoc] using h
  | [_], [_, _] | [_], [_, _, _] | [_], [_, _, _, _] | [_, _], [_] | [_, _], [_, _, _]
  | [_, _], [_, _, _, _] | [_, _, _], [_] | [_, _, _], [_, _] | [_, _, _], [_, _, _, _]
  | [_, _, _, _], [_] | [_, _, _, _], [_, _] | [_, _, _, _], [_, _, _] =>
    exfalso
    simp only [isRune, Bool.and_eq_true, decide_eq_true_eq, List.cons_append,
      List.cons.injEq] at hc hd h
    obtain ⟨rfl, -⟩ := h
    simp only [UInt8.lt_iff_toNat_lt, UInt8.le_iff_toNat_le] at hc hd
    simp at hc hd
    omega
  | [], _ => simp [isRune] at hc
  | _, [] => simp [isRune] at hd
  | _ :: _ :: _ :: _ :: _ :: _, _ => simp [isRune] at hc
  | _, _ :: _ :: _ :: _ :: _ :: _ => simp [isRune] at hd

/-- The encodings by their lengths, with the ranges of the bytes. -/
inductive Encoding : GoString → Prop
  | one (b0 : UInt8) (h0 : b0.toNat < 0x80) : Encoding [b0]
  | two (b0 b1 : UInt8) (h0 : 0xC2 ≤ b0.toNat ∧ b0.toNat ≤ 0xDF)
      (h1 : 0x80 ≤ b1.toNat ∧ b1.toNat ≤ 0xBF) : Encoding [b0, b1]
  | three (b0 b1 b2 : UInt8) (h0 : 0xE0 ≤ b0.toNat ∧ b0.toNat ≤ 0xEF)
      (h1 : 0x80 ≤ b1.toNat ∧ b1.toNat ≤ 0xBF) (h01 : b0.toNat = 0xE0 → 0xA0 ≤ b1.toNat)
      (h2 : 0x80 ≤ b2.toNat ∧ b2.toNat ≤ 0xBF) : Encoding [b0, b1, b2]
  | four (b0 b1 b2 b3 : UInt8) (h0 : 0xF0 ≤ b0.toNat ∧ b0.toNat ≤ 0xF4)
      (h1 : 0x80 ≤ b1.toNat ∧ b1.toNat ≤ 0xBF) (h01 : b0.toNat = 0xF0 → 0x90 ≤ b1.toNat)
      (h2 : 0x80 ≤ b2.toNat ∧ b2.toNat ≤ 0xBF) (h3 : 0x80 ≤ b3.toNat ∧ b3.toNat ≤ 0xBF) :
      Encoding [b0, b1, b2, b3]

theorem isCont_iff {b : UInt8} : isCont b = true ↔ 0x80 ≤ b.toNat ∧ b.toNat ≤ 0xBF := by
  simp [isCont, UInt8.le_iff_toNat_le]

theorem second3_bounds {b0 b1 : UInt8} (h : second3 b0 b1 = true) :
    (0x80 ≤ b1.toNat ∧ b1.toNat ≤ 0xBF) ∧ (b0.toNat = 0xE0 → 0xA0 ≤ b1.toNat) := by
  simp only [second3, Bool.and_eq_true, UInt8.le_iff_toNat_le, ← UInt8.toNat_inj] at h
  simp only [UInt8.reduceToNat] at h
  split_ifs at h <;> simp only [decide_eq_true_eq] at h <;> omega

theorem second4_bounds {b0 b1 : UInt8} (h : second4 b0 b1 = true) :
    (0x80 ≤ b1.toNat ∧ b1.toNat ≤ 0xBF) ∧ (b0.toNat = 0xF0 → 0x90 ≤ b1.toNat) := by
  simp only [second4, Bool.and_eq_true, UInt8.le_iff_toNat_le, ← UInt8.toNat_inj] at h
  simp only [UInt8.reduceToNat] at h
  split_ifs at h <;> simp only [decide_eq_true_eq] at h <;> omega

theorem encoding_of_isRune {c : GoString} (h : isRune c = true) : Encoding c := by
  match c with
  | [b0] => exact .one b0 (by simpa [isRune, UInt8.lt_iff_toNat_lt] using h)
  | [b0, b1] =>
    simp only [isRune, Bool.and_eq_true, decide_eq_true_eq, UInt8.le_iff_toNat_le] at h
    exact .two b0 b1 h.1 (isCont_iff.mp h.2)
  | [b0, b1, b2] =>
    simp only [isRune, Bool.and_eq_true, decide_eq_true_eq, UInt8.le_iff_toNat_le] at h
    obtain ⟨⟨h0, h1⟩, h2⟩ := h
    exact .three b0 b1 b2 h0 (second3_bounds h1).1 (second3_bounds h1).2 (isCont_iff.mp h2)
  | [b0, b1, b2, b3] =>
    simp only [isRune, Bool.and_eq_true, decide_eq_true_eq, UInt8.le_iff_toNat_le] at h
    obtain ⟨⟨⟨h0, h1⟩, h2⟩, h3⟩ := h
    exact .four b0 b1 b2 b3 h0 (second4_bounds h1).1 (second4_bounds h1).2 (isCont_iff.mp h2)
      (isCont_iff.mp h3)
  | [] => simp [isRune] at h
  | _ :: _ :: _ :: _ :: _ :: _ => simp [isRune] at h

/-- `utf8.AppendRune`. -/
def encodeRune (r : ℕ) : GoString :=
  if r < 0x80 then [.ofNat r]
  else if r < 0x800 then [.ofNat (0xC0 + r / 64), .ofNat (0x80 + r % 64)]
  else if r < 0x10000 then
    [.ofNat (0xE0 + r / 4096), .ofNat (0x80 + r / 64 % 64), .ofNat (0x80 + r % 64)]
  else
    [.ofNat (0xF0 + r / 262144), .ofNat (0x80 + r / 4096 % 64), .ofNat (0x80 + r / 64 % 64),
      .ofNat (0x80 + r % 64)]

theorem ofNat_eq_of_toNat {n : ℕ} {b : UInt8} (h : n = b.toNat) : UInt8.ofNat n = b := by
  rw [h, UInt8.ofNat_toNat]

theorem encodeRune_rune {c : GoString} (h : isRune c = true) : encodeRune (rune c) = c := by
  cases encoding_of_isRune h with
  | one b0 h0 =>
    have hrune : rune [b0] = b0.toNat := Nat.mod_eq_of_lt h0
    rw [hrune, encodeRune, if_pos h0, UInt8.ofNat_toNat]
  | two b0 b1 h0 h1 =>
    simp only [rune, leading, encodeRune, List.foldl_cons, List.foldl_nil, List.length_cons,
      List.length_nil]
    rw [if_neg (by omega), if_pos (by omega)]
    simp only [List.cons.injEq, and_true]
    refine ⟨ofNat_eq_of_toNat ?_, ofNat_eq_of_toNat ?_⟩ <;> omega
  | three b0 b1 b2 h0 h1 h01 h2 =>
    simp only [rune, leading, encodeRune, List.foldl_cons, List.foldl_nil, List.length_cons,
      List.length_nil]
    rw [if_neg (by omega), if_neg (by omega), if_pos (by omega)]
    simp only [List.cons.injEq, and_true]
    refine ⟨ofNat_eq_of_toNat ?_, ofNat_eq_of_toNat ?_, ofNat_eq_of_toNat ?_⟩ <;> omega
  | four b0 b1 b2 b3 h0 h1 h01 h2 h3 =>
    simp only [rune, leading, encodeRune, List.foldl_cons, List.foldl_nil, List.length_cons,
      List.length_nil]
    rw [if_neg (by omega), if_neg (by omega), if_neg (by omega)]
    simp only [List.cons.injEq, and_true]
    refine ⟨ofNat_eq_of_toNat ?_, ofNat_eq_of_toNat ?_, ofNat_eq_of_toNat ?_,
      ofNat_eq_of_toNat ?_⟩ <;> omega

theorem rune_injOn {c d : GoString} (hc : isRune c = true) (hd : isRune d = true)
    (h : rune c = rune d) : c = d := by
  rw [← encodeRune_rune hc, h, encodeRune_rune hd]

end Utf8

namespace Strconv

/-- A digit of `lowerhex`. -/
def hexDigit (n : ℕ) : UInt8 := .ofNat (if n < 10 then 48 + n else 87 + n)

/-- A number in the given number of hexadecimal digits. -/
def hex : ℕ → ℕ → GoString
  | 0, _ => []
  | w + 1, n => hex w (n / 16) ++ [hexDigit (n % 16)]

@[simp] theorem length_hex (w n : ℕ) : (hex w n).length = w := by
  induction w generalizing n with
  | zero => rfl
  | succ w ih => simp [hex, ih]

theorem hexDigit_injOn {n m : ℕ} (hn : n < 16) (hm : m < 16) (h : hexDigit n = hexDigit m) :
    n = m := by
  have hvalue := congrArg UInt8.toNat h
  simp only [hexDigit, UInt8.toNat_ofNat'] at hvalue
  split_ifs at hvalue <;> omega

theorem hex_injOn {w n m : ℕ} (hn : n < 16 ^ w) (hm : m < 16 ^ w) (h : hex w n = hex w m) :
    n = m := by
  induction w generalizing n m with
  | zero =>
    rw [Nat.pow_zero, Nat.lt_one_iff] at hn hm
    rw [hn, hm]
  | succ w ih =>
    obtain ⟨hhigh, hlow⟩ := List.append_inj h (by simp)
    have hdiv : n / 16 = m / 16 := by
      refine ih ?_ ?_ hhigh <;> rw [Nat.pow_succ] at hn hm <;> omega
    have hmod : n % 16 = m % 16 :=
      hexDigit_injOn (Nat.mod_lt n (by decide)) (Nat.mod_lt m (by decide))
        (List.cons.inj hlow).1
    omega

/-- What stands for a piece of a string between the quotes: the piece itself, a
backslash with a letter, or a backslash with a number. -/
inductive Escape
  | plain (c : GoString)
  | letter (b : UInt8)
  | byte (n : ℕ)
  | short (n : ℕ)
  | long (n : ℕ)

def Escape.text : Escape → GoString
  | plain c => c
  | letter b => [92, b]
  | byte n => 92 :: 120 :: hex 2 n
  | short n => 92 :: 117 :: hex 4 n
  | long n => 92 :: 85 :: hex 8 n

/-- The letters of the control characters from BEL to CR. -/
def controlLetters : GoString := str "abtnvfr"

/-- The cases of `appendQuotedWith` and `appendEscapedRune`. -/
def escape [Unicode] (c : GoString) : Escape :=
  let r := Utf8.rune c
  if !Utf8.isRune c then .byte (c.headD 0).toNat
  else if r = 34 ∨ r = 92 then .letter (.ofNat r)
  else if Unicode.isPrint r then .plain c
  else if 7 ≤ r ∧ r ≤ 13 then .letter (controlLetters.getD (r - 7) 0)
  else if r < 32 ∨ r = 127 then .byte r
  else if r < 0x10000 then .short r
  else .long r

/-- The text between the quotes. -/
def quoteBody [Unicode] (s : GoString) : GoString :=
  (Utf8.runes s).flatMap fun c => (escape c).text

/-- `strconv.Quote`. -/
def quote [Unicode] (s : GoString) : GoString := 34 :: quoteBody s ++ [34]

/-- The escapes that occur. -/
def Escape.Valid : Escape → Prop
  | plain c => Utf8.isRune c = true ∧ c ≠ [34] ∧ c ≠ [92]
  | letter b => b ≠ 120 ∧ b ≠ 117 ∧ b ≠ 85
  | byte n => n < 16 ^ 2
  | short n => n < 16 ^ 4
  | long n => n < 16 ^ 8

theorem head_plain {c : GoString} (h : (Escape.plain c).Valid) :
    ∃ b bs, c = b :: bs ∧ b ≠ 34 ∧ b ≠ 92 := by
  obtain ⟨hrune, hquote, hbackslash⟩ := h
  have hne : ∀ {b k : UInt8}, k.toNat < 0x80 → 0x80 ≤ b.toNat → b ≠ k := by
    rintro b k hk hb rfl
    omega
  cases Utf8.encoding_of_isRune hrune with
  | one b0 h0 => exact ⟨b0, [], rfl, by simpa using hquote, by simpa using hbackslash⟩
  | two b0 b1 h0 h1 => exact ⟨b0, [b1], rfl, hne (by decide) (by omega), hne (by decide) (by omega)⟩
  | three b0 b1 b2 h0 h1 h01 h2 =>
    exact ⟨b0, [b1, b2], rfl, hne (by decide) (by omega), hne (by decide) (by omega)⟩
  | four b0 b1 b2 b3 h0 h1 h01 h2 h3 =>
    exact ⟨b0, [b1, b2, b3], rfl, hne (by decide) (by omega), hne (by decide) (by omega)⟩

/-- An escape does not begin with a quote. -/
theorem head_text {e : Escape} (h : e.Valid) : ∃ b bs, e.text = b :: bs ∧ b ≠ 34 := by
  cases e with
  | plain c =>
    obtain ⟨b, bs, rfl, hquote, -⟩ := head_plain h
    exact ⟨b, bs, rfl, hquote⟩
  | letter b => exact ⟨92, _, rfl, by decide⟩
  | byte n => exact ⟨92, _, rfl, by decide⟩
  | short n => exact ⟨92, _, rfl, by decide⟩
  | long n => exact ⟨92, _, rfl, by decide⟩

/-- Numbers with the same number of digits. -/
theorem hex_append {w n m : ℕ} {s t : GoString} (hn : n < 16 ^ w) (hm : m < 16 ^ w)
    (h : hex w n ++ s = hex w m ++ t) : n = m ∧ s = t := by
  obtain ⟨hhex, hst⟩ := List.append_inj h (by simp)
  exact ⟨hex_injOn hn hm hhex, hst⟩

/-- A piece is told from the other escapes by its first byte, these from each other by
their second one. -/
theorem text_selfDelimiting : SelfDelimiting Escape.Valid Escape.text := by
  have hplain : ∀ {c x s t}, (Escape.plain c).Valid → c ++ s ≠ 92 :: x ++ t := by
    intro c x s t hc heq
    obtain ⟨b, bs, rfl, -, hb⟩ := head_plain hc
    exact hb (List.cons.inj heq).1
  intro d e hd he s t heq
  cases d with
  | plain c =>
    cases e with
    | plain c' =>
      obtain ⟨rfl, hst⟩ := Utf8.eq_of_isRune_append hd.1 he.1 heq
      exact ⟨rfl, hst⟩
    | letter b => exact absurd heq (hplain hd)
    | byte m => exact absurd heq (hplain hd)
    | short m => exact absurd heq (hplain hd)
    | long m => exact absurd heq (hplain hd)
  | letter a =>
    cases e with
    | plain c => exact absurd heq.symm (hplain he)
    | letter b => simpa [Escape.text] using heq
    | byte m => exact absurd (by simpa [Escape.text] using heq : a = 120 ∧ _).1 hd.1
    | short m => exact absurd (by simpa [Escape.text] using heq : a = 117 ∧ _).1 hd.2.1
    | long m => exact absurd (by simpa [Escape.text] using heq : a = 85 ∧ _).1 hd.2.2
  | byte n =>
    cases e with
    | plain c => exact absurd heq.symm (hplain he)
    | letter b => exact absurd (by simpa [Escape.text] using heq : 120 = b ∧ _).1.symm he.1
    | byte m =>
      obtain ⟨rfl, hst⟩ := hex_append hd he (by simpa [Escape.text] using heq)
      exact ⟨rfl, hst⟩
    | short m => simp [Escape.text] at heq
    | long m => simp [Escape.text] at heq
  | short n =>
    cases e with
    | plain c => exact absurd heq.symm (hplain he)
    | letter b => exact absurd (by simpa [Escape.text] using heq : 117 = b ∧ _).1.symm he.2.1
    | short m =>
      obtain ⟨rfl, hst⟩ := hex_append hd he (by simpa [Escape.text] using heq)
      exact ⟨rfl, hst⟩
    | byte m => simp [Escape.text] at heq
    | long m => simp [Escape.text] at heq
  | long n =>
    cases e with
    | plain c => exact absurd heq.symm (hplain he)
    | letter b => exact absurd (by simpa [Escape.text] using heq : 85 = b ∧ _).1.symm he.2.2
    | long m =>
      obtain ⟨rfl, hst⟩ := hex_append hd he (by simpa [Escape.text] using heq)
      exact ⟨rfl, hst⟩
    | byte m => simp [Escape.text] at heq
    | short m => simp [Escape.text] at heq

/-- How a piece is escaped. -/
inductive Escaped (c : GoString) : Escape → Prop
  | invalid (b : UInt8) (hc : c = [b]) (hb : 0x80 ≤ b.toNat) : Escaped c (.byte b.toNat)
  | quote (hc : Utf8.isRune c = true) (hr : Utf8.rune c = 34 ∨ Utf8.rune c = 92) :
      Escaped c (.letter (.ofNat (Utf8.rune c)))
  | print (hc : Utf8.isRune c = true) (hr : ¬ (Utf8.rune c = 34 ∨ Utf8.rune c = 92)) :
      Escaped c (.plain c)
  | control (hc : Utf8.isRune c = true) (hr : 7 ≤ Utf8.rune c ∧ Utf8.rune c ≤ 13) :
      Escaped c (.letter (controlLetters.getD (Utf8.rune c - 7) 0))
  | byte (hc : Utf8.isRune c = true) (hr : Utf8.rune c < 0x80) : Escaped c (.byte (Utf8.rune c))
  | short (hc : Utf8.isRune c = true) (hr : Utf8.rune c < 0x10000) :
      Escaped c (.short (Utf8.rune c))
  | long (hc : Utf8.isRune c = true) : Escaped c (.long (Utf8.rune c))

theorem escaped_escape [Unicode] {c : GoString} (h : Utf8.IsPiece c) : Escaped c (escape c) := by
  simp only [escape]
  split_ifs with hc hquote hprint hcontrol hlow hshort
  · obtain hrune | ⟨b, rfl, hb⟩ := h
    · simp [hrune] at hc
    · exact .invalid b rfl hb
  all_goals rw [Bool.not_eq_true', Bool.not_eq_false] at hc
  · exact .quote hc hquote
  · exact .print hc hquote
  · exact .control hc hcontrol
  · exact .byte hc (by omega)
  · exact .short hc hshort
  · exact .long hc

theorem rune_lt {c : GoString} (h : Utf8.isRune c = true) : Utf8.rune c < 16 ^ 8 := by
  cases Utf8.encoding_of_isRune h with
  | one b0 h0 =>
    simp only [Utf8.rune, Utf8.leading, List.foldl_nil, List.length_nil]
    omega
  | two b0 b1 h0 h1 | three b0 b1 b2 h0 h1 h01 h2 | four b0 b1 b2 b3 h0 h1 h01 h2 h3 =>
    simp only [Utf8.rune, Utf8.leading, List.foldl_cons, List.foldl_nil, List.length_cons,
      List.length_nil]
    omega

theorem controlLetter_valid {n : ℕ} (hn : n ≤ 6) :
    (Escape.letter (controlLetters.getD n 0)).Valid := by
  interval_cases n <;> exact ⟨by decide, by decide, by decide⟩

theorem Escaped.valid {c : GoString} {e : Escape} (h : Escaped c e) : e.Valid := by
  cases h with
  | invalid b hc hb =>
    have := b.toNat_lt
    simp only [Escape.Valid]
    omega
  | quote hc hr =>
    rcases hr with hr | hr
    · rw [hr]
      exact ⟨by decide, by decide, by decide⟩
    · rw [hr]
      exact ⟨by decide, by decide, by decide⟩
  | print hc hr =>
    refine ⟨hc, ?_, ?_⟩
    · rintro rfl
      exact hr (Or.inl rfl)
    · rintro rfl
      exact hr (Or.inr rfl)
  | control hc hr => exact controlLetter_valid (by omega)
  | byte hc hr =>
    simp only [Escape.Valid]
    omega
  | short hc hr => exact hr
  | long hc => exact rune_lt hc

theorem controlLetter_inj {n m : ℕ} (hn : n ≤ 6) (hm : m ≤ 6)
    (h : controlLetters.getD n 0 = controlLetters.getD m 0) : n = m := by
  interval_cases n <;> interval_cases m <;> first | rfl | exact absurd h (by decide)

theorem controlLetter_ne {n r : ℕ} (hn : n ≤ 6) (hr : r = 34 ∨ r = 92) :
    controlLetters.getD n 0 ≠ UInt8.ofNat r := by
  rcases hr with rfl | rfl <;> interval_cases n <;> decide

theorem Escaped.inj {c d : GoString} {e e' : Escape} (hc : Escaped c e) (hd : Escaped d e')
    (h : e = e') : c = d := by
  cases hc with
  | invalid b hcb hb =>
    cases hd with
    | invalid b' hdb hb' => rw [hcb, hdb, UInt8.toNat_inj.mp (Escape.byte.inj h)]
    | byte hd hr =>
      have := Escape.byte.inj h
      omega
    | _ => cases h
  | quote hc hr =>
    cases hd with
    | quote hd hr' =>
      have hletter := Escape.letter.inj h
      refine Utf8.rune_injOn hc hd ?_
      rcases hr with hr | hr <;> rcases hr' with hr' | hr' <;> rw [hr, hr'] at hletter ⊢ <;>
        exact absurd hletter (by decide)
    | control hd hr' =>
      exact absurd (Escape.letter.inj h).symm (controlLetter_ne (by omega) hr)
    | _ => cases h
  | print hc hr =>
    cases hd with
    | print hd hr' => exact Escape.plain.inj h
    | _ => cases h
  | control hc hr =>
    cases hd with
    | quote hd hr' => exact absurd (Escape.letter.inj h) (controlLetter_ne (by omega) hr')
    | control hd hr' =>
      have hn := controlLetter_inj (by omega) (by omega) (Escape.letter.inj h)
      exact Utf8.rune_injOn hc hd (by omega)
    | _ => cases h
  | byte hc hr =>
    cases hd with
    | invalid b hdb hb =>
      have := Escape.byte.inj h
      omega
    | byte hd hr' => exact Utf8.rune_injOn hc hd (Escape.byte.inj h)
    | _ => cases h
  | short hc hr =>
    cases hd with
    | short hd hr' => exact Utf8.rune_injOn hc hd (Escape.short.inj h)
    | _ => cases h
  | long hc =>
    cases hd with
    | long hd => exact Utf8.rune_injOn hc hd (Escape.long.inj h)
    | _ => cases h

theorem quote_selfDelimiting [Unicode] : SelfDelimiting (fun _ => True) quote := by
  have hpiece : SelfDelimiting Utf8.IsPiece fun c => (escape c).text :=
    text_selfDelimiting.comap (fun c hc => (escaped_escape hc).valid)
      fun c d hc hd h => (escaped_escape hc).inj (escaped_escape hd) h
  have hbody := hpiece.closed (z := 34) fun c hc => head_text (escaped_escape hc).valid
  have hstring := hbody.comap (R := fun _ => True) (g := Utf8.runes)
    (fun s _ c hc => Utf8.isPiece_of_mem_runes hc) (fun s t _ _ h => Utf8.runes_injective h)
  exact hstring.separated [34]

end Strconv

end Alertmanager
