import Alertmanager.Utf8Text

/-!
# Numbers and quoted strings read back

`strconv.Atoi` and `strconv.Unquote`, on a platform with 64-bit integers.
-/
namespace Alertmanager

namespace Strconv

/-- `strconv.ErrSyntax` and `strconv.ErrRange`. -/
inductive NumError
  | errSyntax
  | errRange
  deriving DecidableEq

def NumError.text : NumError → GoString
  | errSyntax => str "invalid syntax"
  | errRange => str "value out of range"

/-- The loop of `ParseUint` for base 10, after the digits with the value `n`. -/
def parseUint (n : ℕ) : GoString → Except NumError ℕ
  | [] => .ok n
  | c :: s =>
    if 48 ≤ c ∧ c ≤ 57 then
      let n1 := n * 10 + (c.toNat - 48)
      if 2 ^ 64 ≤ n1 then .error .errRange else parseUint n1 s
    else .error .errSyntax

/-- The value of a number and its sign. -/
def signed (neg : Bool) (digits : GoString) : Except NumError ℤ :=
  if digits = [] then .error .errSyntax
  else (parseUint 0 digits).bind fun un =>
    if neg = false ∧ 2 ^ 63 ≤ un ∨ neg = true ∧ 2 ^ 63 < un then .error .errRange
    else .ok (if neg then -un else un)

/-- `strconv.Atoi`. -/
def atoi : GoString → Except NumError ℤ
  | 43 :: digits => signed false digits
  | 45 :: digits => signed true digits
  | digits => signed false digits

/-- The error of `strconv.Atoi` with what it was called for. -/
def atoiError [Unicode] (s : GoString) (err : NumError) : GoString :=
  str "strconv.Atoi: parsing " ++ quote s ++ str ": " ++ err.text

/-- A hexadecimal digit, as `unhex` reads it. -/
def unhex (b : UInt8) : Option ℕ :=
  if 48 ≤ b ∧ b ≤ 57 then some (b.toNat - 48)
  else if 97 ≤ b ∧ b ≤ 102 then some (b.toNat - 87)
  else if 65 ≤ b ∧ b ≤ 70 then some (b.toNat - 55)
  else none

/-- The given number of digits with the given base, after those with the value `v`. -/
def readDigits (base : ℕ) (digit : UInt8 → Option ℕ) : ℕ → ℕ → GoString → Option (ℕ × GoString)
  | 0, v, s => some (v, s)
  | _ + 1, _, [] => none
  | n + 1, v, b :: s => (digit b).bind fun x => readDigits base digit n (v * base + x) s

def octalDigit (b : UInt8) : Option ℕ := if 48 ≤ b ∧ b ≤ 55 then some (b.toNat - 48) else none

/-- What a letter after a backslash stands for. -/
def controlCharacter (b : UInt8) : Option ℕ :=
  if b ∈ controlLetters then some (7 + controlLetters.idxOf b) else none

/-- `strconv.UnquoteChar` between double quotes: a rune, whether it is to be encoded, and
the rest. -/
def unquoteChar : GoString → Option ((ℕ × Bool) × GoString)
  | [] => none
  | 34 :: _ => none
  | [92] => none
  | 92 :: c :: s =>
    match controlCharacter c with
    | some value => some ((value, false), s)
    | none =>
      if c = 120 then (readDigits 16 unhex 2 0 s).map fun v => ((v.1, false), v.2)
      else if c = 117 ∨ c = 85 then
        (readDigits 16 unhex (if c = 117 then 4 else 8) 0 s).bind fun v =>
          if Utf8.validRune v.1 then some ((v.1, true), v.2) else none
      else if 48 ≤ c ∧ c ≤ 55 then
        (readDigits 8 octalDigit 2 (c.toNat - 48) s).bind fun v =>
          if v.1 > 255 then none else some ((v.1, false), v.2)
      else if c = 92 ∨ c = 34 then some ((c.toNat, false), s)
      else none
  | c :: s =>
    if 0x80 ≤ c then
      some (((Utf8.decodeRune (c :: s)).1, true), (c :: s).drop (Utf8.decodeRune (c :: s)).2)
    else some ((c.toNat, false), s)

/-- What a rune adds to the buffer. -/
def unquotedBytes (value : ℕ) (multibyte : Bool) : GoString :=
  if value < 0x80 ∨ multibyte = false then [.ofNat value] else Utf8.ofRune value

/-- The loop of `unquote`: the text before the closing quote, and what follows it. -/
def unquoteLoop : ℕ → GoString → Option (GoString × GoString)
  | 0, _ => none
  | _ + 1, [] => none
  | fuel + 1, c :: s =>
    if c = 34 then some ([], s)
    else if c = 10 then none
    else (unquoteChar (c :: s)).bind fun r =>
      (unquoteLoop fuel r.2).map fun t => (unquotedBytes r.1.1 r.1.2 ++ t.1, t.2)

/-- `strconv.Unquote` of a text in double quotes. -/
def unquote : GoString → Option GoString
  | 34 :: s => (unquoteLoop (s.length + 1) s).bind fun t => if t.2 = [] then some t.1 else none
  | _ => none

/-! ### Reading back -/

theorem readDigits_add (base : ℕ) (digit : UInt8 → Option ℕ) (m k v : ℕ) (s : GoString) :
    readDigits base digit (m + k) v s =
      (readDigits base digit m v s).bind fun r => readDigits base digit k r.1 r.2 := by
  induction m generalizing v s with
  | zero => rw [Nat.zero_add]; rfl
  | succ m ih =>
    rw [Nat.succ_add]
    cases s with
    | nil => rfl
    | cons b s =>
      simp only [readDigits]
      cases digit b with
      | none => rfl
      | some x => simp only [Option.bind_some, ih]

theorem unhex_hexDigit {n : ℕ} (h : n < 16) : unhex (hexDigit n) = some n := by
  interval_cases n <;> decide

theorem readDigits_hex {w n : ℕ} (h : n < 16 ^ w) (v : ℕ) (s : GoString) :
    readDigits 16 unhex w v (hex w n ++ s) = some (v * 16 ^ w + n, s) := by
  induction w generalizing n s with
  | zero =>
    rw [Nat.pow_zero, Nat.lt_one_iff] at h
    simp [hex, readDigits, h]
  | succ w ih =>
    have hlt : n / 16 < 16 ^ w := by
      rw [Nat.pow_succ] at h
      omega
    have hmod : n % 16 < 16 := Nat.mod_lt n (by decide)
    rw [readDigits_add, hex, List.append_assoc, ih hlt, Option.bind_some, List.singleton_append,
      readDigits, unhex_hexDigit hmod, Option.bind_some, readDigits, Nat.pow_succ]
    congr 2
    rw [Nat.add_mul, Nat.mul_assoc]
    omega

theorem unquoteChar_plain {b : UInt8} {s : GoString} (hquote : b ≠ 34) (hbackslash : b ≠ 92) :
    unquoteChar (b :: s) = if 0x80 ≤ b then
        some (((Utf8.decodeRune (b :: s)).1, true), (b :: s).drop (Utf8.decodeRune (b :: s)).2)
      else some ((b.toNat, false), s) := by
  rw [unquoteChar.eq_def]
  split
  · contradiction
  · rename_i heq
    exact absurd (List.cons.inj heq).1 hquote
  · rename_i heq
    exact absurd (List.cons.inj heq).1 hbackslash
  · rename_i heq
    exact absurd (List.cons.inj heq).1 hbackslash
  · rename_i heq
    obtain ⟨rfl, rfl⟩ := List.cons.inj heq
    rfl

/-- A whole rune stands for itself, unless it is a quote or a backslash. -/
theorem unquoteChar_rune {c : GoString} (hc : Utf8.isRune c = true) (hquote : c ≠ [34])
    (hbackslash : c ≠ [92]) (rest : GoString) :
    ∃ v, unquoteChar (c ++ rest) = some (v, rest) ∧ unquotedBytes v.1 v.2 = c := by
  have hdecode : Utf8.decodeRune (c ++ rest) = (Utf8.rune c, c.length) := by
    rw [Utf8.decodeRune, Utf8.runes_append_of_isRune hc]
    simp [Utf8.pieceRune, hc]
  obtain ⟨b, rfl, hb, hrune⟩ | ⟨hne, hhigh, hrune⟩ := Utf8.piece_cases (Or.inl hc)
  · have hlow : ¬0x80 ≤ b := by
      rw [UInt8.le_iff_toNat_le]
      exact Nat.not_le.mpr hb
    refine ⟨(b.toNat, false), ?_, by simp [unquotedBytes]⟩
    rw [List.singleton_append, unquoteChar_plain (by simpa using hquote)
      (by simpa using hbackslash), if_neg hlow]
  · obtain ⟨b, bs, rfl⟩ := List.exists_cons_of_ne_nil hne
    have hb := hhigh b List.mem_cons_self
    rw [Utf8.pieceRune, if_pos hc] at hrune
    refine ⟨(Utf8.rune (b :: bs), true), ?_, ?_⟩
    · rw [List.cons_append, unquoteChar_plain (by rintro rfl; simp at hb)
        (by rintro rfl; simp at hb), if_pos (by rw [UInt8.le_iff_toNat_le]; exact hb),
        ← List.cons_append, hdecode, List.drop_left]
    · have hof := Utf8.ofRune_pieceRune hc
      rw [Utf8.pieceRune, if_pos hc] at hof
      rw [unquotedBytes, if_neg (by simp; omega), hof]

theorem ofNat_rune {c : GoString} (hc : Utf8.isRune c = true) (hlow : Utf8.rune c < 0x80) :
    [UInt8.ofNat (Utf8.rune c)] = c := by
  have hencode := Utf8.encodeRune_rune hc
  rwa [Utf8.encodeRune, if_pos hlow] at hencode

theorem unquotedBytes_rune {c : GoString} (hc : Utf8.isRune c = true) :
    unquotedBytes (Utf8.rune c) true = c := by
  by_cases hlow : Utf8.rune c < 0x80
  · rw [unquotedBytes, if_pos (Or.inl hlow), ofNat_rune hc hlow]
  · rw [unquotedBytes, if_neg (by simpa using hlow), Utf8.ofRune,
      if_pos (Utf8.validRune_rune hc), Utf8.encodeRune_rune hc]

theorem controlCharacter_letter {n : ℕ} (hn : n ≤ 6) :
    controlCharacter (controlLetters.getD n 0) = some (7 + n) := by
  interval_cases n <;> decide

theorem unquoteChar_byte {n : ℕ} (h : n < 16 ^ 2) (rest : GoString) :
    unquoteChar ((Escape.byte n).text ++ rest) = some ((n, false), rest) := by
  have hcontrol : controlCharacter 120 = none := by decide
  simp only [Escape.text, List.cons_append, unquoteChar, hcontrol, if_true, readDigits_hex h,
    Option.map_some, Nat.zero_mul, Nat.zero_add]

theorem unquoteChar_short {n : ℕ} (h : n < 16 ^ 4) (hvalid : Utf8.validRune n = true)
    (rest : GoString) : unquoteChar ((Escape.short n).text ++ rest) = some ((n, true), rest) := by
  have hcontrol : controlCharacter 117 = none := by decide
  have hne : (117 : UInt8) ≠ 120 := by decide
  simp only [Escape.text, List.cons_append, unquoteChar, hcontrol, hne, true_or, if_true, if_false,
    readDigits_hex h, Option.bind_some, Nat.zero_mul, Nat.zero_add, hvalid]

theorem unquoteChar_long {n : ℕ} (h : n < 16 ^ 8) (hvalid : Utf8.validRune n = true)
    (rest : GoString) : unquoteChar ((Escape.long n).text ++ rest) = some ((n, true), rest) := by
  have hcontrol : controlCharacter 85 = none := by decide
  have hne : (85 : UInt8) ≠ 120 := by decide
  have hne' : (85 : UInt8) ≠ 117 := by decide
  simp only [Escape.text, List.cons_append, unquoteChar, hcontrol, hne, hne', or_true, if_true,
    if_false, readDigits_hex h, Option.bind_some, Nat.zero_mul, Nat.zero_add, hvalid]

/-- An escape is read back. -/
theorem unquoteChar_text {c : GoString} {e : Escape} (h : Escaped c e) (rest : GoString) :
    ∃ v, unquoteChar (e.text ++ rest) = some (v, rest) ∧ unquotedBytes v.1 v.2 = c := by
  cases h with
  | invalid b hc hb =>
    have hlt := b.toNat_lt
    exact ⟨(b.toNat, false), unquoteChar_byte (by omega) rest, by simp [unquotedBytes, hc]⟩
  | quote hc hr =>
    have hbytes := ofNat_rune hc (by omega)
    refine ⟨(Utf8.rune c, false), ?_, by simpa [unquotedBytes] using hbytes⟩
    rcases hr with hr | hr <;> rw [hr] <;> rfl
  | print hc hr =>
    refine unquoteChar_rune hc ?_ ?_ rest
    · rintro rfl
      exact hr (Or.inl rfl)
    · rintro rfl
      exact hr (Or.inr rfl)
  | control hc hr =>
    have hbytes := ofNat_rune hc (by omega)
    have hletter := controlCharacter_letter (n := Utf8.rune c - 7) (by omega)
    rw [Nat.add_sub_cancel' hr.1] at hletter
    refine ⟨(Utf8.rune c, false), ?_, by simpa [unquotedBytes] using hbytes⟩
    simp only [Escape.text, List.cons_append, List.nil_append, unquoteChar, hletter]
  | byte hc hr =>
    exact ⟨(Utf8.rune c, false), unquoteChar_byte (by omega) rest,
      by simpa [unquotedBytes] using ofNat_rune hc hr⟩
  | short hc hr =>
    exact ⟨(Utf8.rune c, true), unquoteChar_short hr (Utf8.validRune_rune hc) rest,
      unquotedBytes_rune hc⟩
  | long hc =>
    exact ⟨(Utf8.rune c, true), unquoteChar_long (rune_lt hc) (Utf8.validRune_rune hc) rest,
      unquotedBytes_rune hc⟩

/-- Characters that are read back one by one. -/
theorem unquoteLoop_flatMap {α : Type} {text bytes : α → GoString} {xs : List α}
    (hhead : ∀ x ∈ xs, ∃ b bs, text x = b :: bs ∧ b ≠ 34 ∧ b ≠ 10)
    (hchar : ∀ x ∈ xs, ∀ rest, ∃ v, unquoteChar (text x ++ rest) = some (v, rest) ∧
      unquotedBytes v.1 v.2 = bytes x)
    {fuel : ℕ} (hfuel : (xs.flatMap text).length < fuel) (rest : GoString) :
    unquoteLoop fuel (xs.flatMap text ++ 34 :: rest) = some (xs.flatMap bytes, rest) := by
  induction xs generalizing fuel with
  | nil =>
    obtain ⟨fuel, rfl⟩ : ∃ k, fuel = k + 1 := ⟨fuel - 1, by omega⟩
    simp [unquoteLoop]
  | cons x xs ih =>
    obtain ⟨fuel, rfl⟩ : ∃ k, fuel = k + 1 := ⟨fuel - 1, by omega⟩
    obtain ⟨b, bs, hb, hquote, hnewline⟩ := hhead x List.mem_cons_self
    obtain ⟨v, hv, hbytes⟩ := hchar x List.mem_cons_self (xs.flatMap text ++ 34 :: rest)
    have hlt : (xs.flatMap text).length < fuel := by
      rw [List.flatMap_cons, hb, List.length_append, List.length_cons] at hfuel
      omega
    have hrest := ih (fun y hy => hhead y (List.mem_cons_of_mem x hy))
      (fun y hy => hchar y (List.mem_cons_of_mem x hy)) hlt
    rw [List.flatMap_cons, List.append_assoc, hb, List.cons_append, unquoteLoop, if_neg hquote,
      if_neg hnewline, ← List.cons_append, ← hb, hv, Option.bind_some, hrest, Option.map_some,
      hbytes, List.flatMap_cons]

/-- So is a text in quotes that is made of them. -/
theorem unquote_flatMap {α : Type} {text bytes : α → GoString} (xs : List α)
    (hhead : ∀ x ∈ xs, ∃ b bs, text x = b :: bs ∧ b ≠ 34 ∧ b ≠ 10)
    (hchar : ∀ x ∈ xs, ∀ rest, ∃ v, unquoteChar (text x ++ rest) = some (v, rest) ∧
      unquotedBytes v.1 v.2 = bytes x) :
    unquote (34 :: xs.flatMap text ++ [34]) = some (xs.flatMap bytes) := by
  have hfuel : (xs.flatMap text).length < (xs.flatMap text ++ [34]).length + 1 := by simp
  rw [List.cons_append, unquote, unquoteLoop_flatMap hhead hchar hfuel []]
  rfl

section
variable [Unicode]

theorem isPrint_of_plain {c d : GoString} (h : escape c = .plain d) :
    d = c ∧ Unicode.isPrint (Utf8.rune c) = true := by
  simp only [escape] at h
  split_ifs at h with hc hquote hprint
  exact ⟨(Escape.plain.inj h).symm, hprint⟩

theorem head_escape (hprint : Unicode.isPrint 10 = false) {c : GoString} (hc : Utf8.IsPiece c) :
    ∃ b bs, (escape c).text = b :: bs ∧ b ≠ 34 ∧ b ≠ 10 := by
  have hvalid := (escaped_escape hc).valid
  obtain ⟨b, bs, hb, hquote⟩ := head_text hvalid
  refine ⟨b, bs, hb, hquote, ?_⟩
  rintro rfl
  cases hescape : escape c with
  | plain d =>
    obtain ⟨rfl, hd⟩ := isPrint_of_plain hescape
    rw [hescape] at hvalid hb
    obtain rfl : d = 10 :: bs := hb
    obtain ⟨b, heq, -, hrune⟩ | ⟨-, hhigh, -⟩ := Utf8.piece_cases (Or.inl hvalid.1)
    · obtain ⟨rfl, rfl⟩ := List.cons.inj heq
      exact absurd hd (by rw [show Utf8.rune [10] = 10 from rfl, hprint]; decide)
    · exact absurd (hhigh 10 List.mem_cons_self) (by decide)
  | letter b => simp [hescape, Escape.text] at hb
  | byte n => simp [hescape, Escape.text] at hb
  | short n => simp [hescape, Escape.text] at hb
  | long n => simp [hescape, Escape.text] at hb

/-- A quoted string is read back, if a line feed is escaped. -/
theorem unquote_quote (hprint : Unicode.isPrint 10 = false) (s : GoString) :
    unquote (quote s) = some s := by
  have hread := unquote_flatMap (Utf8.runes s)
    (fun c hc => head_escape hprint (Utf8.isPiece_of_mem_runes hc))
    (fun c hc rest => unquoteChar_text (escaped_escape (Utf8.isPiece_of_mem_runes hc)) rest)
  rwa [List.flatMap_id', Utf8.flatten_runes] at hread

end

/-! ### Quotes within quotes -/

/-- Reading on between quotes: whether a backslash is pending, nothing after a quote that
is not escaped. -/
def escapeState : Bool → GoString → Option Bool
  | escaped, [] => some escaped
  | true, _ :: s => escapeState false s
  | false, b :: s =>
    if b = 92 then escapeState true s else if b = 34 then none else escapeState false s

theorem escapeState_append (escaped : Bool) (s t : GoString) :
    escapeState escaped (s ++ t) = (escapeState escaped s).bind fun e => escapeState e t := by
  fun_induction escapeState escaped s with
  | case1 e => rfl
  | case2 b s ih => simpa [escapeState] using ih
  | case3 s ih => simpa [escapeState] using ih
  | case4 s => simp [escapeState]
  | case5 b s hbackslash hquote ih => simpa [escapeState, hbackslash, hquote] using ih

/-- What leaves no backslash pending may be repeated. -/
theorem escapeState_flatMap {α : Type} {text : α → GoString} {xs : List α}
    (h : ∀ x ∈ xs, escapeState false (text x) = some false) :
    escapeState false (xs.flatMap text) = some false := by
  induction xs with
  | nil => rfl
  | cons x xs ih =>
    rw [List.flatMap_cons, escapeState_append, h x List.mem_cons_self, Option.bind_some]
    exact ih fun y hy => h y (List.mem_cons_of_mem x hy)

theorem escapeState_high {c : GoString} (hc : ∀ b ∈ c, 0x80 ≤ b.toNat) (hne : c ≠ [])
    (escaped : Bool) : escapeState escaped c = some false := by
  induction c generalizing escaped with
  | nil => exact absurd rfl hne
  | cons b c ih =>
    have hb := hc b List.mem_cons_self
    have hstep : escapeState escaped (b :: c) = escapeState false c := by
      cases escaped with
      | true => rfl
      | false =>
        rw [escapeState, if_neg (by rintro rfl; simp at hb), if_neg (by rintro rfl; simp at hb)]
    rw [hstep]
    cases c with
    | nil => rfl
    | cons d c => exact ih (fun x hx => hc x (List.mem_cons_of_mem b hx)) (by simp) false

theorem escapeState_hex (w n : ℕ) : escapeState false (hex w n) = some false := by
  have hdigit : ∀ d < 16, escapeState false [hexDigit d] = some false := by decide
  induction w generalizing n with
  | zero => rfl
  | succ w ih =>
    rw [hex, escapeState_append, ih, Option.bind_some]
    exact hdigit (n % 16) (Nat.mod_lt n (by decide))

theorem escapeState_text {e : Escape} (h : e.Valid) : escapeState false e.text = some false := by
  cases e with
  | plain c =>
    obtain ⟨b, rfl, -, -⟩ | ⟨hne, hhigh, -⟩ := Utf8.piece_cases (Or.inl h.1)
    · have hquote : b ≠ 34 := by simpa using h.2.1
      have hbackslash : b ≠ 92 := by simpa using h.2.2
      rw [Escape.text, escapeState, if_neg hbackslash, if_neg hquote]
      rfl
    · exact escapeState_high hhigh hne false
  | letter b => rfl
  | byte n => exact escapeState_hex 2 n
  | short n => exact escapeState_hex 4 n
  | long n => exact escapeState_hex 8 n

theorem escapeState_quoteBody [Unicode] (s : GoString) :
    escapeState false (quoteBody s) = some false :=
  escapeState_flatMap fun _ hc => escapeState_text
    (escaped_escape (Utf8.isPiece_of_mem_runes hc)).valid

end Strconv

end Alertmanager
