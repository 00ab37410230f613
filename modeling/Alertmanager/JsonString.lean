import Mathlib.Data.List.Basic
import Mathlib.Tactic

/-!
# Strings in JSON

How `JSON.stringify` writes a string and `JSON.parse` reads it, over the characters of the
text. A lone half of a surrogate pair is no character, and its escape is refused here.
-/
namespace Alertmanager.Json

/-- A hexadecimal digit in lower case. -/
def hexDigit (n : ℕ) : Char := Char.ofNat (if n < 10 then 48 + n else 87 + n)

/-- A hexadecimal digit in either case. -/
def unhex (c : Char) : Option ℕ :=
  if 48 ≤ c.toNat ∧ c.toNat ≤ 57 then some (c.toNat - 48)
  else if 97 ≤ c.toNat ∧ c.toNat ≤ 102 then some (c.toNat - 87)
  else if 65 ≤ c.toNat ∧ c.toNat ≤ 70 then some (c.toNat - 55)
  else none

/-- The characters with an escape of one letter, by their codes. -/
def shortEscapes : List (ℕ × Char) :=
  [(8, 'b'), (9, 't'), (10, 'n'), (12, 'f'), (13, 'r'), (34, '"'), (92, '\\')]

/-- What is written for a character. -/
def escapeChar (c : Char) : List Char :=
  match shortEscapes.find? (·.1 = c.toNat) with
  | some escape => ['\\', escape.2]
  | none =>
    if c.toNat < 32 then ['\\', 'u', '0', '0', hexDigit (c.toNat / 16), hexDigit (c.toNat % 16)]
    else [c]

/-- `JSON.stringify` of a string. -/
def encodeString (s : List Char) : List Char := '"' :: (s.flatMap escapeChar ++ ['"'])

/-- What a letter after a backslash stands for. -/
def shortValue (c : Char) : Option ℕ :=
  if c = '/' then some 47 else (shortEscapes.find? (·.2 = c)).map (·.1)

/-- The codes of a text up to its closing quote, which ends the input. Escapes of four
digits may be halves of surrogate pairs. -/
def readCodes : List Char → Option (List ℕ)
  | ['"'] => some []
  | '\\' :: 'u' :: a :: b :: c :: d :: s => do
      let x ← unhex a
      let y ← unhex b
      let z ← unhex c
      let w ← unhex d
      let codes ← readCodes s
      return (((x * 16 + y) * 16 + z) * 16 + w) :: codes
  | '\\' :: c :: s => do
      let code ← shortValue c
      let codes ← readCodes s
      return code :: codes
  | c :: s =>
    if c.toNat < 32 ∨ c = '"' ∨ c = '\\' then none
    else do
      let codes ← readCodes s
      return c.toNat :: codes
  | [] => none

def isHigh (n : ℕ) : Bool := 0xD800 ≤ n && n ≤ 0xDBFF

def isLow (n : ℕ) : Bool := 0xDC00 ≤ n && n ≤ 0xDFFF

/-- The characters of a list of codes, with surrogate pairs put together. -/
def fromCodes : List ℕ → Option (List Char)
  | [] => some []
  | n :: codes =>
    if isHigh n then
      match codes with
      | m :: codes =>
        if isLow m then
          (fromCodes codes).map
            (Char.ofNat (0x10000 + (n - 0xD800) * 0x400 + (m - 0xDC00)) :: ·)
        else none
      | [] => none
    else if isLow n then none
    else (fromCodes codes).map (Char.ofNat n :: ·)

/-- `JSON.parse` of a text that begins with a quote. -/
def decodeString : List Char → Option (List Char)
  | '"' :: s => (readCodes s).bind fromCodes
  | _ => none

/-! ### Reading back -/

theorem escapeChar_cases (c : Char) :
    (∃ letter, (c.toNat, letter) ∈ shortEscapes ∧ escapeChar c = ['\\', letter]) ∨
    (c.toNat < 32 ∧ escapeChar c =
      ['\\', 'u', '0', '0', hexDigit (c.toNat / 16), hexDigit (c.toNat % 16)]) ∨
    (32 ≤ c.toNat ∧ c ≠ '"' ∧ c ≠ '\\') ∧ escapeChar c = [c] := by
  rw [escapeChar]
  cases hfind : shortEscapes.find? (·.1 = c.toNat) with
  | some escape =>
    have hmem := List.mem_of_find?_eq_some hfind
    have hcode : escape.1 = c.toNat := by simpa using List.find?_some hfind
    exact .inl ⟨escape.2, by rw [← hcode]; exact hmem, rfl⟩
  | none =>
    rw [List.find?_eq_none] at hfind
    by_cases hcontrol : c.toNat < 32
    · exact .inr (.inl ⟨hcontrol, if_pos hcontrol⟩)
    · refine .inr (.inr ⟨⟨by omega, ?_, ?_⟩, if_neg hcontrol⟩)
      · rintro rfl
        exact absurd (hfind (34, '"') (by decide)) (by decide)
      · rintro rfl
        exact absurd (hfind (92, '\\') (by decide)) (by decide)

theorem unhex_hexDigit {n : ℕ} (h : n < 16) : unhex (hexDigit n) = some n := by
  interval_cases n <;> decide

theorem readCodes_plain {c : Char} (h : 32 ≤ c.toNat ∧ c ≠ '"' ∧ c ≠ '\\') (s : List Char) :
    readCodes (c :: s) = (readCodes s).map (c.toNat :: ·) := by
  obtain ⟨hlow, hquote, hbackslash⟩ := h
  rw [readCodes.eq_def]
  split
  · rename_i heq
    exact absurd (List.cons.inj heq).1 hquote
  · rename_i heq
    exact absurd (List.cons.inj heq).1 hbackslash
  · rename_i heq
    exact absurd (List.cons.inj heq).1 hbackslash
  · rename_i heq
    obtain ⟨rfl, rfl⟩ := List.cons.inj heq
    rw [if_neg (by simp [hquote, hbackslash]; omega)]
    cases readCodes s <;> rfl
  · contradiction

theorem readCodes_short {n : ℕ} {letter : Char} (h : (n, letter) ∈ shortEscapes) (s : List Char) :
    readCodes ('\\' :: letter :: s) = (readCodes s).map (n :: ·) := by
  have hvalue : ∀ e ∈ shortEscapes, shortValue e.2 = some e.1 ∧ e.2 ≠ 'u' := by decide
  obtain ⟨hread, hu⟩ := hvalue _ h
  rw [readCodes.eq_def]
  split
  · rename_i heq
    cases heq
  · rename_i heq
    exact absurd (List.cons.inj (List.cons.inj heq).2).1 hu
  · rename_i heq
    obtain ⟨rfl, rfl⟩ := List.cons.inj (List.cons.inj heq).2
    simp only at hread
    rw [hread]
    cases readCodes s <;> rfl
  · rename_i hshort heq
    obtain ⟨rfl, rfl⟩ := List.cons.inj heq
    exact absurd rfl (hshort letter s rfl)
  · contradiction

theorem readCodes_escapeChar (c : Char) (s : List Char) :
    readCodes (escapeChar c ++ s) = (readCodes s).map (c.toNat :: ·) := by
  obtain ⟨letter, hletter, hescape⟩ | ⟨hcontrol, hescape⟩ | ⟨hplain, hescape⟩ := escapeChar_cases c
  · rw [hescape]
    exact readCodes_short hletter s
  · have hzero : unhex '0' = some 0 := by decide
    have hvalue : ((0 * 16 + 0) * 16 + c.toNat / 16) * 16 + c.toNat % 16 = c.toNat := by omega
    rw [hescape]
    simp only [List.cons_append, List.nil_append, readCodes, hzero,
      unhex_hexDigit (show c.toNat / 16 < 16 by omega),
      unhex_hexDigit (Nat.mod_lt c.toNat (by decide)), Option.bind_eq_bind, Option.bind_some,
      hvalue]
    cases readCodes s <;> rfl
  · rw [hescape]
    exact readCodes_plain hplain s

theorem fromCodes_toNat (s : List Char) : fromCodes (s.map (·.toNat)) = some s := by
  induction s with
  | nil => rfl
  | cons c s ih =>
    have hvalid : c.toNat < 0xD800 ∨ 0xDFFF < c.toNat ∧ c.toNat < 0x110000 := c.valid
    have hhigh : ¬isHigh c.toNat = true := by
      simp [isHigh]
      omega
    have hlow : ¬isLow c.toNat = true := by
      simp [isLow]
      omega
    rw [List.map_cons, fromCodes.eq_def]
    simp only [if_neg hhigh, if_neg hlow, ih, Option.map_some, Char.ofNat_toNat]

theorem decodeString_encodeString (s : List Char) : decodeString (encodeString s) = some s := by
  have hread : readCodes (s.flatMap escapeChar ++ ['"']) = some (s.map (·.toNat)) := by
    induction s with
    | nil => rfl
    | cons c s ih =>
      rw [List.flatMap_cons, List.append_assoc, readCodes_escapeChar, ih]
      rfl
  rw [encodeString, decodeString, hread, Option.bind_some, fromCodes_toNat]

end Alertmanager.Json
