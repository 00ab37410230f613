import Alertmanager.StrconvParse

/-!
# Decimal numbers

The decimal digits of a number as bytes, and that `strconv.Atoi` reads them back.
-/
namespace Alertmanager

theorem toNat_of_isDigit {c : Char} (hc : c.isDigit = true) : 48 ≤ c.toNat ∧ c.toNat ≤ 57 := by
  simpa [Char.isDigit, UInt32.le_iff_toNat_le] using hc

theorem utf8EncodeChar_of_isDigit {c : Char} (hc : c.isDigit = true) :
    String.utf8EncodeChar c = [UInt8.ofNat c.toNat] := by
  have hascii : c.toNat ≤ 127 := (toNat_of_isDigit hc).2.trans (by decide)
  exact if_pos hascii

theorem str_toString (n : ℕ) :
    str (toString n) = (Nat.toDigits 10 n).map fun c => UInt8.ofNat c.toNat := by
  have hlist : (toString n).toList = Nat.toDigits 10 n := by simp
  rw [str, hlist, List.map_eq_flatMap]
  refine List.flatMap_congr fun c hc => ?_
  exact utf8EncodeChar_of_isDigit (Nat.isDigit_of_mem_toDigits (by decide) (by decide) hc)

theorem toNat_ofNat_of_isDigit {c : Char} (hc : c.isDigit = true) :
    (UInt8.ofNat c.toNat).toNat = c.toNat := by
  have hdigit := toNat_of_isDigit hc
  rw [UInt8.toNat_ofNat']
  omega

/-- Decimal numbers consist of digits. -/
theorem mem_str_toString {n : ℕ} {b : UInt8} (h : b ∈ str (toString n)) :
    48 ≤ b.toNat ∧ b.toNat ≤ 57 := by
  rw [str_toString, List.mem_map] at h
  obtain ⟨c, hc, rfl⟩ := h
  have hdigit := Nat.isDigit_of_mem_toDigits (by decide) (by decide) hc
  rw [toNat_ofNat_of_isDigit hdigit]
  exact toNat_of_isDigit hdigit

theorem map_str_toString (n : ℕ) :
    (str (toString n)).map (fun b => Char.ofNat b.toNat) = Nat.toDigits 10 n := by
  have hdecode : ∀ c ∈ Nat.toDigits 10 n, Char.ofNat (UInt8.ofNat c.toNat).toNat = c := by
    intro c hc
    rw [toNat_ofNat_of_isDigit (Nat.isDigit_of_mem_toDigits (by decide) (by decide) hc),
      Char.ofNat_toNat]
  rw [str_toString, List.map_map]
  exact (List.map_congr_left hdecode).trans (List.map_id' _)

theorem str_toString_inj {n m : ℕ} (h : str (toString n) = str (toString m)) : n = m := by
  have hn := Nat.ofDigitChars_toDigits (b := 10) (n := n) (by decide) (by decide)
  rw [← map_str_toString, h, map_str_toString] at hn
  exact hn.symm.trans (Nat.ofDigitChars_toDigits (by decide) (by decide))

/-! ### Reading back -/

theorem ofNat_digitChar {d : ℕ} (h : d < 10) :
    UInt8.ofNat (Nat.digitChar d).toNat = UInt8.ofNat (48 + d) := by
  interval_cases d <;> rfl

/-- The last digit comes after those of the tenth. -/
theorem str_toString_of_ten_le {n : ℕ} (h : 10 ≤ n) :
    str (toString n) = str (toString (n / 10)) ++ [UInt8.ofNat (48 + n % 10)] := by
  rw [str_toString, str_toString, Nat.toDigits_of_base_le (by decide) h, List.map_append,
    List.map_singleton, ofNat_digitChar (Nat.mod_lt n (by decide))]

theorem str_toString_of_lt {n : ℕ} (h : n < 10) : str (toString n) = [UInt8.ofNat (48 + n)] := by
  rw [str_toString, Nat.toDigits_of_lt_base h, List.map_singleton, ofNat_digitChar h]

theorem str_toString_ne_nil (n : ℕ) : str (toString n) ≠ [] := by
  obtain hlt | hle := Nat.lt_or_ge n 10
  · rw [str_toString_of_lt hlt]
    exact List.cons_ne_nil _ _
  · rw [str_toString_of_ten_le hle]
    exact List.append_ne_nil_of_right_ne_nil _ (List.cons_ne_nil _ _)

namespace Strconv

theorem parseUint_append (n : ℕ) (s t : GoString) :
    parseUint n (s ++ t) = (parseUint n s).bind fun k => parseUint k t := by
  induction s generalizing n with
  | nil => rfl
  | cons c s ih =>
    simp only [List.cons_append, parseUint]
    split_ifs
    · rfl
    · exact ih _
    · rfl

theorem parseUint_digit {n d : ℕ} (hd : d < 10) (h : n * 10 + d < 2 ^ 64) :
    parseUint n [UInt8.ofNat (48 + d)] = .ok (n * 10 + d) := by
  have hvalue : (UInt8.ofNat (48 + d)).toNat = 48 + d := by
    rw [UInt8.toNat_ofNat']
    omega
  have hdigit : (48 : UInt8) ≤ .ofNat (48 + d) ∧ UInt8.ofNat (48 + d) ≤ 57 := by
    rw [UInt8.le_iff_toNat_le, UInt8.le_iff_toNat_le, hvalue]
    simp
    omega
  rw [parseUint, if_pos hdigit, hvalue, Nat.add_sub_cancel_left]
  simp only [if_neg (Nat.not_le.mpr h), parseUint]

/-- The digits of a number are read back. -/
theorem parseUint_str_toString (n : ℕ) (h : n < 2 ^ 64) :
    parseUint 0 (str (toString n)) = .ok n := by
  induction n using Nat.strongRecOn with
  | ind n ih =>
    obtain hlt | hle := Nat.lt_or_ge n 10
    · rw [str_toString_of_lt hlt, parseUint_digit hlt (by omega)]
      simp
    · rw [str_toString_of_ten_le hle, parseUint_append, ih (n / 10) (by omega) (by omega)]
      refine (parseUint_digit (Nat.mod_lt n (by decide)) (by omega)).trans ?_
      congr 1
      omega

/-- `strconv.Itoa`. -/
def itoa (n : ℤ) : GoString := str (toString n)

theorem itoa_natCast (n : ℕ) : itoa n = str (toString n) := rfl

theorem itoa_negSucc (n : ℕ) : itoa (.negSucc n) = 45 :: str (toString (n + 1)) := by
  have hlist : (toString (Int.negSucc n)).toList = '-' :: (toString (n + 1)).toList := by
    rw [show toString (Int.negSucc n) = "-" ++ toString (n + 1) from rfl, String.toList_append]
    rfl
  rw [itoa, str, hlist]
  rfl

theorem mem_itoa {n : ℤ} {b : UInt8} (h : b ∈ itoa n) :
    b = 45 ∨ 48 ≤ b.toNat ∧ b.toNat ≤ 57 := by
  cases n with
  | ofNat n => exact .inr (mem_str_toString h)
  | negSucc n =>
    rw [itoa_negSucc, List.mem_cons] at h
    exact h.imp id mem_str_toString

theorem signed_str_toString {n : ℕ} (neg : Bool)
    (h : n < 2 ^ 63 ∨ neg = true ∧ n = 2 ^ 63) :
    signed neg (str (toString n)) = .ok (if neg then -n else n) := by
  rw [signed, if_neg (str_toString_ne_nil n), parseUint_str_toString n (by omega)]
  refine if_neg ?_
  rintro (⟨rfl, hn⟩ | ⟨-, hn⟩)
  · simp at h
    omega
  · omega

theorem atoi_digits {s : GoString} (hs : ∀ b ∈ s, 48 ≤ b.toNat) : atoi s = signed false s := by
  rw [atoi.eq_def]
  split
  · exact absurd (hs 43 List.mem_cons_self) (by decide)
  · exact absurd (hs 45 List.mem_cons_self) (by decide)
  · rfl

/-- `strconv.Atoi` reads back what `strconv.Itoa` writes. -/
theorem atoi_itoa {n : ℤ} (h : -2 ^ 63 ≤ n ∧ n < 2 ^ 63) : atoi (itoa n) = .ok n := by
  cases n with
  | ofNat n =>
    rw [Int.ofNat_eq_natCast] at h ⊢
    rw [itoa_natCast, atoi_digits fun b hb => (mem_str_toString hb).1,
      signed_str_toString false (.inl (by omega))]
    rfl
  | negSucc n =>
    have hn : n + 1 < 2 ^ 63 ∨ n + 1 = 2 ^ 63 := by omega
    rw [itoa_negSucc, atoi, signed_str_toString true (hn.imp id fun h => ⟨rfl, h⟩)]
    rfl

theorem signed_bounds {neg : Bool} {s : GoString} {n : ℤ} (h : signed neg s = .ok n) :
    -2 ^ 63 ≤ n ∧ n < 2 ^ 63 := by
  by_cases hs : s = []
  · rw [signed, if_pos hs] at h
    cases h
  · rw [signed, if_neg hs] at h
    cases hparse : parseUint 0 s with
    | error err => rw [hparse] at h; cases h
    | ok un =>
      have hrange : (if neg = false ∧ 2 ^ 63 ≤ un ∨ neg = true ∧ 2 ^ 63 < un then
          .error .errRange else .ok (if neg then -un else un) : Except NumError ℤ) = .ok n := by
        rw [hparse] at h
        exact h
      split_ifs at hrange with hout hneg
      all_goals
        have heq := Except.ok.inj hrange
        simp [hneg] at hout
        omega

/-- What `strconv.Atoi` reads has 64 bits. -/
theorem atoi_bounds {s : GoString} {n : ℤ} (h : atoi s = .ok n) : -2 ^ 63 ≤ n ∧ n < 2 ^ 63 := by
  rw [atoi.eq_def] at h
  split at h <;> exact signed_bounds h

end Strconv

end Alertmanager
