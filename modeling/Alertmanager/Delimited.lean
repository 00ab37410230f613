import Mathlib.Tactic

/-!
# Length-delimited records

A record is written as its length, in base 128 with the low digits first and a
continuation bit, and its bytes. A reader takes at most ten bytes of a length,
rejects records above a limit, and reads records until the input ends. What was
written is read back if no record is above the limit, and not otherwise.
-/
namespace Alertmanager.Delimited

/-- Write a number in base 128. -/
def putVarint (n : ℕ) : List UInt8 :=
  if n < 128 then [UInt8.ofNat n] else UInt8.ofNat (n % 128 + 128) :: putVarint (n / 128)
  termination_by n
  decreasing_by omega

theorem putVarint_of_lt {n : ℕ} (h : n < 128) : putVarint n = [UInt8.ofNat n] := by
  rw [putVarint, if_pos h]

theorem putVarint_of_le {n : ℕ} (h : 128 ≤ n) :
    putVarint n = UInt8.ofNat (n % 128 + 128) :: putVarint (n / 128) := by
  rw [putVarint, if_neg (not_lt.mpr h)]

theorem length_putVarint (n : ℕ) : (putVarint n).length = Nat.log 128 n + 1 := by
  induction n using Nat.strongRecOn with
  | ind n ih =>
    by_cases h : n < 128
    · rw [putVarint_of_lt h, Nat.log_of_lt h]
      rfl
    · have hle := not_lt.mp h
      rw [putVarint_of_le hle, List.length_cons, ih (n / 128) (by omega),
        Nat.log_of_one_lt_of_le (by decide) hle]

/-- The result of reading from an input: its end, an error, or a value and the rest. -/
inductive Read (α : Type*)
  | eof
  | fail
  | ok (value : α) (rest : List UInt8)

/-- Read the digits of a number, at most `k` after the next one. The tenth digit of a
64-bit number is at most 1. -/
def readDigits : ℕ → List UInt8 → Read ℕ
  | _, [] => .fail
  | 0, b :: bs => if b.toNat < 2 then .ok b.toNat bs else .fail
  | k + 1, b :: bs =>
    if b.toNat < 128 then .ok b.toNat bs
    else match readDigits k bs with
      | .ok n rest => .ok (b.toNat - 128 + 128 * n) rest
      | .eof | .fail => .fail

/-- Read a number; only before its first byte may the input end. -/
def readVarint : List UInt8 → Read ℕ
  | [] => .eof
  | b :: bs => readDigits 9 (b :: bs)

theorem readDigits_putVarint (k n : ℕ) (rest : List UInt8) :
    readDigits k (putVarint n ++ rest) = if n < 2 * 128 ^ k then .ok n rest else .fail := by
  induction k generalizing n with
  | zero =>
    by_cases h : n < 128
    · have hbyte : (UInt8.ofNat n).toNat = n := by
        rw [UInt8.toNat_ofNat']
        omega
      simp [putVarint_of_lt h, readDigits, hbyte]
    · have hle := not_lt.mp h
      have hbyte : (UInt8.ofNat (n % 128 + 128)).toNat = n % 128 + 128 := by
        rw [UInt8.toNat_ofNat']
        omega
      rw [putVarint_of_le hle, List.cons_append, readDigits, hbyte, if_neg (by omega),
        if_neg (by omega)]
  | succ k ih =>
    by_cases h : n < 128
    · have hbyte : (UInt8.ofNat n).toNat = n := by
        rw [UInt8.toNat_ofNat']
        omega
      have hpow : 1 ≤ 128 ^ k := Nat.one_le_pow _ _ (by decide)
      have hn : n < 2 * 128 ^ (k + 1) := by
        rw [pow_succ]
        omega
      simp [putVarint_of_lt h, readDigits, hbyte, h, hn]
    · have hle := not_lt.mp h
      have hbyte : (UInt8.ofNat (n % 128 + 128)).toNat = n % 128 + 128 := by
        rw [UInt8.toNat_ofNat']
        omega
      have hdiv : n / 128 < 2 * 128 ^ k ↔ n < 2 * 128 ^ (k + 1) := by
        rw [Nat.div_lt_iff_lt_mul (by decide), pow_succ, mul_assoc]
      rw [putVarint_of_le hle, List.cons_append, readDigits, hbyte, if_neg (by omega), ih]
      simp only [hdiv]
      split_ifs with hn
      · have hvalue : n % 128 + 128 - 128 + 128 * (n / 128) = n := by omega
        simp only [hvalue]
      · rfl

theorem readVarint_putVarint (n : ℕ) (rest : List UInt8) :
    readVarint (putVarint n ++ rest) = if n < 2 ^ 64 then .ok n rest else .fail := by
  have hread : readVarint (putVarint n ++ rest) = readDigits 9 (putVarint n ++ rest) := by
    by_cases h : n < 128
    · rw [putVarint_of_lt h]
      rfl
    · rw [putVarint_of_le (not_lt.mp h)]
      rfl
  rw [hread, readDigits_putVarint]
  norm_num

/-- What is left after a number is shorter. -/
theorem readDigits_rest {k : ℕ} {bs : List UInt8} {n : ℕ} {rest : List UInt8}
    (h : readDigits k bs = .ok n rest) : rest.length < bs.length := by
  induction k generalizing bs n with
  | zero =>
    cases bs with
    | nil => simp [readDigits] at h
    | cons b bs =>
      simp only [readDigits] at h
      split_ifs at h
      cases h
      simp
  | succ k ih =>
    cases bs with
    | nil => simp [readDigits] at h
    | cons b bs =>
      simp only [readDigits] at h
      split_ifs at h
      · cases h
        simp
      · cases hrec : readDigits k bs with
        | eof => simp [hrec] at h
        | fail => simp [hrec] at h
        | ok n' rest' =>
          simp only [hrec] at h
          cases h
          exact (ih hrec).trans (Nat.lt_succ_self _)

/-! ### Records -/

/-- A record: the length of its content and the content. -/
def frame (content : List UInt8) : List UInt8 := putVarint content.length ++ content

theorem length_frame (content : List UInt8) :
    (frame content).length = Nat.log 128 content.length + 1 + content.length := by
  rw [frame, List.length_append, length_putVarint]

/-- Read a record of at most `limit` bytes. -/
def readFrame (limit : ℕ) (bs : List UInt8) : Read (List UInt8) :=
  match readVarint bs with
  | .eof => .eof
  | .fail => .fail
  | .ok n rest =>
    if limit < n then .fail
    else if rest.length < n then .fail
    else .ok (rest.take n) (rest.drop n)

theorem readFrame_rest {limit : ℕ} {bs content rest : List UInt8}
    (h : readFrame limit bs = .ok content rest) : rest.length < bs.length := by
  unfold readFrame at h
  cases bs with
  | nil => simp [readVarint] at h
  | cons b bs =>
    cases hn : readDigits 9 (b :: bs) with
    | eof => simp [readVarint, hn] at h
    | fail => simp [readVarint, hn] at h
    | ok n rest' =>
      have hlt := readDigits_rest hn
      simp only [readVarint, hn] at h
      split_ifs at h
      cases h
      rw [List.length_drop]
      omega

variable {limit : ℕ}

theorem readFrame_frame (hlimit : limit < 2 ^ 64) (content rest : List UInt8) :
    readFrame limit (frame content ++ rest) =
      if content.length ≤ limit then .ok content rest else .fail := by
  unfold readFrame
  rw [frame, List.append_assoc, readVarint_putVarint]
  by_cases hle : content.length ≤ limit
  · have h64 : content.length < 2 ^ 64 := hle.trans_lt hlimit
    rw [if_pos h64, if_pos hle]
    simp [not_lt.mpr hle]
  · rw [if_neg hle]
    by_cases h64 : content.length < 2 ^ 64
    · rw [if_pos h64]
      simp [not_le.mp hle]
    · rw [if_neg h64]

/-- Read and decode records until the input ends: the values, and whether the reading
came to the end of the input. -/
def readAll {α : Type*} (limit : ℕ) (decode : List UInt8 → Option α) (bs : List UInt8) :
    List α × Bool :=
  match h : readFrame limit bs with
  | .eof => ([], true)
  | .fail => ([], false)
  | .ok content rest =>
    match decode content with
    | none => ([], false)
    | some a =>
      have := readFrame_rest h
      let r := readAll limit decode rest
      (a :: r.1, r.2)
  termination_by bs.length

section
variable {α β : Type*} {decode : List UInt8 → Option α} {content : β → List UInt8} {value : β → α}

theorem readAll_eq (bs : List UInt8) : readAll limit decode bs =
    match readFrame limit bs with
    | .eof => ([], true)
    | .fail => ([], false)
    | .ok content rest =>
      match decode content with
      | none => ([], false)
      | some a => (a :: (readAll limit decode rest).1, (readAll limit decode rest).2) := by
  rw [readAll]
  split
  · next h => rw [h]
  · next h => rw [h]
  · next content rest h => simp only [h]

theorem readAll_nil : readAll limit decode [] = ([], true) := by
  rw [readAll_eq]
  rfl

theorem readAll_frame (hlimit : limit < 2 ^ 64) {content : List UInt8}
    (hle : content.length ≤ limit) {a : α} (ha : decode content = some a) (rest : List UInt8) :
    readAll limit decode (frame content ++ rest) =
      (a :: (readAll limit decode rest).1, (readAll limit decode rest).2) := by
  have hread := readFrame_frame hlimit content rest
  rw [if_pos hle] at hread
  simp only [readAll_eq (frame content ++ rest), hread, ha]

theorem readAll_frame_of_lt (hlimit : limit < 2 ^ 64) {content : List UInt8}
    (hlt : limit < content.length) (rest : List UInt8) :
    readAll limit decode (frame content ++ rest) = ([], false) := by
  have hread := readFrame_frame hlimit content rest
  rw [if_neg (not_le.mpr hlt)] at hread
  simp only [readAll_eq (frame content ++ rest), hread]

/-- Records that were written are read back if none is above the limit. -/
theorem readAll_flatMap (hlimit : limit < 2 ^ 64) {l : List β}
    (hdecode : ∀ b ∈ l, decode (content b) = some (value b))
    (hle : ∀ b ∈ l, (content b).length ≤ limit) :
    readAll limit decode (l.flatMap fun b => frame (content b)) = (l.map value, true) := by
  induction l with
  | nil => exact readAll_nil
  | cons b l ih =>
    have htail := ih (fun c hc => hdecode c (List.mem_cons_of_mem _ hc))
      (fun c hc => hle c (List.mem_cons_of_mem _ hc))
    rw [List.flatMap_cons, readAll_frame hlimit (hle b List.mem_cons_self)
      (hdecode b List.mem_cons_self), htail, List.map_cons]

/-- The end of the input is not reached if one is. -/
theorem readAll_flatMap_of_lt (hlimit : limit < 2 ^ 64) {l : List β}
    (hdecode : ∀ b ∈ l, ∃ a, decode (content b) = some a)
    (hlt : ∃ b ∈ l, limit < (content b).length) :
    (readAll limit decode (l.flatMap fun b => frame (content b))).2 = false := by
  induction l with
  | nil => simp at hlt
  | cons b l ih =>
    rw [List.flatMap_cons]
    by_cases hle : (content b).length ≤ limit
    · obtain ⟨c, hc, hlt⟩ := hlt
      have hcl : c ∈ l := by
        rcases List.mem_cons.mp hc with rfl | h
        · exact absurd hlt (not_lt.mpr hle)
        · exact h
      obtain ⟨a, ha⟩ := hdecode b List.mem_cons_self
      rw [readAll_frame hlimit hle ha]
      exact ih (fun c hc => hdecode c (List.mem_cons_of_mem _ hc)) ⟨c, hcl, hlt⟩
    · rw [readAll_frame_of_lt hlimit (not_le.mp hle)]

end

end Alertmanager.Delimited
