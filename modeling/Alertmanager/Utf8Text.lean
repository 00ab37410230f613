import Alertmanager.GoQuote

/-!
# Strings as sequences of runes

The conversions between strings and runes: what `range` and `[]rune` read, what `string`
writes, and when a string is valid. A string is valid if and only if it is a sequence of
whole encodings, and then nothing is lost on the way.
-/
namespace Alertmanager

namespace Utf8

/-- What follows a sequence of whole runes is decoded on its own. -/
theorem runes_append {s : GoString} (h : (runes s).all isRune = true) (u : GoString) :
    runes (s ++ u) = runes s ++ runes u := by
  fun_induction runes s with
  | case1 => rfl
  | case2 b0 s1 h1 ih =>
    rw [List.all_cons, Bool.and_eq_true] at h
    rw [List.cons_append, runes.eq_def]
    simp [h1, ih h.2]
  | case4 b0 h1 b1 s2 h2 ih =>
    rw [List.all_cons, Bool.and_eq_true] at h
    rw [List.cons_append, runes.eq_def]
    simp [h1, h2, ih h.2]
  | case6 b0 h1 b1 h2 b2 s3 h3 ih =>
    rw [List.all_cons, Bool.and_eq_true] at h
    rw [List.cons_append, runes.eq_def]
    simp [h1, h2, h3, ih h.2]
  | case8 b0 h1 b1 h2 b2 h3 b3 s4 h4 ih =>
    rw [List.all_cons, Bool.and_eq_true] at h
    rw [List.cons_append, runes.eq_def]
    simp [h1, h2, h3, h4, ih h.2]
  | case3 b0 h1 => simp [h1] at h
  | case5 b0 h1 => simp [h1] at h
  | case7 b0 h1 => simp [h1] at h
  | case9 b0 h1 => simp [h1] at h

/-- No encoding begins another one. -/
theorem isRune_of_isRune_append {c d : GoString} (h : isRune (c ++ d) = true) (hd : d ≠ []) :
    isRune c = false := by
  by_contra hc
  obtain ⟨heq, -⟩ := eq_of_isRune_append (Bool.of_not_eq_false hc) h
    (show c ++ d = c ++ d ++ [] by rw [List.append_nil])
  exact hd (List.append_right_eq_self.mp heq.symm)

theorem runes_append_of_isRune {c : GoString} (h : isRune c = true) (s : GoString) :
    runes (c ++ s) = c :: runes s := by
  cases encoding_of_isRune h with
  | one b0 h0 =>
    rw [List.cons_append, runes.eq_def]
    simp [h]
  | two b0 b1 h0 h1 =>
    have h1 : isRune [b0] = false := isRune_of_isRune_append (d := [b1]) h (by simp)
    rw [List.cons_append, runes.eq_def]
    simp [h1, h]
  | three b0 b1 b2 h0 h1 h01 h2 =>
    have h1 : isRune [b0] = false := isRune_of_isRune_append (d := [b1, b2]) h (by simp)
    have h2 : isRune [b0, b1] = false := isRune_of_isRune_append (d := [b2]) h (by simp)
    rw [List.cons_append, runes.eq_def]
    simp [h1, h2, h]
  | four b0 b1 b2 b3 h0 h1 h01 h2 h3 =>
    have h1 : isRune [b0] = false := isRune_of_isRune_append (d := [b1, b2, b3]) h (by simp)
    have h2 : isRune [b0, b1] = false := isRune_of_isRune_append (d := [b2, b3]) h (by simp)
    have h3 : isRune [b0, b1, b2] = false := isRune_of_isRune_append (d := [b3]) h (by simp)
    rw [List.cons_append, runes.eq_def]
    simp [h1, h2, h3, h]

theorem length_pos_of_mem_runes {s c : GoString} (h : c ∈ runes s) : 0 < c.length := by
  obtain hrune | ⟨b, rfl, -⟩ := isPiece_of_mem_runes h
  · cases encoding_of_isRune hrune <;> simp
  · simp

theorem length_runes_le (s : GoString) : (runes s).length ≤ s.length := by
  have hle : ∀ cs : List GoString, (∀ c ∈ cs, 0 < c.length) → cs.length ≤ cs.flatten.length := by
    intro cs h
    induction cs with
    | nil => rfl
    | cons c cs ih =>
      have hc := h c List.mem_cons_self
      have hcs := ih fun d hd => h d (List.mem_cons_of_mem c hd)
      simp only [List.length_cons, List.flatten_cons, List.length_append]
      omega
  have hrunes := hle (runes s) fun c hc => length_pos_of_mem_runes hc
  rwa [flatten_runes] at hrunes

/-- The rest of a string is decoded on its own after its first rune. -/
theorem exists_runes_cons {s : GoString} (h : s ≠ []) :
    ∃ c rest, s = c ++ rest ∧ runes s = c :: runes rest := by
  fun_cases runes s with
  | case1 => exact absurd rfl h
  | case2 b0 s1 => exact ⟨[b0], s1, rfl, rfl⟩
  | case3 b0 => exact ⟨[b0], [], rfl, rfl⟩
  | case4 b0 h1 b1 s2 => exact ⟨[b0, b1], s2, rfl, rfl⟩
  | case5 b0 h1 b1 => exact ⟨[b0], [b1], rfl, rfl⟩
  | case6 b0 h1 b1 h2 b2 s3 => exact ⟨[b0, b1, b2], s3, rfl, rfl⟩
  | case7 b0 h1 b1 h2 b2 => exact ⟨[b0], [b1, b2], rfl, rfl⟩
  | case8 b0 h1 b1 h2 b2 h3 b3 s4 => exact ⟨[b0, b1, b2, b3], s4, rfl, rfl⟩
  | case9 b0 h1 b1 h2 b2 h3 b3 s4 => exact ⟨[b0], b1 :: b2 :: b3 :: s4, rfl, rfl⟩

theorem runes_eq_cons {s c : GoString} {cs : List GoString} (h : runes s = c :: cs) :
    ∃ rest, s = c ++ rest ∧ runes rest = cs := by
  have hne : s ≠ [] := by
    rintro rfl
    simp [runes] at h
  obtain ⟨d, rest, hsplit, hrunes⟩ := exists_runes_cons hne
  rw [hrunes, List.cons.injEq] at h
  exact ⟨rest, by rw [hsplit, h.1], h.2⟩

theorem runes_tail {c : GoString} {cs : List GoString} (h : runes (c :: cs).flatten = c :: cs) :
    runes cs.flatten = cs := by
  obtain ⟨rest, hrest, hruns⟩ := runes_eq_cons h
  rw [List.flatten_cons, List.append_cancel_left_eq] at hrest
  rw [hrest, hruns]

/-- Pieces that are left out at the front do not change those behind them. -/
theorem runes_of_append_runes (us : List GoString) {rest : List GoString}
    (h : runes (us ++ rest).flatten = us ++ rest) : runes rest.flatten = rest := by
  induction us with
  | nil => exact h
  | cons c us ih => exact ih (runes_tail h)

/-- The pieces of a string stay what they are when the string ends behind them. -/
theorem runes_of_runes_append {us rest : List GoString}
    (h : runes (us ++ rest).flatten = us ++ rest) : runes us.flatten = us := by
  induction us with
  | nil => rfl
  | cons c us ih =>
    have htail : runes us.flatten = us := ih (runes_tail h)
    have hc : c ∈ runes ((c :: us) ++ rest).flatten := by
      rw [h]
      exact List.mem_cons_self
    obtain hrune | ⟨b, rfl, -⟩ := isPiece_of_mem_runes hc
    · rw [List.flatten_cons, runes_append_of_isRune hrune, htail]
    · obtain ⟨d, rest', hsplit, hrunes⟩ := exists_runes_cons (s := [b] ++ us.flatten) (by simp)
      have hd : d = [b] := by
        have hmem : d ∈ runes ([b] ++ us.flatten) := by
          rw [hrunes]
          exact List.mem_cons_self
        obtain hrune | ⟨b', rfl, -⟩ := isPiece_of_mem_runes hmem
        · -- a whole encoding at the front is read there in the longer string too
          have hlong : runes (([b] :: us) ++ rest).flatten =
              d :: runes (rest' ++ rest.flatten) := by
            rw [List.flatten_append, List.flatten_cons, hsplit, List.append_assoc,
              runes_append_of_isRune hrune]
          rw [h] at hlong
          exact (List.cons.inj hlong).1.symm
        · rw [(List.cons.inj hsplit).1]
      rw [hd, List.append_cancel_left_eq] at hsplit
      rw [List.flatten_cons, hrunes, hd, ← hsplit, htail]

/-- An encoding with several bytes has none below 128. -/
theorem high_of_isRune {c : GoString} (h : isRune c = true) (hlength : 2 ≤ c.length) {b : UInt8}
    (hb : b ∈ c) : 0x80 ≤ b.toNat := by
  cases encoding_of_isRune h with
  | one b0 h0 => simp at hlength
  | two b0 b1 h0 h1 =>
    simp only [List.mem_cons, List.not_mem_nil, or_false] at hb
    rcases hb with rfl | rfl <;> omega
  | three b0 b1 b2 h0 h1 h01 h2 =>
    simp only [List.mem_cons, List.not_mem_nil, or_false] at hb
    rcases hb with rfl | rfl | rfl <;> omega
  | four b0 b1 b2 b3 h0 h1 h01 h2 h3 =>
    simp only [List.mem_cons, List.not_mem_nil, or_false] at hb
    rcases hb with rfl | rfl | rfl | rfl <;> omega

theorem isRune_eq_false {c : GoString} (hlength : 2 ≤ c.length) {b : UInt8} (hb : b ∈ c)
    (hlt : b.toNat < 0x80) : isRune c = false := by
  by_contra h
  have := high_of_isRune (Bool.of_not_eq_false h) hlength hb
  omega

theorem isRune_singleton {b : UInt8} (h : b.toNat < 0x80) : isRune [b] = true := by
  simpa [isRune, UInt8.lt_iff_toNat_lt] using h

/-- A byte below 128 ends every sequence before it. -/
theorem runes_append_ascii {b : UInt8} (hb : b.toNat < 0x80) (s t : GoString) :
    runes (s ++ b :: t) = runes s ++ [b] :: runes t := by
  have hone : ∀ t, runes (b :: t) = [b] :: runes t :=
    fun t => runes_append_of_isRune (isRune_singleton hb) t
  have htwo : ∀ x, isRune [x, b] = false := fun x => isRune_eq_false (by simp) (by simp) hb
  have hthree : ∀ x y, isRune [x, b, y] = false ∧ isRune [x, y, b] = false := fun x y =>
    ⟨isRune_eq_false (by simp) (List.mem_cons_of_mem _ List.mem_cons_self) hb,
     isRune_eq_false (by simp) (by simp) hb⟩
  have hfour : ∀ x y z, isRune [x, b, y, z] = false ∧ isRune [x, y, b, z] = false ∧
      isRune [x, y, z, b] = false := fun x y z =>
    ⟨isRune_eq_false (by simp) (List.mem_cons_of_mem _ List.mem_cons_self) hb,
     isRune_eq_false (by simp) (by simp) hb, isRune_eq_false (by simp) (by simp) hb⟩
  fun_induction runes s with
  | case1 => exact hone t
  | case2 b0 s1 h1 ih =>
    rw [List.cons_append, runes.eq_def]
    simp [h1, ih]
  | case3 b0 h1 =>
    rw [List.cons_append, runes.eq_def]
    cases t with
    | nil => simp [h1, htwo, hone]
    | cons x t => cases t <;> simp [h1, htwo, hthree, hfour, hone]
  | case4 b0 h1 b1 s2 h2 ih =>
    rw [List.cons_append, runes.eq_def]
    simp [h1, h2, ih]
  | case5 b0 h1 b1 h2 ih =>
    rw [List.cons_append, runes.eq_def]
    cases t <;> simp_all
  | case6 b0 h1 b1 h2 b2 s3 h3 ih =>
    rw [List.cons_append, runes.eq_def]
    simp [h1, h2, h3, ih]
  | case7 b0 h1 b1 h2 b2 h3 ih =>
    rw [List.cons_append, runes.eq_def]
    simp_all
  | case8 b0 h1 b1 h2 b2 h3 b3 s4 h4 ih =>
    rw [List.cons_append, runes.eq_def]
    simp [h1, h2, h3, h4, ih]
  | case9 b0 h1 b1 h2 b2 h3 b3 s4 h4 ih =>
    rw [List.cons_append, runes.eq_def]
    simp_all

theorem validString_append_of_isRune {c : GoString} (h : isRune c = true) (s : GoString) :
    validString (c ++ s) = validString s := by
  match c with
  | [b0] =>
    rw [List.cons_append, validString.eq_def]
    simp_all [isRune]
  | [b0, b1] =>
    have h1 : isRune [b0] = false := isRune_of_isRune_append (d := [b1]) h (by simp)
    rw [List.cons_append, validString.eq_def]
    simp_all [isRune]
  | [b0, b1, b2] =>
    have h1 : isRune [b0] = false := isRune_of_isRune_append (d := [b1, b2]) h (by simp)
    rw [List.cons_append, validString.eq_def]
    simp_all [isRune]
    grind
  | [b0, b1, b2, b3] =>
    have h1 : isRune [b0] = false := isRune_of_isRune_append (d := [b1, b2, b3]) h (by simp)
    rw [List.cons_append, validString.eq_def]
    simp_all [isRune]
    grind

theorem all_isRune_of_validString {s : GoString} (h : validString s = true) :
    (runes s).all isRune = true := by
  have hstep : ∀ {c t : GoString}, isRune c = true → (runes t).all isRune = true →
      (runes (c ++ t)).all isRune = true := by
    intro c t hc ht
    rw [runes_append_of_isRune hc, List.all_cons, hc, ht]
    rfl
  fun_induction validString s with
  | case1 => rfl
  | case2 b0 s1 h0 ih => exact hstep (c := [b0]) (by simpa [isRune] using h0) (ih h)
  | case4 b0 h0 b1 s2 h1 ih =>
    rw [Bool.and_eq_true] at h
    exact hstep (c := [b0, b1]) (by simp [isRune, h1, h.1]) (ih h.2)
  | case6 b0 h0 b1 h1 b2 s3 h2 ih =>
    rw [Bool.and_eq_true] at h
    exact hstep (c := [b0, b1, b2]) (by simpa [isRune, h2] using h.1) (ih h.2)
  | case8 b0 h0 b1 h1 b2 h2 b3 s4 h3 ih =>
    rw [Bool.and_eq_true] at h
    exact hstep (c := [b0, b1, b2, b3]) (by simpa [isRune, h3] using h.1) (ih h.2)
  | case3 | case5 | case7 | case9 => simp at h

theorem validString_flatten {cs : List GoString} (h : cs.all isRune = true) :
    validString cs.flatten = true := by
  induction cs with
  | nil => rfl
  | cons c cs ih =>
    rw [List.all_cons, Bool.and_eq_true] at h
    rw [List.flatten_cons, validString_append_of_isRune h.1, ih h.2]

/-- A valid string is a sequence of whole encodings. -/
theorem validString_iff {s : GoString} : validString s = true ↔ ∀ c ∈ runes s, isRune c = true := by
  rw [← List.all_eq_true]
  constructor
  · exact all_isRune_of_validString
  · intro h
    rw [← flatten_runes s]
    exact validString_flatten h

/-- Valid strings are built from whole encodings. -/
theorem validString_induction {P : GoString → Prop} (hnil : P [])
    (hcons : ∀ c s, isRune c = true → P s → P (c ++ s)) {s : GoString}
    (h : validString s = true) : P s := by
  have hpieces : ∀ cs : List GoString, (∀ c ∈ cs, isRune c = true) → P cs.flatten := by
    intro cs hcs
    induction cs with
    | nil => exact hnil
    | cons c cs ih =>
      obtain ⟨hc, hcs⟩ := List.forall_mem_cons.mp hcs
      exact hcons c cs.flatten hc (ih hcs)
  rw [← flatten_runes s]
  exact hpieces _ (validString_iff.mp h)

theorem validString_append {s t : GoString} (hs : validString s = true)
    (ht : validString t = true) : validString (s ++ t) = true := by
  rw [validString_iff] at hs ht ⊢
  rw [runes_append (List.all_eq_true.mpr hs)]
  intro c hc
  exact (List.mem_append.mp hc).elim (hs c) (ht c)

/-- No encoding has the byte 255. -/
theorem ff_not_mem_of_isRune {c : GoString} (h : isRune c = true) : 0xff ∉ c := by
  intro hmem
  have hff : (0xff : UInt8).toNat = 255 := rfl
  cases encoding_of_isRune h with
  | one b0 h0 =>
    obtain rfl := List.mem_singleton.mp hmem
    omega
  | two b0 b1 h0 h1 =>
    simp only [List.mem_cons, List.not_mem_nil, or_false] at hmem
    rcases hmem with rfl | rfl <;> omega
  | three b0 b1 b2 h0 h1 h01 h2 =>
    simp only [List.mem_cons, List.not_mem_nil, or_false] at hmem
    rcases hmem with rfl | rfl | rfl <;> omega
  | four b0 b1 b2 b3 h0 h1 h01 h2 h3 =>
    simp only [List.mem_cons, List.not_mem_nil, or_false] at hmem
    rcases hmem with rfl | rfl | rfl | rfl <;> omega

theorem ff_not_mem_of_validString {s : GoString} (h : validString s = true) : 0xff ∉ s := by
  refine validString_induction (P := fun s => 0xff ∉ s) (by simp) (fun c s hc hs => ?_) h
  rw [List.mem_append]
  exact fun hmem => hmem.elim (ff_not_mem_of_isRune hc) hs

theorem validString_of_ascii {s : GoString} (h : ∀ b ∈ s, b.toNat < 0x80) :
    validString s = true := by
  induction s with
  | nil => rfl
  | cons b s ih =>
    rw [← List.singleton_append, validString_append_of_isRune (isRune_singleton
      (h b List.mem_cons_self)), ih fun b' hb' => h b' (List.mem_cons_of_mem b hb')]

theorem validString_of_append_ascii {s t : GoString} {b : UInt8} (hb : b.toNat < 0x80)
    (h : validString (s ++ b :: t) = true) : validString s = true := by
  rw [validString_iff, runes_append_ascii hb] at h
  exact validString_iff.mpr fun c hc => h c (List.mem_append_left _ hc)

theorem runes_flatten {cs : List GoString} (h : ∀ c ∈ cs, isRune c = true) :
    runes cs.flatten = cs := by
  induction cs with
  | nil => rfl
  | cons c cs ih =>
    rw [List.flatten_cons, runes_append_of_isRune (h c List.mem_cons_self),
      ih fun d hd => h d (List.mem_cons_of_mem c hd)]

/-- `utf8.ValidRune`. -/
def validRune (r : ℕ) : Bool := r < 0xD800 || 0xE000 ≤ r && r ≤ 0x10FFFF

/-- `utf8.RuneError`. -/
def runeError : ℕ := 0xFFFD

/-- The rune that `utf8.DecodeRuneInString` returns for a piece of a string. -/
def pieceRune (c : GoString) : ℕ := if isRune c then rune c else runeError

/-- `utf8.DecodeRuneInString`: the first rune and its width. -/
def decodeRune (s : GoString) : ℕ × ℕ :=
  match runes s with
  | [] => (runeError, 0)
  | c :: _ => (pieceRune c, c.length)

/-- `[]rune(s)`. -/
def toRunes (s : GoString) : List ℕ := (runes s).map pieceRune

/-- `string(r)` of a rune. -/
def ofRune (r : ℕ) : GoString := encodeRune (if validRune r then r else runeError)

/-- `string(rs)` of runes. -/
def ofRunes (rs : List ℕ) : GoString := rs.flatMap ofRune

/-- A piece is a byte below 128, or it has no such byte and is no such rune. -/
theorem piece_cases {c : GoString} (h : IsPiece c) :
    (∃ b, c = [b] ∧ b.toNat < 0x80 ∧ pieceRune c = b.toNat) ∨
      c ≠ [] ∧ (∀ b ∈ c, 0x80 ≤ b.toNat) ∧ 0x80 ≤ pieceRune c := by
  obtain hrune | ⟨b, rfl, hb⟩ := h
  · rw [pieceRune, if_pos hrune]
    cases encoding_of_isRune hrune with
    | one b0 h0 => exact Or.inl ⟨b0, rfl, h0, Nat.mod_eq_of_lt h0⟩
    | two b0 b1 h0 h1 =>
      refine Or.inr ⟨by simp, fun b hb => high_of_isRune hrune (by simp) hb, ?_⟩
      simp only [rune, leading, List.foldl_cons, List.foldl_nil, List.length_cons, List.length_nil]
      omega
    | three b0 b1 b2 h0 h1 h01 h2 =>
      refine Or.inr ⟨by simp, fun b hb => high_of_isRune hrune (by simp) hb, ?_⟩
      simp only [rune, leading, List.foldl_cons, List.foldl_nil, List.length_cons, List.length_nil]
      omega
    | four b0 b1 b2 b3 h0 h1 h01 h2 h3 =>
      refine Or.inr ⟨by simp, fun b hb => high_of_isRune hrune (by simp) hb, ?_⟩
      simp only [rune, leading, List.foldl_cons, List.foldl_nil, List.length_cons, List.length_nil]
      omega
  · have hnot : isRune [b] = false := by
      simp only [isRune, decide_eq_false_iff_not, UInt8.not_lt]
      exact hb
    refine Or.inr ⟨by simp, fun b' hb' => ?_, by simp [pieceRune, hnot, runeError]⟩
    obtain rfl := List.mem_singleton.mp hb'
    exact UInt8.le_iff_toNat_le.mp hb

theorem runes_ascii_cons {b : UInt8} (hb : b.toNat < 0x80) (s : GoString) :
    runes (b :: s) = [b] :: runes s :=
  runes_append_ascii hb [] s

theorem runes_ascii {s : GoString} (h : ∀ b ∈ s, b.toNat < 0x80) : runes s = s.map ([·]) := by
  induction s with
  | nil => rfl
  | cons b s ih =>
    rw [runes_ascii_cons (h b List.mem_cons_self),
      ih fun b' hb' => h b' (List.mem_cons_of_mem b hb'), List.map_cons]

theorem pieceRune_ascii {b : UInt8} (hb : b.toNat < 0x80) : pieceRune [b] = b.toNat := by
  rw [pieceRune, if_pos (isRune_singleton hb)]
  exact Nat.mod_eq_of_lt hb

theorem second3_upper {b0 b1 : UInt8} (h : second3 b0 b1 = true) (h0 : b0.toNat = 0xED) :
    b1.toNat ≤ 0x9F := by
  have hb0 : b0 = 0xED := UInt8.toNat_inj.mp h0
  subst hb0
  simp [second3, UInt8.le_iff_toNat_le] at h
  omega

theorem second4_upper {b0 b1 : UInt8} (h : second4 b0 b1 = true) (h0 : b0.toNat = 0xF4) :
    b1.toNat ≤ 0x8F := by
  have hb0 : b0 = 0xF4 := UInt8.toNat_inj.mp h0
  subst hb0
  simp [second4, UInt8.le_iff_toNat_le] at h
  omega

theorem validRune_rune {c : GoString} (h : isRune c = true) : validRune (rune c) = true := by
  simp only [validRune, Bool.or_eq_true, Bool.and_eq_true, decide_eq_true_eq]
  cases encoding_of_isRune h with
  | one b0 h0 =>
    simp only [rune, leading, List.foldl_nil, List.length_nil]
    omega
  | two b0 b1 h0 h1 =>
    simp only [rune, leading, List.foldl_cons, List.foldl_nil, List.length_cons, List.length_nil]
    omega
  | three b0 b1 b2 h0 h1 h01 h2 =>
    simp only [isRune, Bool.and_eq_true] at h
    have hupper := second3_upper h.1.2
    simp only [rune, leading, List.foldl_cons, List.foldl_nil, List.length_cons, List.length_nil]
    omega
  | four b0 b1 b2 b3 h0 h1 h01 h2 h3 =>
    simp only [isRune, Bool.and_eq_true] at h
    have hupper := second4_upper h.1.1.2
    simp only [rune, leading, List.foldl_cons, List.foldl_nil, List.length_cons, List.length_nil]
    omega

theorem ofRune_pieceRune {c : GoString} (h : isRune c = true) : ofRune (pieceRune c) = c := by
  rw [pieceRune, if_pos h, ofRune, if_pos (validRune_rune h), encodeRune_rune h]

theorem length_ofRune_pos (r : ℕ) : 0 < (ofRune r).length := by
  simp only [ofRune, encodeRune]
  split_ifs <;> simp

@[simp] theorem length_toRunes (s : GoString) : (toRunes s).length = (runes s).length :=
  List.length_map _

theorem ofRunes_append (rs rs' : List ℕ) : ofRunes (rs ++ rs') = ofRunes rs ++ ofRunes rs' :=
  List.flatMap_append

theorem length_le_length_ofRunes (rs : List ℕ) : rs.length ≤ (ofRunes rs).length := by
  induction rs with
  | nil => rfl
  | cons r rs ih =>
    have hpos := length_ofRune_pos r
    simp only [ofRunes, List.flatMap_cons, List.length_append, List.length_cons] at ih ⊢
    omega

/-- The leading runes of a valid string are written as they were read. -/
theorem ofRunes_take_toRunes {s : GoString} (h : validString s = true) (k : ℕ) :
    ofRunes ((toRunes s).take k) = ((runes s).take k).flatten := by
  have hpieces : ∀ cs : List GoString, (∀ c ∈ cs, isRune c = true) →
      ofRunes (cs.map pieceRune) = cs.flatten := by
    intro cs hcs
    rw [ofRunes, List.flatMap_map, List.flatten_eq_flatMap]
    exact List.flatMap_congr fun c hc => ofRune_pieceRune (hcs c hc)
  rw [toRunes, ← List.map_take]
  exact hpieces _ fun c hc => validString_iff.mp h c (List.mem_of_mem_take hc)

theorem ofRunes_toRunes {s : GoString} (h : validString s = true) : ofRunes (toRunes s) = s := by
  have htake := ofRunes_take_toRunes h (runes s).length
  rwa [List.take_length, flatten_runes, ← length_toRunes, List.take_length] at htake

end Utf8

end Alertmanager
