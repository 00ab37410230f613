import Alertmanager.ClassicParser
import Alertmanager.FirstFault

/-!
# Lists of matchers in the classic parser

`ParseMatchers` on matchers in quotes that are joined with commas. Inside quotes its loop
follows the escapes as `ParseMatcher` does, except that a comma does not end an escape. The
matchers are split where they were joined if and only if the text between the quotes reads
the same when its commas are left out, as far as the loop depends on it.
-/
namespace Alertmanager

namespace Classic

/-- The escapes of a text in which a comma does not count. -/
def splitState (escaped : Bool) (s : GoString) : Option Bool :=
  Strconv.escapeState escaped (s.filter (· ≠ 44))

theorem splitState_append (escaped : Bool) (s t : GoString) :
    splitState escaped (s ++ t) = (splitState escaped s).bind fun e => splitState e t := by
  rw [splitState, List.filter_append, Strconv.escapeState_append]
  rfl

theorem splitState_of_not_mem {s : GoString} (h : 44 ∉ s) (escaped : Bool) :
    splitState escaped s = Strconv.escapeState escaped s := by
  rw [splitState, List.filter_eq_self.mpr]
  intro b hb
  simpa using fun hcomma : b = 44 => h (hcomma ▸ hb)

theorem splitState_cons (escaped : Bool) (b : UInt8) (s : GoString) :
    splitState escaped (b :: s) = (splitState escaped [b]).bind fun e => splitState e s :=
  splitState_append escaped [b] s

theorem splitState_byte_eq_none {escaped : Bool} {b : UInt8} (h : splitState escaped [b] = none) :
    escaped = false ∧ b = 34 := by
  by_cases hcomma : b = 44
  · simp [splitState, hcomma, Strconv.escapeState] at h
  · rw [splitState_of_not_mem (by simpa using Ne.symm hcomma)] at h
    cases escaped with
    | true => simp [Strconv.escapeState] at h
    | false =>
      simp only [Strconv.escapeState] at h
      split_ifs at h with hbackslash hquote
      exact ⟨rfl, hquote⟩

/-- A state is lost at a quote that is not escaped. -/
theorem exists_quote_of_splitState {escaped : Bool} {s : GoString}
    (h : splitState escaped s = none) :
    ∃ a b, s = a ++ 34 :: b ∧ splitState escaped a = some false := by
  induction s generalizing escaped with
  | nil => simp [splitState, Strconv.escapeState] at h
  | cons b s ih =>
    rw [splitState_cons] at h
    cases hb : splitState escaped [b] with
    | none =>
      obtain ⟨rfl, rfl⟩ := splitState_byte_eq_none hb
      exact ⟨[], s, rfl, rfl⟩
    | some e =>
      rw [hb, Option.bind_some] at h
      obtain ⟨a, b', rfl, ha⟩ := ih h
      exact ⟨b :: a, b', rfl, by rw [splitState_cons, hb, Option.bind_some, ha]⟩

/-- A text with a comma that the loop takes for one outside quotes. -/
def Cut (content : GoString) : Prop :=
  ∃ a b, content = a ++ 44 :: b ∧ splitState false a = none

/-- The texts between the quotes for which the loop splits joined matchers correctly. What
it holds of the state behind the last one makes no difference. -/
def Separable : List GoString → Prop
  | [] => True
  | [content] => ¬Cut content
  | content :: contents => splitState false content = some false ∧ Separable contents

namespace Splitter

/-- The loop over the bytes of a string. -/
def feed (st : Splitter) (s : GoString) : Splitter := st.run (Utf8.bytes s)

@[simp] theorem feed_nil (st : Splitter) : st.feed [] = st := rfl

theorem feed_append (st : Splitter) (s t : GoString) : st.feed (s ++ t) = (st.feed s).feed t := by
  rw [feed, Utf8.bytes_append, run, List.foldl_append]
  rfl

theorem feed_cons (st : Splitter) (b : UInt8) (s : GoString) :
    st.feed (b :: s) = (st.next (b.toNat, [b])).feed s := rfl

theorem next_byte (st : Splitter) (b : UInt8) : st.next (b.toNat, [b]) =
    if b = 44 then
      if !st.insideQuotes then { st with tokens := st.tokens ++ [st.token], token := [] }
      else st.write [b]
    else if b = 34 then
      if !st.escaped then { st with insideQuotes := !st.insideQuotes }.write [b]
      else { st with escaped := false }.write [b]
    else if b = 92 then { st with escaped := !st.escaped }.write [b]
    else { st with escaped := false }.write [b] := by
  have hbyte : ∀ n : UInt8, b.toNat = n.toNat ↔ b = n := fun n => UInt8.toNat_inj
  have h44 : b.toNat = 44 ↔ b = 44 := hbyte 44
  have h34 : b.toNat = 34 ↔ b = 34 := hbyte 34
  have h92 : b.toNat = 92 ↔ b = 92 := hbyte 92
  simp only [next, h44, h34, h92]

/-- A byte inside quotes, or outside them and not a comma. -/
theorem next_of_splitState {st : Splitter} {b : UInt8} (hb : st.insideQuotes = true ∨ b ≠ 44)
    {escaped : Bool} (h : splitState st.escaped [b] = some escaped) :
    st.next (b.toNat, [b]) = { st with escaped := escaped, token := st.token ++ [b] } := by
  obtain ⟨insideQuotes, e, token, tokens⟩ := st
  rw [next_byte]
  by_cases hcomma : b = 44
  · obtain rfl : insideQuotes = true := hb.resolve_right fun hne => hne hcomma
    obtain rfl : e = escaped := by simpa [splitState, hcomma, Strconv.escapeState] using h
    rw [if_pos hcomma]
    rfl
  · rw [splitState_of_not_mem (by simpa using Ne.symm hcomma)] at h
    rw [if_neg hcomma]
    by_cases hquote : b = 34
    · cases e with
      | true =>
        obtain rfl : false = escaped := by simpa [Strconv.escapeState] using h
        rw [if_pos hquote]
        rfl
      | false => simp [Strconv.escapeState, hquote] at h
    · rw [if_neg hquote]
      by_cases hbackslash : b = 92
      · obtain rfl : (!e) = escaped := by
          cases e <;> simpa [Strconv.escapeState, hbackslash] using h
        rw [if_pos hbackslash]
        rfl
      · obtain rfl : false = escaped := by
          cases e <;> simpa [Strconv.escapeState, hbackslash, hquote] using h
        rw [if_neg hbackslash]
        rfl

/-- The loop follows the escapes inside quotes, and outside them up to a comma. -/
theorem feed_of_splitState {st : Splitter} {s : GoString} (hs : st.insideQuotes = true ∨ 44 ∉ s)
    {escaped : Bool} (h : splitState st.escaped s = some escaped) :
    st.feed s = { st with escaped := escaped, token := st.token ++ s } := by
  induction s generalizing st with
  | nil =>
    obtain rfl : st.escaped = escaped := by simpa [splitState, Strconv.escapeState] using h
    simp
  | cons b s ih =>
    rw [splitState_cons, Option.bind_eq_some_iff] at h
    obtain ⟨e, hb, hrest⟩ := h
    rw [List.mem_cons, not_or] at hs
    have hnext := next_of_splitState (hs.imp_right fun hne => Ne.symm hne.1) hb
    have hfeed := @ih { st with escaped := e, token := st.token ++ [b] }
      (hs.imp_right And.right) hrest
    rw [feed_cons, hnext, hfeed]
    simp

theorem run_written {s : GoString} (h : Utf8.validString s = true) (st : Splitter) :
    st.run (Utf8.written s) = st.feed s := by
  have heq := Utf8.written_eq_bytes (F := fun ps (st : Splitter) => st.run ps) ?_ ?_ h
  · exact congrFun heq st
  · intro p ps ps' hps
    exact funext fun st => congrFun hps (st.next p)
  · intro r c ps hr hne hc
    have hcomma : 44 ∉ c := fun hmem => absurd (hc 44 hmem) (by decide)
    have hstate : ∀ e, splitState e c = some false := fun e => by
      rw [splitState_of_not_mem hcomma, Strconv.escapeState_high hc hne]
    refine funext fun st => ?_
    have hfeed := feed_of_splitState (Or.inr hcomma) (hstate st.escaped)
    have hnext : st.next (r, c) = st.feed c := by
      have hr' : ¬r = 44 ∧ ¬r = 34 ∧ ¬r = 92 := by omega
      simp only [hfeed, next, hr', if_false]
      rfl
    change (st.next (r, c)).run ps = (Utf8.bytes c ++ ps).foldl next st
    rw [hnext, List.foldl_append]
    rfl

/-- A byte that is not a comma is written. -/
theorem next_of_ne {b : UInt8} (hb : b ≠ 44) (st : Splitter) :
    (st.next (b.toNat, [b])).token = st.token ++ [b] ∧
      (st.next (b.toNat, [b])).tokens = st.tokens := by
  rw [next_byte, if_neg hb]
  split_ifs <;> exact ⟨rfl, rfl⟩

/-- Without a comma nothing is split. -/
theorem feed_of_not_mem {s : GoString} (h : 44 ∉ s) (st : Splitter) :
    (st.feed s).token = st.token ++ s ∧ (st.feed s).tokens = st.tokens := by
  induction s generalizing st with
  | nil => simp
  | cons b s ih =>
    rw [List.mem_cons, not_or] at h
    obtain ⟨htoken, htokens⟩ := next_of_ne (Ne.symm h.1) st
    obtain ⟨htoken', htokens'⟩ := ih h.2 (st.next (b.toNat, [b]))
    rw [feed_cons, htoken', htokens', htoken, htokens]
    simp

/-- Tokens stay, and what is in the token stays in front of what comes. -/
theorem feed_token (st : Splitter) (s : GoString) : st.tokens <+: (st.feed s).tokens ∧
    ∃ more, (st.feed s).token = st.token ++ more ∨ st.token ++ more ∈ (st.feed s).tokens := by
  induction s generalizing st with
  | nil => exact ⟨List.prefix_rfl, [], Or.inl (by simp)⟩
  | cons b s ih =>
    obtain ⟨hkeep, more, hmore⟩ := ih (st.next (b.toNat, [b]))
    rw [feed_cons]
    by_cases hcut : b = 44 ∧ st.insideQuotes = false
    · obtain ⟨rfl, houtside⟩ := hcut
      have htokens : (st.next (UInt8.toNat 44, [44])).tokens = st.tokens ++ [st.token] := by
        rw [next_byte, if_pos rfl, houtside]
        rfl
      rw [htokens] at hkeep
      refine ⟨(List.prefix_append _ _).trans hkeep, [], Or.inr ?_⟩
      exact hkeep.subset (by simp)
    · have hwrite : (st.next (b.toNat, [b])).token = st.token ++ [b] ∧
          (st.next (b.toNat, [b])).tokens = st.tokens := by
        by_cases hcomma : b = 44
        · have hinside : st.insideQuotes = true := by simpa [hcomma] using hcut
          rw [next_byte, if_pos hcomma, hinside]
          exact ⟨rfl, rfl⟩
        · exact next_of_ne hcomma st
      rw [hwrite.1, List.append_assoc] at hmore
      rw [hwrite.2] at hkeep
      exact ⟨hkeep, [b] ++ more, hmore⟩

theorem feed_quote {st : Splitter} (h : st.escaped = false) :
    st.feed [34] = { st with insideQuotes := !st.insideQuotes, token := st.token ++ [34] } := by
  rw [feed_cons, feed_nil, next_byte, if_neg (by decide), if_pos rfl, h]
  rfl

theorem feed_escaped_quote {st : Splitter} (h : st.escaped = true) :
    st.feed [34] = { st with escaped := false, token := st.token ++ [34] } := by
  rw [feed_cons, feed_nil, next_byte, if_neg (by decide), if_pos rfl, h]
  rfl

end Splitter

open Splitter (feed_append feed_quote feed_of_splitState feed_cons next_byte feed_token)

/-! ### One matcher in a list -/

/-- A byte that makes no difference to the loop. -/
def Neutral (b : UInt8) : Prop := b.toNat < 0x80 ∧ b ≠ 44 ∧ b ≠ 34 ∧ b ≠ 92

instance : DecidablePred Neutral :=
  fun b => inferInstanceAs (Decidable (b.toNat < 0x80 ∧ b ≠ 44 ∧ b ≠ 34 ∧ b ≠ 92))

theorem neutral_of_isBlank {b : UInt8} (h : isBlank b = true) : Neutral b := by
  rcases isBlank_iff.mp h with rfl | rfl | rfl | rfl | rfl <;> decide

theorem toNat_of_isNamePart {b : UInt8} (h : isNamePart b = true) :
    48 ≤ b.toNat ∧ b.toNat ≤ 122 := by
  simp only [isNamePart, isNameStart, Bool.or_eq_true, Bool.and_eq_true, decide_eq_true_eq,
    beq_iff_eq, UInt8.le_iff_toNat_le, ← UInt8.toNat_inj, UInt8.reduceToNat] at h
  omega

theorem neutral_of_isNamePart {b : UInt8} (h : isNamePart b = true) : Neutral b := by
  refine ⟨?_, ?_, ?_, ?_⟩
  · have hb := toNat_of_isNamePart h
    omega
  · rintro rfl
    cases h
  · rintro rfl
    cases h
  · rintro rfl
    cases h

theorem Frame.neutral (f : Frame) : ∀ b ∈ f.text, Neutral b := by
  have hop : ∀ b ∈ f.op.string, Neutral b := by
    have hall : f.op.string.all (fun b => decide (Neutral b)) = true := by
      cases f.op <;> rfl
    exact fun b hb => of_decide_eq_true (List.all_eq_true.mp hall b hb)
  intro b hb
  simp only [Frame.text, List.mem_append] at hb
  rcases hb with hb | hb | hb | hb | hb
  · exact neutral_of_isBlank (f.lead_blank b hb)
  · exact neutral_of_isNamePart (f.name_part b hb)
  · exact neutral_of_isBlank (f.gap_blank b hb)
  · exact hop b hb
  · exact neutral_of_isBlank (f.space_blank b hb)

theorem not_mem_of_neutral {s : GoString} (h : ∀ b ∈ s, Neutral b) : 44 ∉ s :=
  fun hmem => (h 44 hmem).2.1 rfl

theorem splitState_of_neutral {s : GoString} (h : ∀ b ∈ s, Neutral b) :
    splitState false s = some false := by
  rw [splitState_of_not_mem (not_mem_of_neutral h)]
  induction s with
  | nil => rfl
  | cons b s ih =>
    obtain ⟨-, -, hquote, hbackslash⟩ := h b List.mem_cons_self
    rw [Strconv.escapeState, if_neg hbackslash, if_neg hquote]
    exact ih fun b' hb' => h b' (List.mem_cons_of_mem b hb')

theorem exists_last_comma {s : GoString} (h : 44 ∈ s) : ∃ a b, s = a ++ 44 :: b ∧ 44 ∉ b := by
  obtain ⟨b, a, hsplit, hb⟩ := List.eq_append_cons_of_mem (List.mem_reverse.mpr h)
  refine ⟨a.reverse, b.reverse, ?_, by simpa using hb⟩
  rw [← List.reverse_reverse s, hsplit]
  simp

namespace Item

variable (i : Item)

theorem not_mem_trail : 44 ∉ i.trail :=
  not_mem_of_neutral fun b hb => neutral_of_isBlank (i.trail_blank b hb)

theorem splitState_trail : splitState false i.trail = some false :=
  splitState_of_neutral fun b hb => neutral_of_isBlank (i.trail_blank b hb)

/-- The loop behind the opening quote and a part of the text between the quotes. -/
theorem feed_inside (toks : List GoString) {a : GoString} {e : Bool}
    (h : splitState false a = some e) :
    ({ tokens := toks } : Splitter).feed (i.frame.text ++ 34 :: a) =
      { insideQuotes := true, escaped := e, token := i.frame.text ++ 34 :: a, tokens := toks } := by
  have hframe := @feed_of_splitState { tokens := toks } i.frame.text
    (Or.inr (not_mem_of_neutral i.frame.neutral)) _ (splitState_of_neutral i.frame.neutral)
  have hopen : ({ tokens := toks } : Splitter).feed (i.frame.text ++ [34]) =
      { insideQuotes := true, token := i.frame.text ++ [34], tokens := toks } := by
    rw [feed_append, hframe, feed_quote rfl]
    rfl
  rw [← List.singleton_append, ← List.append_assoc, feed_append, hopen,
    feed_of_splitState (Or.inl rfl) h]

/-- Behind a quote that the loop takes for the closing one nothing is escaped, neither for
the loop nor for `ParseMatcher`. -/
theorem escapeState_behind {a b : GoString} (h : i.content = a ++ 34 :: b) :
    Strconv.escapeState false (a ++ [34]) = some false ∧
      Strconv.escapeState false b = some false := by
  have hclosed := i.closed
  rw [h, Strconv.escapeState_append] at hclosed
  rw [Strconv.escapeState_append]
  cases hstate : Strconv.escapeState false a with
  | none => simp [hstate] at hclosed
  | some escaped =>
    rw [hstate, Option.bind_some] at hclosed
    cases escaped with
    | true => exact ⟨rfl, hclosed⟩
    | false => simp [Strconv.escapeState] at hclosed

/-- The loop behind a quote that it takes for the closing one. -/
theorem feed_outside (toks : List GoString) {a c : GoString} (ha : splitState false a = some false)
    (hc : 44 ∉ c) {e : Bool} (h : Strconv.escapeState false c = some e) :
    ({ tokens := toks } : Splitter).feed (i.frame.text ++ 34 :: (a ++ 34 :: c)) =
      { escaped := e, token := i.frame.text ++ 34 :: (a ++ 34 :: c), tokens := toks } := by
  have hsplit : i.frame.text ++ 34 :: (a ++ 34 :: c) =
      (i.frame.text ++ 34 :: a) ++ ([34] ++ c) := by
    simp
  rw [← splitState_of_not_mem hc] at h
  rw [hsplit, feed_append, i.feed_inside toks ha, feed_append,
    feed_quote rfl, feed_of_splitState (Or.inr hc) h]
  simp

/-- A matcher that is split from what follows it. -/
theorem feed_text_comma (toks : List GoString) (h : splitState false i.content = some false) :
    ({ tokens := toks } : Splitter).feed (i.text ++ [44]) = { tokens := toks ++ [i.text] } := by
  have htrail : Strconv.escapeState false i.trail = some false := by
    rw [← splitState_of_not_mem i.not_mem_trail, i.splitState_trail]
  rw [feed_append, Item.text, i.feed_outside toks h i.not_mem_trail htrail,
    feed_cons, next_byte, if_pos rfl]
  rfl

/-- The last matcher is not split. -/
theorem feed_text (toks : List GoString) (h : ¬Cut i.content) :
    (({ tokens := toks } : Splitter).feed i.text).token = i.text ∧
      (({ tokens := toks } : Splitter).feed i.text).tokens = toks := by
  have hframe : 44 ∉ i.frame.text := not_mem_of_neutral i.frame.neutral
  by_cases hcomma : 44 ∈ i.content
  · -- up to the last comma the loop is inside the quotes
    obtain ⟨a, b, hcontent, hb⟩ := exists_last_comma hcomma
    obtain ⟨e, ha⟩ := Option.ne_none_iff_exists'.mp fun hnone => h ⟨a, b, hcontent, hnone⟩
    have hstate : splitState false (a ++ [44]) = some e := by
      rw [splitState_append, ha]
      rfl
    have htext : i.text = (i.frame.text ++ 34 :: (a ++ [44])) ++ (b ++ 34 :: i.trail) := by
      simp [Item.text, hcontent]
    have hrest : 44 ∉ b ++ 34 :: i.trail := by simp [hb, i.not_mem_trail]
    rw [htext, feed_append, i.feed_inside toks hstate]
    exact Splitter.feed_of_not_mem hrest _
  · have hall : 44 ∉ i.text := by simp [Item.text, hframe, hcomma, i.not_mem_trail]
    simpa using Splitter.feed_of_not_mem hall { tokens := toks }

/-- A comma that is taken for one outside the quotes leaves a matcher without its end. -/
theorem exists_mem_feed_text (toks : List GoString) (h : Cut i.content) :
    ∃ p, Strconv.escapeState false p ≠ none ∧
      i.frame.text ++ 34 :: p ∈ (({ tokens := toks } : Splitter).feed i.text).tokens := by
  obtain ⟨_, b, hcontent, hnone⟩ := h
  obtain ⟨a, b', rfl, ha⟩ := exists_quote_of_splitState hnone
  -- the first comma behind the quote
  obtain ⟨c, d, hcd, hc⟩ := List.eq_append_cons_of_mem (show 44 ∈ b' ++ 44 :: b by simp)
  rw [List.append_assoc, List.cons_append, hcd] at hcontent
  obtain ⟨hfront, hback⟩ := i.escapeState_behind hcontent
  rw [Strconv.escapeState_append, Option.bind_eq_some_iff] at hback
  obtain ⟨e, he, -⟩ := hback
  refine ⟨a ++ 34 :: c, ?_, ?_⟩
  · have hsplit : a ++ 34 :: c = (a ++ [34]) ++ c := by simp
    rw [hsplit, Strconv.escapeState_append, hfront, Option.bind_some, he]
    simp
  · have htext : i.text = (i.frame.text ++ 34 :: (a ++ 34 :: c)) ++ 44 :: (d ++ 34 :: i.trail) := by
      simp [Item.text, hcontent]
    rw [htext, feed_append, i.feed_outside toks ha hc he, feed_cons, next_byte, if_pos rfl]
    exact (feed_token _ _).1.subset (by simp)

/-- Otherwise a matcher behind which the loop is not where it was stays in its token. -/
theorem token_feed_text_comma (toks : List GoString) (hcut : ¬Cut i.content)
    (h : splitState false i.content ≠ some false) :
    (({ tokens := toks } : Splitter).feed (i.text ++ [44])).token = i.text ++ [44] := by
  have htrail : splitState false (i.trail ++ [44]) = some false := by
    rw [splitState_append, i.splitState_trail]
    rfl
  have htext : i.text ++ [44] =
      (i.frame.text ++ 34 :: i.content) ++ ([34] ++ (i.trail ++ [44])) := by
    simp [Item.text]
  rw [htext, feed_append]
  cases hstate : splitState false i.content with
  | none =>
    obtain ⟨a, b, hcontent, ha⟩ := exists_quote_of_splitState hstate
    have hb : 44 ∉ b := by
      intro hmem
      obtain ⟨c, d, rfl⟩ := List.append_of_mem hmem
      refine hcut ⟨a ++ 34 :: c, d, by simp [hcontent], ?_⟩
      rw [splitState_append, ha]
      rfl
    rw [hcontent, i.feed_outside toks ha hb (i.escapeState_behind hcontent).2,
      feed_append, feed_quote rfl,
      feed_of_splitState (Or.inl rfl) htrail]
    simp
  | some e =>
    cases e with
    | false => exact absurd hstate h
    | true =>
      rw [i.feed_inside toks hstate, feed_append, Splitter.feed_escaped_quote rfl,
        feed_of_splitState (Or.inl rfl) htrail]
      simp

end Item

/-! ### Tokens -/

/-- The trailing space that `strings.TrimSpace` removes. -/
def trimRightSpace (s : GoString) : GoString :=
  ((Utf8.runes s).rdropWhile isSpacePiece).flatten

theorem isSpace_of_isBlank {b : UInt8} (h : isBlank b = true) : isSpace b.toNat = true := by
  rcases isBlank_iff.mp h with rfl | rfl | rfl | rfl | rfl <;> decide

theorem isSpace_runes {s : GoString} (h : ∀ b ∈ s, isBlank b = true) :
    ∀ c ∈ Utf8.runes s, isSpacePiece c = true := by
  have hascii : ∀ b ∈ s, b.toNat < 0x80 := fun b hb => (neutral_of_isBlank (h b hb)).1
  rw [Utf8.runes_ascii hascii]
  intro c hc
  obtain ⟨b, hb, rfl⟩ := List.mem_map.mp hc
  rw [isSpacePiece, Utf8.pieceRune_ascii (hascii b hb)]
  exact isSpace_of_isBlank (h b hb)

theorem trimRightSpace_blank {s : GoString} (h : ∀ b ∈ s, isBlank b = true) :
    trimRightSpace s = [] := by
  rw [trimRightSpace, List.rdropWhile_eq_nil_iff.mpr (isSpace_runes h)]
  rfl

theorem trimRightSpace_append {b : UInt8} (hb : b.toNat < 0x80) (hspace : isSpace b.toNat = false)
    (x y : GoString) : trimRightSpace (x ++ b :: y) = x ++ b :: trimRightSpace y := by
  have hpiece : isSpacePiece [b] = false := by rw [isSpacePiece, Utf8.pieceRune_ascii hb, hspace]
  rw [trimRightSpace, Utf8.runes_append_ascii hb, rdropWhile_append_cons hpiece,
    List.flatten_append, Utf8.flatten_runes]
  rfl

theorem trimSpace_append {x : GoString} (hx : ∀ b ∈ x, isBlank b = true) {b : UInt8}
    (hb : b.toNat < 0x80) (hspace : isSpace b.toNat = false) (y : GoString) :
    trimSpace (x ++ b :: y) = trimRightSpace (b :: y) := by
  have hpiece : isSpacePiece [b] = false := by rw [isSpacePiece, Utf8.pieceRune_ascii hb, hspace]
  rw [trimSpace, Utf8.runes_append_ascii hb, dropWhile_append_cons (isSpace_runes hx) hpiece,
    trimRightSpace, Utf8.runes_ascii_cons hb]

/-- A frame without blanks in front. -/
def Frame.trimmed (f : Frame) : Frame := { f with lead := [], lead_blank := blank_nil }

theorem trimSpace_frame (f : Frame) (x : GoString) {b : UInt8} (hb : b.toNat < 0x80)
    (hspace : isSpace b.toNat = false) (y : GoString) :
    trimSpace (f.text ++ (x ++ b :: y)) = f.trimmed.text ++ (x ++ b :: trimRightSpace y) := by
  obtain ⟨n, name, hname, hstart⟩ := f.exists_name
  have hpart : isNamePart n = true := by simp [isNamePart, hstart]
  have hnascii : n.toNat < 0x80 := (neutral_of_isNamePart hpart).1
  have hnspace : isSpace n.toNat = false := by
    have hrange := toNat_of_isNamePart hpart
    rw [Bool.eq_false_iff]
    intro hspace
    simp only [isSpace, Bool.or_eq_true, Bool.and_eq_true, decide_eq_true_eq, beq_iff_eq] at hspace
    omega
  have htext : f.text ++ (x ++ b :: y) =
      f.lead ++ n :: (name ++ (f.gap ++ (f.op.string ++ (f.space ++ (x ++ b :: y))))) := by
    simp [Frame.text, hname]
  have hright : n :: (name ++ (f.gap ++ (f.op.string ++ (f.space ++ (x ++ b :: y))))) =
      (f.trimmed.text ++ x) ++ b :: y := by
    simp [Frame.text, Frame.trimmed, hname]
  rw [htext, trimSpace_append f.lead_blank hnascii hnspace, hright,
    trimRightSpace_append hb hspace, List.append_assoc]

theorem findStringSubmatch_item (i : Item) : findStringSubmatch i.text =
    some ⟨i.frame.name, i.frame.op.string, 34 :: (i.content ++ [34])⟩ := by
  have hvalue : (34 :: (i.content ++ 34 :: i.trail)).rdropWhile isBlank =
      34 :: (i.content ++ [34]) := by
    rw [← List.cons_append, rdropWhile_append_cons (by rfl),
      List.rdropWhile_eq_nil_iff.mpr i.trail_blank]
    rfl
  rw [Item.text, findStringSubmatch_frame, hvalue]

/-- A matcher without the blanks around it. -/
def Item.trimmed (i : Item) : Item :=
  { i with frame := i.frame.trimmed, trail := [], trail_blank := blank_nil }

theorem trimSpace_item (i : Item) : trimSpace i.text = i.trimmed.text := by
  have htrim := trimSpace_frame i.frame (34 :: i.content) (b := 34) (by decide) (by decide) i.trail
  rw [trimRightSpace_blank i.trail_blank] at htrim
  simpa [Item.text, Item.trimmed] using htrim

theorem escapeState_closed {content : GoString}
    (h : Strconv.escapeState false content = some false) (s : GoString) :
    Strconv.escapeState false (content ++ 34 :: s) = none := by
  rw [Strconv.escapeState_append, h]
  rfl

section
variable [Regexp]

theorem parseMatcher_trimmed (i : Item) : parseMatcher i.trimmed.text = parseMatcher i.text := by
  rw [parseMatcher, parseMatcher, findStringSubmatch_item, findStringSubmatch_item]
  rfl

theorem closed_of_parseMatcher {f : Frame} {x : GoString} {m : Matcher}
    (h : parseMatcher (f.text ++ 34 :: x) = .ok m) : ∃ content,
      x.rdropWhile isBlank = content ++ [34] ∧ Strconv.escapeState false content = some false := by
  obtain ⟨sub, hsub, hvalue, -⟩ := parseMatcher_eq_ok_iff.mp h
  rw [findStringSubmatch_frame, Option.some.injEq] at hsub
  have htext : sub.text = 34 :: x.rdropWhile isBlank := by
    rw [← hsub]
    exact rdropWhile_append_cons (by rfl) [] x
  rw [htext] at hvalue
  exact (closed_of_parseText hvalue).2

/-- A matcher without its closing quote is not accepted. -/
theorem not_ok_of_unclosed (f : Frame) {p : GoString} (h : Strconv.escapeState false p ≠ none)
    (m : Matcher) : parseMatcher (f.text ++ 34 :: p) ≠ .ok m := by
  intro hok
  obtain ⟨content, hp, hclosed⟩ := closed_of_parseMatcher hok
  obtain ⟨rest, hrest⟩ := List.rdropWhile_prefix isBlank (l := p)
  rw [← hrest, hp, List.append_assoc] at h
  exact h (escapeState_closed hclosed rest)

/-- Neither is one with something behind the closing quote. -/
theorem not_ok_of_joined (f : Frame) {content : GoString}
    (h : Strconv.escapeState false content = some false) (s more : GoString) (m : Matcher) :
    parseMatcher (f.text ++ 34 :: (content ++ 34 :: (s ++ 44 :: more))) ≠ .ok m := by
  intro hok
  obtain ⟨content', hx, hclosed⟩ := closed_of_parseMatcher hok
  rw [← List.cons_append, ← List.append_assoc, rdropWhile_append_cons (by rfl)] at hx
  have hlast := congrArg List.dropLast hx
  rw [List.dropLast_concat, List.dropLast_append_of_ne_nil (by simp), List.append_assoc,
    List.cons_append] at hlast
  rw [← hlast, escapeState_closed h] at hclosed
  cases hclosed

end

/-! ### Joined matchers -/

/-- The texts of matchers, joined with commas. -/
def joined (items : List Item) : GoString := (str ",").intercalate (items.map Item.text)

theorem joined_cons_cons (i j : Item) (items : List Item) :
    joined (i :: j :: items) = (i.text ++ [44]) ++ joined (j :: items) := by
  simp only [joined, List.map_cons, List.intercalate_cons_cons]
  rfl

theorem Item.validString_text (i : Item) : Utf8.validString i.text = true := by
  have hframe := Utf8.validString_of_ascii fun b hb => (i.frame.neutral b hb).1
  have htrail := Utf8.validString_of_ascii fun b hb =>
    (neutral_of_isBlank (i.trail_blank b hb)).1
  have hquote : Utf8.validString [34] = true := by decide
  have htext : i.text = i.frame.text ++ ([34] ++ (i.content ++ ([34] ++ i.trail))) := by
    simp [Item.text]
  rw [htext]
  exact Utf8.validString_append hframe (Utf8.validString_append hquote
    (Utf8.validString_append i.valid (Utf8.validString_append hquote htrail)))

theorem validString_joined (items : List Item) : Utf8.validString (joined items) = true := by
  induction items with
  | nil => rfl
  | cons i items ih =>
    cases items with
    | nil => simpa [joined] using i.validString_text
    | cons j items =>
      rw [joined_cons_cons]
      exact Utf8.validString_append (Utf8.validString_append i.validString_text (by decide)) ih

theorem Item.head_ne (i : Item) : ∃ b, i.text.head? = some b ∧ b ≠ 123 := by
  obtain ⟨n, name, hname, hstart⟩ := i.frame.exists_name
  cases hlead : i.frame.lead with
  | nil =>
    refine ⟨n, by simp [Item.text, Frame.text, hlead, hname], ?_⟩
    rintro rfl
    cases hstart
  | cons b lead =>
    refine ⟨b, by simp [Item.text, Frame.text, hlead], ?_⟩
    rintro rfl
    have hblank := i.frame.lead_blank 123 (by simp [hlead])
    cases hblank

theorem Item.last_ne (i : Item) : ∃ b, i.text.getLast? = some b ∧ b ≠ 125 := by
  obtain htrail | ⟨trail, b, htrail⟩ := List.eq_nil_or_concat i.trail
  · exact ⟨34, List.getLast?_eq_some_iff.mpr ⟨i.frame.text ++ 34 :: i.content,
      by simp [Item.text, htrail]⟩, by decide⟩
  · refine ⟨b, List.getLast?_eq_some_iff.mpr ⟨i.frame.text ++ 34 :: (i.content ++ 34 :: trail),
      by simp [Item.text, htrail]⟩, ?_⟩
    rintro rfl
    have hblank := i.trail_blank 125 (by simp [htrail])
    cases hblank

theorem exists_joined_append (i : Item) (items : List Item) :
    ∃ rest, joined (i :: items) = i.text ++ rest := by
  cases items with
  | nil => exact ⟨[], by simp [joined]⟩
  | cons j items => exact ⟨_, by rw [joined_cons_cons, List.append_assoc]⟩

theorem exists_append_joined {items : List Item} (hne : items ≠ []) :
    ∃ rest i, joined items = rest ++ Item.text i := by
  induction items with
  | nil => exact absurd rfl hne
  | cons i items ih =>
    cases items with
    | nil => exact ⟨[], i, by simp [joined]⟩
    | cons j items =>
      obtain ⟨rest, k, hrest⟩ := ih (by simp)
      exact ⟨i.text ++ [44] ++ rest, k, by simp [joined_cons_cons, hrest]⟩

/-- Joined matchers do not begin with a brace, nor do they end with one. -/
theorem trim_joined {items : List Item} (hne : items ≠ []) :
    trimCloseBrace (trimOpenBrace (joined items)) = joined items := by
  have hhead : (joined items).head? ≠ some 123 := by
    obtain ⟨i, items, rfl⟩ := List.exists_cons_of_ne_nil hne
    obtain ⟨rest, hrest⟩ := exists_joined_append i items
    obtain ⟨b, htext, hb⟩ := i.head_ne
    simpa [hrest, List.head?_append, htext] using hb
  have hlast : (joined items).getLast? ≠ some 125 := by
    obtain ⟨rest, i, hrest⟩ := exists_append_joined hne
    obtain ⟨b, htext, hb⟩ := i.last_ne
    simpa [hrest, List.getLast?_append, htext] using hb
  rw [trimOpenBrace, if_neg hhead, trimCloseBrace, if_neg hlast]

theorem trim_braces (s : GoString) :
    trimCloseBrace (trimOpenBrace (123 :: (s ++ [125]))) = s := by
  simp [trimOpenBrace, trimCloseBrace]

theorem Splitter.mem_finish {st : Splitter} {t : GoString} (h : t ∈ st.tokens) : t ∈ st.finish := by
  unfold Splitter.finish
  split_ifs
  · exact List.mem_append_left _ h
  · exact h

theorem Splitter.trimSpace_mem_finish {st : Splitter} (h : trimSpace st.token ≠ []) :
    trimSpace st.token ∈ st.finish := by
  rw [Splitter.finish, if_pos h]
  exact List.mem_append_right _ List.mem_cons_self

theorem trimSpace_text_comma (i : Item) (more : GoString) : trimSpace (i.text ++ 44 :: more) =
    i.frame.trimmed.text ++ 34 :: (i.content ++ 34 :: (i.trail ++ 44 :: trimRightSpace more)) := by
  have htext : i.text ++ 44 :: more =
      i.frame.text ++ ((34 :: (i.content ++ 34 :: i.trail)) ++ 44 :: more) := by
    simp [Item.text]
  rw [htext, trimSpace_frame _ _ (by decide) (by decide)]
  simp

section
variable [Regexp]

theorem exists_of_forall₂ {ts : List GoString} {ms : Matchers}
    (h : List.Forall₂ (fun t m => parseMatcher t = .ok m) ts ms) {t : GoString} (ht : t ∈ ts) :
    ∃ m, parseMatcher t = .ok m := by
  induction h with
  | nil => cases ht
  | @cons t' m ts ms hm hms ih =>
    obtain rfl | ht := List.mem_cons.mp ht
    · exact ⟨m, hm⟩
    · exact ih ht

/-- Separable matchers are the tokens, up to blanks. -/
theorem finish_of_separable {items : List Item} {ms : Matchers} (hne : items ≠ [])
    (hms : List.Forall₂ (fun i m => parseMatcher (Item.text i) = .ok m) items ms)
    (h : Separable (items.map Item.content)) (toks : List GoString) :
    ∃ ts, (({ tokens := toks } : Splitter).feed (joined items)).finish = toks ++ ts ∧
      List.Forall₂ (fun t m => parseMatcher t = .ok m) ts ms := by
  induction hms generalizing toks with
  | nil => exact absurd rfl hne
  | @cons i m items ms hi hms ih =>
    cases items with
    | nil =>
      obtain ⟨htoken, htokens⟩ := i.feed_text toks h
      have hne' : i.trimmed.text ≠ [] := by simp [Item.text]
      have hjoined : joined [i] = i.text := by simp [joined]
      cases hms
      refine ⟨[i.trimmed.text], ?_, .cons (by rw [parseMatcher_trimmed, hi]) .nil⟩
      rw [hjoined, Splitter.finish, htoken, htokens, trimSpace_item, if_pos hne']
    | cons j items =>
      obtain ⟨hstate, hitems⟩ := h
      obtain ⟨ts, hts, hparse⟩ := ih (by simp) hitems (toks ++ [i.text])
      refine ⟨i.text :: ts, ?_, .cons hi hparse⟩
      rw [joined_cons_cons, feed_append, i.feed_text_comma toks hstate, hts,
        List.append_assoc, List.singleton_append]

/-- A token that begins with a whole matcher and a comma is not a matcher, trimmed or not. -/
theorem not_ok_text_comma (i : Item) (more : GoString) (m : Matcher) :
    parseMatcher (i.text ++ 44 :: more) ≠ .ok m ∧
      parseMatcher (trimSpace (i.text ++ 44 :: more)) ≠ .ok m := by
  constructor
  · simpa [Item.text] using not_ok_of_joined i.frame i.closed i.trail more m
  · rw [trimSpace_text_comma]
    exact not_ok_of_joined i.frame.trimmed i.closed i.trail (trimRightSpace more) m

/-- If matchers are not separable, one of the tokens is not a matcher. -/
theorem exists_bad_token {items : List Item} (hne : items ≠ [])
    (h : ¬Separable (items.map Item.content)) (toks : List GoString) :
    ∃ t ∈ (({ tokens := toks } : Splitter).feed (joined items)).finish,
      ∀ m, parseMatcher t ≠ .ok m := by
  induction items generalizing toks with
  | nil => exact absurd rfl hne
  | cons i items ih =>
    cases items with
    | nil =>
      obtain ⟨p, hp, hmem⟩ := i.exists_mem_feed_text toks (not_not.mp h)
      have hjoined : joined [i] = i.text := by simp [joined]
      rw [hjoined]
      exact ⟨_, Splitter.mem_finish hmem, not_ok_of_unclosed i.frame hp⟩
    | cons j items =>
      rw [joined_cons_cons, feed_append]
      by_cases hi : splitState false i.content = some false
      · rw [i.feed_text_comma toks hi]
        exact ih (by simp) (fun hitems => h ⟨hi, hitems⟩) (toks ++ [i.text])
      by_cases hcut : Cut i.content
      · obtain ⟨p, hp, hmem⟩ := i.exists_mem_feed_text toks hcut
        rw [feed_append]
        exact ⟨_, Splitter.mem_finish ((feed_token _ _).1.subset
          ((feed_token _ _).1.subset hmem)), not_ok_of_unclosed i.frame hp⟩
      · -- the token goes on behind the comma, wherever it ends
        have htoken := i.token_feed_text_comma toks hcut hi
        obtain ⟨-, more, hmore⟩ := feed_token
          (({ tokens := toks } : Splitter).feed (i.text ++ [44])) (joined (j :: items))
        rw [htoken, List.append_assoc, List.singleton_append] at hmore
        obtain hlast | hmem := hmore
        · have htrim : trimSpace (i.text ++ 44 :: more) ≠ [] := by simp [trimSpace_text_comma]
          rw [← hlast] at htrim
          refine ⟨_, Splitter.trimSpace_mem_finish htrim, fun m => ?_⟩
          rw [hlast]
          exact (not_ok_text_comma i more m).2
        · exact ⟨_, Splitter.mem_finish hmem, fun m => (not_ok_text_comma i more m).1⟩

theorem parseMatchers_of_trim {s : GoString} {items : List Item}
    (h : trimCloseBrace (trimOpenBrace s) = joined items) :
    parseMatchers s = (({} : Splitter).feed (joined items)).finish.mapM parseMatcher := by
  rw [parseMatchers, splitTokens, h, Splitter.run_written (validString_joined items)]

/-- `ParseMatchers` returns the matchers of a list if and only if they are separable. -/
theorem parseMatchers_items_iff {items : List Item} {ms : Matchers} (hne : items ≠ [])
    (hms : List.Forall₂ (fun i m => parseMatcher (Item.text i) = .ok m) items ms) {s : GoString}
    (hs : trimCloseBrace (trimOpenBrace s) = joined items) :
    parseMatchers s = .ok ms ↔ Separable (items.map Item.content) := by
  rw [parseMatchers_of_trim hs, mapM_eq_ok_iff]
  constructor
  · intro h
    by_contra hbad
    obtain ⟨t, ht, hnot⟩ := exists_bad_token hne hbad []
    obtain ⟨m, hm⟩ := exists_of_forall₂ h ht
    exact hnot m hm
  · intro h
    obtain ⟨ts, hts, hparse⟩ := finish_of_separable hne hms h []
    rw [List.nil_append] at hts
    rw [hts]
    exact hparse

/-- Accepted matchers in quotes. -/
theorem exists_items {ss : List GoString} {ms : Matchers}
    (h : List.Forall₂ (fun s m => parseMatcher s = .ok m) ss ms)
    (hquoted : ∀ s ∈ ss, (quotedContent s).isSome = true) :
    ∃ items : List Item, items.map Item.text = ss ∧
      items.map Item.content = ss.filterMap quotedContent ∧
      List.Forall₂ (fun i m => parseMatcher (Item.text i) = .ok m) items ms := by
  induction h with
  | nil => exact ⟨[], rfl, rfl, .nil⟩
  | @cons s m ss ms hs hss ih =>
    obtain ⟨hquote, hrest⟩ := List.forall_mem_cons.mp hquoted
    obtain ⟨content, hcontent⟩ := Option.isSome_iff_exists.mp hquote
    obtain ⟨i, rfl, rfl⟩ := exists_item hs hcontent
    obtain ⟨items, rfl, hcontents, hitems⟩ := ih hrest
    exact ⟨i :: items, rfl, by rw [List.filterMap_cons_some hcontent, ← hcontents]; rfl,
      .cons hs hitems⟩

/-- `ParseMatchers` splits joined matchers in quotes where they were joined, with braces and
without them, if and only if they are separable: a comma directly behind a backslash that
`ParseMatcher` takes literally is one that the loop of `ParseMatchers` passes over. -/
theorem joined_matchers_iff {ss : List GoString} {ms : Matchers} (hne : ss ≠ [])
    (hquoted : ∀ s ∈ ss, (quotedContent s).isSome = true)
    (h : List.Forall₂ (fun s m => parseMatcher s = .ok m) ss ms) :
    parseMatchers ((str ",").intercalate ss) = .ok ms ∧
      parseMatchers (str "\x7b" ++ (str ",").intercalate ss ++ str "\x7d") = .ok ms ↔
        Separable (ss.filterMap quotedContent) := by
  obtain ⟨items, rfl, hcontents, hitems⟩ := exists_items h hquoted
  have hne' : items ≠ [] := by simpa using hne
  have hbare := parseMatchers_items_iff hne' hitems (trim_joined hne')
  have hbraces := parseMatchers_items_iff hne' hitems (trim_braces (joined items))
  have htext : str "\x7b" ++ joined items ++ str "\x7d" = 123 :: (joined items ++ [125]) := rfl
  rw [← htext] at hbraces
  rw [← hcontents]
  exact (and_congr hbare hbraces).trans and_self_iff

end

/-- What there is in a matcher that is parsed, if there is no error. -/
def fieldsOf [Regexp] (s : GoString) : Option (MatchType × LabelName × LabelValue) :=
  (parseMatcher s).toOption.map Matcher.fields

theorem exists_of_fieldsOf [Regexp] {s : GoString} {fields : MatchType × LabelName × LabelValue}
    (h : fieldsOf s = some fields) : ∃ m, parseMatcher s = .ok m ∧ m.fields = fields := by
  rw [fieldsOf] at h
  cases hparse : parseMatcher s with
  | error err => simp [hparse, Except.toOption] at h
  | ok m => exact ⟨m, rfl, by simpa [hparse, Except.toOption] using h⟩

section
attribute [local instance] noRegexp

/-- Matchers with a comma, an escaped quote and blanks. -/
def blankMatchers : List GoString := [str "a=\"x,\\\"y\"", str " b != \"\" "]

theorem joined_matchers_iff_blank :
    ∃ ms : Matchers, ms.map Matcher.fields =
        [(.equal, str "a", str "x,\"y"), (.notEqual, str "b", [])] ∧
      (parseMatchers ((str ",").intercalate blankMatchers) = .ok ms ∧
        parseMatchers (str "\x7b" ++ (str ",").intercalate blankMatchers ++ str "\x7d") = .ok ms ↔
          Separable (blankMatchers.filterMap quotedContent)) := by
  obtain ⟨m, hm, hfields⟩ := exists_of_fieldsOf (by decide +kernel :
    fieldsOf (str "a=\"x,\\\"y\"") = some (.equal, str "a", str "x,\"y"))
  obtain ⟨m', hm', hfields'⟩ := exists_of_fieldsOf (by decide +kernel :
    fieldsOf (str " b != \"\" ") = some (.notEqual, str "b", []))
  have hquoted : ∀ s ∈ blankMatchers, (quotedContent s).isSome = true := by decide +kernel
  exact ⟨[m, m'], by simp [hfields, hfields'],
    joined_matchers_iff (by simp [blankMatchers]) hquoted (.cons hm (.cons hm' .nil))⟩

/-- The comma behind a backslash does not end the escape, so that the quote behind it does
not end the quoted part. -/
theorem joined_matchers_refused :
    fieldsOf (str "a=\"x\\,\"") = some (.equal, str "a", str "x\\,") ∧
      fieldsOf (str "b=\"y\"") = some (.equal, str "b", str "y") ∧
      (parseMatchers (str "a=\"x\\,\",b=\"y\"")).map (List.map Matcher.fields) =
        .error (.unescapedQuote (str "\"x\\,\",b=\"y\"")) :=
  ⟨by decide +kernel, by decide +kernel, by decide +kernel⟩

end

end Classic

end Alertmanager
