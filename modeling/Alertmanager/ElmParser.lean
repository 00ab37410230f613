import Mathlib.Data.List.Basic
import Mathlib.Tactic

/-!
# Parsers that commit to what they have chomped

The combinators of `elm/parser`, as its documentation describes them. A parser succeeds
with a value and the rest of the input, or fails; in both cases it says whether it has
chomped something. A choice goes on to the next alternative only after a failure without
progress.
-/
namespace Alertmanager.Elm

inductive Outcome (α : Type)
  | good (progress : Bool) (value : α) (rest : List Char)
  | bad (progress : Bool)
  deriving DecidableEq

/-- The outcome of a parser that comes after another one. -/
def Outcome.after {α : Type} (progress : Bool) : Outcome α → Outcome α
  | good q a rest => good (progress || q) a rest
  | bad q => bad (progress || q)

def Parser (α : Type) := List Char → Outcome α

/-- Whether a loop goes on or is done. -/
inductive Step (σ α : Type)
  | loop (state : σ)
  | done (a : α)

namespace Parser
variable {α β σ : Type}

/-- `run`, without the reason of a failure. -/
def run (p : Parser α) (s : List Char) : Option α :=
  match p s with
  | .good _ a _ => some a
  | .bad _ => none

def succeed (a : α) : Parser α := fun s => .good false a s

def problem : Parser α := fun _ => .bad false

def andThen (p : Parser α) (next : α → Parser β) : Parser β := fun s =>
  match p s with
  | .good q a rest => (next a rest).after q
  | .bad q => .bad q

/-- The operator `|=`. -/
def keep (f : Parser (α → β)) (p : Parser α) : Parser β :=
  f.andThen fun g => p.andThen fun a => succeed (g a)

/-- The operator `|.`. -/
def ignore (p : Parser α) (q : Parser β) : Parser α :=
  p.andThen fun a => q.andThen fun _ => succeed a

def oneOf : List (Parser α) → Parser α
  | [], _ => .bad false
  | p :: ps, s =>
    match p s with
    | .bad false => oneOf ps s
    | outcome => outcome

def chompIf (f : Char → Bool) : Parser Unit
  | [] => .bad false
  | c :: s => if f c then .good true () s else .bad false

def chompWhile (f : Char → Bool) : Parser Unit := fun s =>
  .good (s.takeWhile f != []) () (s.dropWhile f)

def spaces : Parser Unit := chompWhile fun c => c == ' ' || c == '\n' || c == '\r'

def token (text : List Char) : Parser Unit := fun s =>
  if text.isPrefixOf s then .good (text != []) () (s.drop text.length) else .bad false

/-- A token that is not followed by a letter, a digit or an underscore. -/
def keyword (text : List Char) : Parser Unit := fun s =>
  if text.isPrefixOf s && (s.drop text.length).head?.all fun c => !(c.isAlphanum || c == '_') then
    .good (text != []) () (s.drop text.length)
  else .bad false

def variableName (start inner : Char → Bool) (reserved : List (List Char)) : Parser (List Char)
  | [] => .bad false
  | c :: s =>
    if start c then
      if reserved.contains (c :: s.takeWhile inner) then .bad false
      else .good true (c :: s.takeWhile inner) (s.dropWhile inner)
    else .bad false

/-- The text that a parser has chomped. -/
def getChompedString (p : Parser α) : Parser (List Char) := fun s =>
  match p s with
  | .good q _ rest => .good q (s.take (s.length - rest.length)) rest
  | .bad q => .bad q

/-- The end of the input. -/
def atEnd : Parser Unit
  | [] => .good false () []
  | _ :: _ => .bad false

/-- At most the given number of rounds. -/
def loopFrom (callback : σ → Parser (Step σ α)) : ℕ → σ → Parser α
  | 0, _, _ => .bad false
  | n + 1, state, s =>
    match callback state s with
    | .good q (.loop state') rest => (loopFrom callback n state' rest).after q
    | .good q (.done a) rest => .good q a rest
    | .bad q => .bad q

/-- The rounds of a loop. Where each chomps something, there are no more of them than
characters. -/
def loop (state : σ) (callback : σ → Parser (Step σ α)) : Parser α := fun s =>
  loopFrom callback (s.length + 1) state s

/-- A round of `sequence` after an item, with the items so far in reverse. -/
def sequenceRound (separator finish : List Char) (spaces : Parser Unit) (item : Parser α)
    (items : List α) : Parser (Step (List α) (List α)) :=
  spaces.andThen fun _ => oneOf
    [(token separator).andThen fun _ => spaces.andThen fun _ => item.andThen fun a =>
        succeed (.loop (a :: items)),
      (token finish).andThen fun _ => succeed (.done items.reverse)]

/-- `sequence`, where a trailing separator is forbidden. -/
def sequence (start separator finish : List Char) (spaces : Parser Unit) (item : Parser α) :
    Parser (List α) :=
  (token start).andThen fun _ => spaces.andThen fun _ => oneOf
    [item.andThen fun a => loop [a] (sequenceRound separator finish spaces item),
      (token finish).andThen fun _ => succeed []]

end Parser

/-! ### Steps of a parser -/

theorem Outcome.after_eq_good {α : Type} {p q : Bool} {o : Outcome α} {a : α}
    {rest : List Char} : o.after p = good q a rest ↔ ∃ q', o = good q' a rest ∧ (p || q') = q := by
  cases o <;> simp [after, and_comm, and_assoc]

namespace Parser
variable {α β σ : Type} {s mid rest : List Char}

/-- A parser succeeds with a value and the rest of the input. -/
def Parses (p : Parser α) (s : List Char) (a : α) (rest : List Char) : Prop :=
  ∃ q, p s = .good q a rest

theorem Parses.run {p : Parser α} {a : α} (h : p.Parses s a rest) : p.run s = some a := by
  obtain ⟨q, hgood⟩ := h
  rw [Parser.run, hgood]

theorem exists_of_run {p : Parser α} {a : α} (h : p.run s = some a) :
    ∃ rest, p.Parses s a rest := by
  rw [Parser.run] at h
  split at h
  · rename_i q a' rest hgood
    obtain rfl := Option.some.inj h
    exact ⟨rest, q, hgood⟩
  · cases h

theorem parses_succeed (a : α) (s : List Char) : (succeed a).Parses s a s := ⟨false, rfl⟩

theorem parses_andThen_iff {p : Parser α} {next : α → Parser β} {b : β} :
    (p.andThen next).Parses s b rest ↔ ∃ a mid, p.Parses s a mid ∧ (next a).Parses mid b rest := by
  simp only [Parses, andThen]
  cases p s with
  | bad q => simp
  | good q a mid =>
    constructor
    · rintro ⟨_, h⟩
      obtain ⟨q', hnext, -⟩ := Outcome.after_eq_good.mp h
      exact ⟨a, mid, ⟨q, rfl⟩, q', hnext⟩
    · rintro ⟨_, _, ⟨_, h⟩, q', hnext⟩
      obtain ⟨rfl, rfl, rfl⟩ := Outcome.good.inj h
      exact ⟨_, Outcome.after_eq_good.mpr ⟨q', hnext, rfl⟩⟩

theorem Parses.andThen {p : Parser α} {next : α → Parser β} {a : α} {b : β}
    (h : p.Parses s a mid) (hnext : (next a).Parses mid b rest) :
    (p.andThen next).Parses s b rest :=
  parses_andThen_iff.mpr ⟨a, mid, h, hnext⟩

theorem Parses.keep {f : Parser (α → β)} {p : Parser α} {g : α → β} {a : α}
    (hf : f.Parses s g mid) (hp : p.Parses mid a rest) : (f.keep p).Parses s (g a) rest :=
  hf.andThen (hp.andThen (parses_succeed (g a) rest))

theorem Parses.ignore {p : Parser α} {p' : Parser β} {a : α} {b : β} (hp : p.Parses s a mid)
    (hp' : p'.Parses mid b rest) : (p.ignore p').Parses s a rest :=
  hp.andThen (hp'.andThen (parses_succeed a rest))

theorem Parses.oneOf {p : Parser α} {a : α} (h : p.Parses s a rest) (ps : List (Parser α)) :
    (oneOf (p :: ps)).Parses s a rest := by
  obtain ⟨q, hgood⟩ := h
  exact ⟨q, by rw [Parser.oneOf, hgood]⟩

/-- An alternative that fails without progress is passed over. -/
theorem Parses.oneOf_of_bad {p : Parser α} (h : p s = .bad false) {ps : List (Parser α)} {a : α}
    (hps : (Parser.oneOf ps).Parses s a rest) : (Parser.oneOf (p :: ps)).Parses s a rest := by
  obtain ⟨q, hgood⟩ := hps
  exact ⟨q, by rw [Parser.oneOf, h, hgood]⟩

theorem exists_of_oneOf {ps : List (Parser α)} {a : α} (h : (oneOf ps).Parses s a rest) :
    ∃ p ∈ ps, p.Parses s a rest := by
  obtain ⟨q, h⟩ := h
  induction ps with
  | nil => cases h
  | cons p ps ih =>
    rw [oneOf] at h
    split at h
    · obtain ⟨p', hp', hparses⟩ := ih h
      exact ⟨p', List.mem_cons_of_mem p hp', hparses⟩
    · exact ⟨p, List.mem_cons_self, q, h⟩

theorem andThen_bad {p : Parser α} {q : Bool} (h : p s = .bad q) (next : α → Parser β) :
    p.andThen next s = .bad q := by
  rw [andThen, h]

theorem ignore_bad {p : Parser α} {p' : Parser β} {q : Bool} (h : p s = .bad q) :
    p.ignore p' s = .bad q :=
  andThen_bad h _

theorem succeed_ignore_bad {p : Parser β} {q : Bool} (h : p s = .bad q) (a : α) :
    ((succeed a).ignore p) s = .bad q := by
  rw [ignore, andThen, succeed]
  simp only [andThen_bad h, Outcome.after, Bool.false_or]

theorem parses_token (text rest : List Char) : (token text).Parses (text ++ rest) () rest := by
  refine ⟨text != [], ?_⟩
  rw [token, if_pos (by simp), List.drop_left]

theorem token_bad {text : List Char} (h : ¬text <+: s) : token text s = .bad false :=
  if_neg (by simpa using h)

theorem parses_keyword (text : List Char) {c : Char} (h : (c.isAlphanum || c == '_') = false)
    (rest : List Char) : (keyword text).Parses (text ++ c :: rest) () (c :: rest) := by
  have hnext : c.isAlphanum = false ∧ ¬c = '_' := by simpa using h
  refine ⟨text != [], ?_⟩
  rw [keyword, if_pos (by simp [hnext]), List.drop_left]

theorem keyword_bad {text : List Char} (h : ¬text <+: s) : keyword text s = .bad false :=
  if_neg (by simp [h])

theorem chompIf_bad {f : Char → Bool} {c : Char} (h : f c = false) :
    chompIf f (c :: s) = .bad false :=
  if_neg (by simp [h])

theorem parses_chompIf {f : Char → Bool} {c : Char} (h : f c = true) (rest : List Char) :
    (chompIf f).Parses (c :: rest) () rest :=
  ⟨true, if_pos h⟩

/-- A scan stops at the first character that does not belong to it. -/
theorem span_append {f : Char → Bool} {text : List Char} (htext : ∀ c ∈ text, f c = true)
    (hrest : ∀ c ∈ rest.head?, f c = false) :
    (text ++ rest).takeWhile f = text ∧ (text ++ rest).dropWhile f = rest := by
  rw [List.takeWhile_append_of_pos htext, List.dropWhile_append_of_pos htext]
  cases rest with
  | nil => simp
  | cons c rest => simp [hrest c rfl]

theorem parses_chompWhile {f : Char → Bool} {text : List Char}
    (htext : ∀ c ∈ text, f c = true) (hrest : ∀ c ∈ rest.head?, f c = false) :
    (chompWhile f).Parses (text ++ rest) () rest :=
  ⟨_, by rw [chompWhile, (span_append htext hrest).2]⟩

theorem parses_variableName {start inner : Char → Bool} {c : Char} {name : List Char}
    (hstart : start c = true) (hinner : ∀ c ∈ name, inner c = true)
    (hrest : ∀ c ∈ rest.head?, inner c = false) :
    (variableName start inner []).Parses (c :: name ++ rest) (c :: name) rest := by
  obtain ⟨htake, hdrop⟩ := span_append hinner hrest
  refine ⟨true, ?_⟩
  rw [List.cons_append, variableName, if_pos hstart, if_neg (by simp), htake, hdrop]

theorem Parses.getChompedString {p : Parser α} {a : α} {text : List Char}
    (h : p.Parses (text ++ rest) a rest) :
    (getChompedString p).Parses (text ++ rest) text rest := by
  obtain ⟨q, hgood⟩ := h
  refine ⟨q, ?_⟩
  rw [Parser.getChompedString, hgood]
  simp

theorem parses_atEnd : atEnd.Parses [] () [] := ⟨false, rfl⟩

/-! ### Loops -/

/-- Every round of a loop that goes on chomps something. -/
def Chomps (callback : σ → Parser (Step σ α)) : Prop :=
  ∀ ⦃state s state' rest⦄, (callback state).Parses s (.loop state') rest → rest.length < s.length

/-- The number of rounds does not matter if there are enough of them. -/
theorem loopFrom_eq {callback : σ → Parser (Step σ α)} (h : Chomps callback) {n m : ℕ}
    {state : σ} {s : List Char} (hn : s.length < n) (hm : s.length < m) :
    loopFrom callback n state s = loopFrom callback m state s := by
  induction n generalizing m state s with
  | zero => omega
  | succ n ih =>
    obtain ⟨m, rfl⟩ : ∃ k, m = k + 1 := ⟨m - 1, by omega⟩
    rw [loopFrom, loopFrom]
    cases hround : callback state s with
    | bad q => rfl
    | good q step rest =>
      cases step with
      | done a => rfl
      | loop state' =>
        have hless := h ⟨q, hround⟩
        exact congrArg (Outcome.after q) (ih (by omega) (by omega))

theorem Parses.loop_done {callback : σ → Parser (Step σ α)} {state : σ} {a : α}
    (h : (callback state).Parses s (.done a) rest) : (loop state callback).Parses s a rest := by
  obtain ⟨q, hround⟩ := h
  exact ⟨q, by rw [loop, loopFrom, hround]⟩

/-- A loop goes on from where a round has left it. -/
theorem Parses.loop_loop {callback : σ → Parser (Step σ α)} (h : Chomps callback)
    {state state' : σ} {a : α} (hround : (callback state).Parses s (.loop state') mid)
    (hloop : (loop state' callback).Parses mid a rest) :
    (loop state callback).Parses s a rest := by
  have hless := h hround
  obtain ⟨q, hround⟩ := hround
  obtain ⟨q', hloop⟩ := hloop
  refine ⟨q || q', ?_⟩
  rw [loop, loopFrom, hround]
  refine Outcome.after_eq_good.mpr ⟨q', ?_, rfl⟩
  rw [← hloop]
  exact loopFrom_eq h hless (Nat.lt_succ_self _)

/-! ### What a parser yields -/

/-- The values of a parser have a property, and it does not add to the input. -/
def Yields (p : Parser α) (P : α → Prop) : Prop :=
  ∀ ⦃s a rest⦄, p.Parses s a rest → P a ∧ rest.length ≤ s.length

theorem yields_succeed {P : α → Prop} {a : α} (ha : P a) : Yields (succeed a) P := by
  rintro s b rest ⟨q, h⟩
  obtain ⟨-, rfl, rfl⟩ := Outcome.good.inj h
  exact ⟨ha, le_rfl⟩

theorem yields_problem {P : α → Prop} : Yields problem P := by
  rintro s a rest ⟨q, h⟩
  cases h

theorem yields_andThen {p : Parser α} {next : α → Parser β} {P : α → Prop} {Q : β → Prop}
    (hp : Yields p P) (hnext : ∀ a, P a → Yields (next a) Q) : Yields (p.andThen next) Q := by
  intro s b rest h
  obtain ⟨a, mid, hfirst, hsecond⟩ := parses_andThen_iff.mp h
  obtain ⟨ha, hle⟩ := hp hfirst
  obtain ⟨hb, hle'⟩ := hnext a ha hsecond
  exact ⟨hb, hle'.trans hle⟩

theorem yields_keep {f : Parser (α → β)} {p : Parser α} {F : (α → β) → Prop} {P : α → Prop}
    {Q : β → Prop} (hf : Yields f F) (hp : Yields p P) (hQ : ∀ g, F g → ∀ a, P a → Q (g a)) :
    Yields (f.keep p) Q :=
  yields_andThen hf fun g hg => yields_andThen hp fun a ha => yields_succeed (hQ g hg a ha)

theorem yields_ignore {p : Parser α} {p' : Parser β} {P : α → Prop} {P' : β → Prop}
    (hp : Yields p P) (hp' : Yields p' P') : Yields (p.ignore p') P :=
  yields_andThen hp fun _ ha => yields_andThen hp' fun _ _ => yields_succeed ha

theorem yields_oneOf {ps : List (Parser α)} {P : α → Prop} (h : ∀ p ∈ ps, Yields p P) :
    Yields (oneOf ps) P := by
  intro s a rest hparses
  obtain ⟨p, hp, hparses⟩ := exists_of_oneOf hparses
  exact h p hp hparses

/-- A character that is chomped leaves less of the input. -/
theorem length_of_chompIf {f : Char → Bool} {u : Unit} (h : (chompIf f).Parses s u rest) :
    rest.length < s.length := by
  obtain ⟨q, h⟩ := h
  cases s with
  | nil => cases h
  | cons c s =>
    rw [chompIf] at h
    split_ifs at h
    obtain ⟨-, -, rfl⟩ := Outcome.good.inj h
    exact Nat.lt_succ_self _

theorem length_of_token {text : List Char} (hne : text ≠ []) {u : Unit}
    (h : (token text).Parses s u rest) : rest.length < s.length := by
  obtain ⟨q, h⟩ := h
  rw [token] at h
  split_ifs at h with hprefix
  obtain ⟨-, -, rfl⟩ := Outcome.good.inj h
  have hle := (List.isPrefixOf_iff_prefix.mp hprefix).length_le
  have hpos := List.length_pos_iff.mpr hne
  rw [List.length_drop]
  omega

theorem yields_chompIf (f : Char → Bool) : Yields (chompIf f) fun _ => True :=
  fun _ _ _ h => ⟨trivial, (length_of_chompIf h).le⟩

theorem yields_chompWhile (f : Char → Bool) : Yields (chompWhile f) fun _ => True := by
  rintro s a rest ⟨q, h⟩
  obtain ⟨-, -, rfl⟩ := Outcome.good.inj h
  exact ⟨trivial, (List.dropWhile_sublist f).length_le⟩

theorem yields_token (text : List Char) : Yields (token text) fun _ => True := by
  rintro s a rest ⟨q, h⟩
  rw [token] at h
  split_ifs at h
  obtain ⟨-, -, rfl⟩ := Outcome.good.inj h
  exact ⟨trivial, by simp⟩

theorem yields_keyword (text : List Char) : Yields (keyword text) fun _ => True := by
  rintro s a rest ⟨q, h⟩
  rw [keyword] at h
  split_ifs at h
  obtain ⟨-, -, rfl⟩ := Outcome.good.inj h
  exact ⟨trivial, by simp⟩

theorem yields_atEnd : Yields atEnd fun _ => True := by
  rintro s a rest ⟨q, h⟩
  cases s with
  | nil =>
    obtain ⟨-, -, rfl⟩ := Outcome.good.inj h
    exact ⟨trivial, le_rfl⟩
  | cons c s => cases h

theorem yields_variableName (start inner : Char → Bool) (reserved : List (List Char)) :
    Yields (variableName start inner reserved) fun name =>
      ∃ c cs, name = c :: cs ∧ start c = true ∧ ∀ c ∈ cs, inner c = true := by
  rintro s a rest ⟨q, h⟩
  cases s with
  | nil => cases h
  | cons c s =>
    rw [variableName] at h
    split_ifs at h with hstart
    obtain ⟨-, rfl, rfl⟩ := Outcome.good.inj h
    refine ⟨⟨c, _, rfl, hstart, List.all_eq_true.mp List.all_takeWhile⟩, ?_⟩
    exact (List.dropWhile_sublist inner).length_le.trans (Nat.le_succ _)

theorem yields_getChompedString {p : Parser α} {P : α → Prop} (h : Yields p P) :
    Yields (getChompedString p) fun _ => True := by
  rintro s a rest ⟨q, hgood⟩
  rw [getChompedString] at hgood
  split at hgood
  · rename_i q' a' rest' hp
    obtain ⟨-, -, rfl⟩ := Outcome.good.inj hgood
    exact ⟨trivial, (h ⟨q', hp⟩).2⟩
  · cases hgood

/-- A loop keeps an invariant of its states. -/
theorem yields_loop {callback : σ → Parser (Step σ α)} {I : σ → Prop} {P : α → Prop}
    (h : ∀ state, I state → Yields (callback state) fun step =>
      (∀ state', step = .loop state' → I state') ∧ ∀ a, step = .done a → P a)
    {state : σ} (hstate : I state) : Yields (loop state callback) P := by
  suffices hfrom : ∀ n state, I state → Yields (loopFrom callback n state) P by
    intro s a rest hparses
    exact hfrom _ state hstate hparses
  intro n
  induction n with
  | zero =>
    rintro state - s a rest ⟨q, h⟩
    cases h
  | succ n ih =>
    rintro state hstate s a rest ⟨q, hgood⟩
    rw [loopFrom] at hgood
    split at hgood
    · rename_i q₁ state' mid hround
      obtain ⟨hstep, hle⟩ := h state hstate ⟨q₁, hround⟩
      obtain ⟨q₂, hgood, -⟩ := Outcome.after_eq_good.mp hgood
      obtain ⟨ha, hle'⟩ := ih state' (hstep.1 state' rfl) ⟨q₂, hgood⟩
      exact ⟨ha, hle'.trans hle⟩
    · rename_i q₁ a' rest' hround
      obtain ⟨hstep, hle⟩ := h state hstate ⟨q₁, hround⟩
      obtain ⟨-, rfl, rfl⟩ := Outcome.good.inj hgood
      exact ⟨hstep.2 _ rfl, hle⟩
    · cases hgood

/-! ### Sequences -/

section
variable {separator finish : List Char} {spaces : Parser Unit} {item : Parser α} {P : α → Prop}

theorem chomps_sequenceRound (hseparator : separator ≠ []) (hspaces : Yields spaces fun _ => True)
    (hitem : Yields item P) : Chomps (sequenceRound separator finish spaces item) := by
  intro items s items' rest h
  obtain ⟨_, s₁, h₁, h⟩ := parses_andThen_iff.mp h
  have hle := (hspaces h₁).2
  obtain ⟨p, hp, h⟩ := exists_of_oneOf h
  obtain rfl | hp := List.mem_cons.mp hp
  · obtain ⟨_, s₂, h₂, h⟩ := parses_andThen_iff.mp h
    obtain ⟨_, s₃, h₃, h⟩ := parses_andThen_iff.mp h
    obtain ⟨a, s₄, h₄, _, h⟩ := parses_andThen_iff.mp h
    obtain ⟨-, -, rfl⟩ := Outcome.good.inj h
    have hless := length_of_token hseparator h₂
    have hle' := (hspaces h₃).2
    have hle'' := (hitem h₄).2
    omega
  · -- the end of the sequence ends the loop
    obtain rfl := List.mem_singleton.mp hp
    obtain ⟨_, s₂, h₂, _, h⟩ := parses_andThen_iff.mp h
    cases (Outcome.good.inj h).2.1

/-- The items of a sequence have what every item has. -/
theorem yields_sequence {start : List Char} (hspaces : Yields spaces fun _ => True)
    (hitem : Yields item P) :
    Yields (sequence start separator finish spaces item) fun items => ∀ a ∈ items, P a := by
  have hround : ∀ items : List α, (∀ a ∈ items, P a) →
      Yields (sequenceRound separator finish spaces item items) fun step =>
        (∀ items', step = .loop items' → ∀ a ∈ items', P a) ∧
          ∀ items', step = .done items' → ∀ a ∈ items', P a := by
    intro items hitems
    refine yields_andThen hspaces fun _ _ => yields_oneOf fun p hp => ?_
    obtain rfl | hp := List.mem_cons.mp hp
    · refine yields_andThen (yields_token separator) fun _ _ => yields_andThen hspaces fun _ _ =>
        yields_andThen hitem fun a ha => yields_succeed ⟨?_, fun _ h => nomatch h⟩
      rintro _ ⟨⟩
      exact List.forall_mem_cons.mpr ⟨ha, hitems⟩
    · obtain rfl := List.mem_singleton.mp hp
      refine yields_andThen (yields_token finish) fun _ _ =>
        yields_succeed ⟨fun _ h => (nomatch h), ?_⟩
      rintro _ ⟨⟩ a ha
      exact hitems a (List.mem_reverse.mp ha)
  refine yields_andThen (yields_token start) fun _ _ => yields_andThen hspaces fun _ _ =>
    yields_oneOf fun p hp => ?_
  obtain rfl | hp := List.mem_cons.mp hp
  · exact yields_andThen hitem fun a ha => yields_loop hround (by simpa using ha)
  · obtain rfl := List.mem_singleton.mp hp
    exact yields_andThen (yields_token finish) fun _ _ => yields_succeed (by simp)

/-- The items that are still to come, each after a separator and a gap, are read in their
order. -/
theorem parses_sequenceRounds {print : α → List Char} {gap : List Char}
    (hseparator : separator ≠ []) (hyields : Yields spaces fun _ => True) (hP : Yields item P)
    (hbefore : ∀ rest, spaces.Parses (separator ++ rest) () (separator ++ rest))
    (hfinish : ∀ rest, spaces.Parses (finish ++ rest) () (finish ++ rest) ∧
      ¬separator <+: finish ++ rest)
    {items : List α} (hitems : ∀ a ∈ items, ∀ rest,
      spaces.Parses (gap ++ (print a ++ rest)) () (print a ++ rest) ∧
        item.Parses (print a ++ rest) a rest) (before : List α) (rest : List Char) :
    (loop before (sequenceRound separator finish spaces item)).Parses
      (items.flatMap (fun a => separator ++ (gap ++ print a)) ++ (finish ++ rest))
      (before.reverse ++ items) rest := by
  induction items generalizing before with
  | nil =>
    obtain ⟨hspaces, hprefix⟩ := hfinish rest
    rw [List.append_nil]
    refine Parses.loop_done (hspaces.andThen ?_)
    refine Parses.oneOf_of_bad (andThen_bad (token_bad hprefix) _) (Parses.oneOf ?_ _)
    exact (parses_token finish rest).andThen (parses_succeed _ rest)
  | cons a items ih =>
    obtain ⟨hgap, hitem⟩ := hitems a List.mem_cons_self
      (items.flatMap (fun a => separator ++ (gap ++ print a)) ++ (finish ++ rest))
    have hlater := ih (fun b hb => hitems b (List.mem_cons_of_mem a hb)) (a :: before)
    rw [List.reverse_cons, List.append_assoc, List.singleton_append] at hlater
    refine Parses.loop_loop (chomps_sequenceRound hseparator hyields hP) ?_ hlater
    simp only [List.flatMap_cons, List.append_assoc]
    refine (hbefore _).andThen (Parses.oneOf ?_ _)
    exact (parses_token separator _).andThen (hgap.andThen (hitem.andThen (parses_succeed _ _)))

theorem parses_sequence (print : α → List Char) (gap : List Char)
    (hseparator : separator ≠ []) (hyields : Yields spaces fun _ => True) (hP : Yields item P)
    (hbefore : ∀ rest, spaces.Parses (separator ++ rest) () (separator ++ rest))
    (hfinish : ∀ rest, spaces.Parses (finish ++ rest) () (finish ++ rest) ∧
      ¬separator <+: finish ++ rest)
    {a : α} {items : List α} (hitems : ∀ b ∈ a :: items, ∀ rest,
      spaces.Parses (gap ++ (print b ++ rest)) () (print b ++ rest) ∧
        item.Parses (print b ++ rest) b rest)
    (hfirst : ∀ rest, spaces.Parses (print a ++ rest) () (print a ++ rest))
    (start rest : List Char) :
    (sequence start separator finish spaces item).Parses (start ++ (print a ++
      (items.flatMap (fun b => separator ++ (gap ++ print b)) ++ (finish ++ rest))))
      (a :: items) rest := by
  have hrounds := parses_sequenceRounds hseparator hyields hP hbefore hfinish
    (fun b hb => hitems b (List.mem_cons_of_mem a hb)) [a] rest
  refine (parses_token start _).andThen ((hfirst _).andThen (Parses.oneOf ?_ _))
  exact (hitems a List.mem_cons_self _).2.andThen hrounds

end

end Parser

end Alertmanager.Elm
