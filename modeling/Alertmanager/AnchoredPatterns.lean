import Alertmanager.Re2
import Alertmanager.SilenceValidity

/-!
# Silences that pass validation and do not compile

Validation compiles the pattern of a matcher as it is, the matcher index compiles it
between anchors. The two agree except for a pattern that ends within a quotation: there
the closing of the anchored expression is quoted too, and its group stays open.
-/
namespace Alertmanager

theorem isSome_mapM {α β : Type*} {f : α → Option β} (l : List α) :
    (l.mapM f).isSome = true ↔ ∀ a ∈ l, (f a).isSome = true := by
  induction l with
  | nil => simp
  | cons a l ih =>
    rw [List.forall_mem_cons, ← ih, List.mapM_cons]
    cases f a <;> cases l.mapM f <;> simp

section
variable [Regexp] {scheme : NameScheme} {m : Silencepb.Matcher}

theorem validateMatcher_of_mem {set i : ℕ} {allMatchEmpty : Bool} {ms : List Silencepb.Matcher}
    (h : validateMatchers scheme set i allMatchEmpty ms = none) :
    ∀ m ∈ ms, validateMatcher scheme m = none := by
  induction ms generalizing i allMatchEmpty with
  | nil => simp
  | cons m ms ih =>
    rw [validateMatchers] at h
    cases hm : validateMatcher scheme m with
    | some err => simp [hm] at h
    | none =>
      simp only [hm] at h
      exact List.forall_mem_cons.mpr ⟨hm, ih h⟩

theorem validateMatcher_of_mem_sets {set : ℕ} {mss : List Silencepb.MatcherSet}
    (h : validateMatcherSets scheme set mss = none) :
    ∀ ms ∈ mss, ∀ m ∈ ms, validateMatcher scheme m = none := by
  induction mss generalizing set with
  | nil => simp
  | cons ms mss ih =>
    rw [validateMatcherSets] at h
    split_ifs at h
    cases hms : validateMatchers scheme set 0 true ms with
    | some err => simp [hms] at h
    | none =>
      simp only [hms] at h
      exact List.forall_mem_cons.mpr ⟨validateMatcher_of_mem hms, ih h⟩

theorem newMatcher_isSome (t : MatchType) (n : LabelName) (v : LabelValue) :
    (newMatcher t n v).isSome = true ↔
      (t.isRegexp = true → (Regexp.compile (anchored v)).isSome = true) := by
  rw [newMatcher]
  split_ifs with h
  · exact iff_of_true rfl h
  · exact iff_of_false (by simp) h

variable [Re2.UnicodeNames]

/-- `regexp.Compile` accepts the syntax of RE2. -/
def CompilesRe2 : Prop :=
  ∀ p, (Regexp.compile p).isSome = Re2.accepts p

/-- The patterns of the regular expressions do not end within a quotation. -/
def Unquoted (mss : List Silencepb.MatcherSet) : Prop :=
  ∀ ms ∈ mss, ∀ m ∈ ms, m.type = .regexp ∨ m.type = .notRegexp → Re2.endsQuoted m.pattern = false

/-- What the index needs of a matcher that was validated. -/
theorem compileMatcher_isSome_iff (hre : CompilesRe2) (hm : validateMatcher scheme m = none) :
    (compileMatcher m).isSome = true ↔
      (m.type = .regexp ∨ m.type = .notRegexp → Re2.endsQuoted m.pattern = false) := by
  have hanchored : (Regexp.compile m.pattern).isSome = true →
      ((Regexp.compile (anchored m.pattern)).isSome = true ↔
        Re2.endsQuoted m.pattern = false) := by
    intro hbare
    rw [hre] at hbare ⊢
    rw [anchored, Re2.accepts_anchored hbare, Bool.not_eq_true']
  by_cases hname : scheme.isValidLabelName m.name = false
  · simp [validateMatcher, hname] at hm
  · cases htype : m.type with
    | equal => simp [compileMatcher, htype, newMatcher_isSome, MatchType.isRegexp]
    | notEqual => simp [compileMatcher, htype, newMatcher_isSome, MatchType.isRegexp]
    | regexp =>
      have hbare : (Regexp.compile m.pattern).isSome = true := by
        simpa [validateMatcher, hname, htype, Option.isSome_iff_ne_none] using hm
      simp [compileMatcher, htype, newMatcher_isSome, MatchType.isRegexp, hanchored hbare]
    | notRegexp =>
      have hbare : (Regexp.compile m.pattern).isSome = true := by
        simpa [validateMatcher, hname, htype, Option.isSome_iff_ne_none] using hm
      simp [compileMatcher, htype, newMatcher_isSome, MatchType.isRegexp, hanchored hbare]
    | unknown code => simp [validateMatcher, hname, htype] at hm

theorem compileMatcherSets_isSome_iff (hre : CompilesRe2) {sil : Silence}
    (h : validateSilence scheme sil = none) :
    (compileMatcherSets sil.matcherSets).isSome = true ↔ Unquoted sil.matcherSets := by
  have hvalid := validateMatcher_of_mem_sets (validateSilence_eq_none.mp h).1.2
  rw [compileMatcherSets, isSome_mapM]
  refine forall₂_congr fun ms hms => ?_
  rw [isSome_mapM]
  exact forall₂_congr fun m hm => compileMatcher_isSome_iff hre (hvalid ms hms m hm)

omit [Re2.UnicodeNames] [Regexp] in
theorem upgraded_matcherSets (e : MeshSilence) (now : ℤ) :
    (e.upgraded now).silence.matcherSets = e.silence.matcherSets := by
  rw [MeshSilence.upgraded]
  split_ifs
  · rfl
  · exact Silence.upgradeComments_matcherSets e.silence

omit [Re2.UnicodeNames] in
theorem set_matcherSets [Proto] {s : Silences} {env : Silences.SetEnv} {now : ℤ}
    {sil : Silence} (h : (s.set env now sil).err = none) :
    validateSilence env.scheme (Silences.normalized sil now) = none ∧
      (s.set env now sil).sil.matcherSets = (Silences.normalized sil now).matcherSets := by
  have hout := Silences.set_outcome s env now sil
  generalize s.set env now sil = r at hout h
  cases hout with
  | refused err sil' => cases h
  | updated prev hu b hm =>
    exact ⟨hu.valid, upgraded_matcherSets (s.update sil now) now⟩
  | created prev uid hc b hm =>
    exact ⟨hc.valid, upgraded_matcherSets (s.creation sil uid now) now⟩
  | torn prev uid hc hm => cases h

/-- A silence that passes validation is compiled by the matcher index, and a silence that
`Set` stores can be indexed, if and only if none of its regular expressions ends within a
quotation. -/
theorem validated_compiles_iff [Proto] (hre : CompilesRe2) :
    (∀ (scheme : NameScheme) (sil : Silence), validateSilence scheme sil.postprocess = none →
      ((compileMatcherSets sil.postprocess.matcherSets).isSome = true ↔
        Unquoted sil.postprocess.matcherSets)) ∧
      ∀ (s : Silences) (env : Silences.SetEnv) (now : ℤ) (sil : Silence),
        (s.set env now sil).err = none →
        ((compileMatcherSets (s.set env now sil).sil.matcherSets).isSome = true ↔
          Unquoted (Silences.normalized sil now).matcherSets) := by
  refine ⟨fun scheme sil h => compileMatcherSets_isSome_iff hre h, fun s env now sil h => ?_⟩
  obtain ⟨hvalid, hsets⟩ := set_matcherSets h
  rw [hsets]
  exact compileMatcherSets_isSome_iff hre hvalid

end

section
local instance noUnicodeNames : Re2.UnicodeNames := ⟨fun _ => false⟩

/-- An engine for the syntax, in which nothing matches. -/
local instance re2Regexp : Regexp := ⟨fun p => if Re2.accepts p then some fun _ => false else none⟩

attribute [local instance] zeroProto

theorem re2Regexp_compiles : CompilesRe2 := by
  intro p
  change (if Re2.accepts p then some fun _ => false else none).isSome = _
  split_ifs with h <;> simp [h]

/-- A silence with one regular expression. -/
def patternSilence (pattern : String) : Silence :=
  { SilenceStore.silenceFrom "" 10 90 0 with
    matcherSets := [[⟨.regexp, str "a", str pattern⟩]] }

theorem validated_compiles_quoted :
    validateSilence .classic (patternSilence "x|\\Qa.b\\E+").postprocess = none ∧
      (compileMatcherSets (patternSilence "x|\\Qa.b\\E+").postprocess.matcherSets).isSome =
        true := by
  have hvalid : validateSilence .classic (patternSilence "x|\\Qa.b\\E+").postprocess = none := by
    decide +kernel
  refine ⟨hvalid, ((validated_compiles_iff re2Regexp_compiles).1 .classic _ hvalid).mpr ?_⟩
  intro ms hms m hm htype
  obtain rfl : ms = [⟨.regexp, str "a", str "x|\\Qa.b\\E+"⟩] := by
    simpa [patternSilence, Silence.postprocess] using hms
  obtain rfl := List.mem_singleton.mp hm
  decide +kernel

/-- A pattern with an open quotation: the silence passes validation and is stored, but it
does not compile and is not found in the index. -/
theorem open_quotation_stored :
    validateSilence .classic (patternSilence "\\Qabc").postprocess = none ∧
      (compileMatcherSets (patternSilence "\\Qabc").postprocess.matcherSets).isSome = false ∧
      let r := (Silences.new 100).set ⟨.classic, none, none, some (str "x")⟩ 50
        (patternSilence "\\Qabc")
      r.err = none ∧ (r.silences.st.lookup (str "x")).isSome = true ∧
        (r.silences.mi.lookup (str "x")).isSome = false := by
  decide +kernel

end

end Alertmanager
