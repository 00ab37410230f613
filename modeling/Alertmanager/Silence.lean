import Alertmanager.Labels
import Alertmanager.Wire

/-!
# Silences

The messages of `silencepb/silence.proto` and the functions of
`silence/silence.go` that look at one silence: its state at an instant, the
upgrades of old message formats, validation, and the compilation of its
matchers. A proto3 enumeration is open, so a matcher type may be unknown.
-/
namespace Alertmanager

namespace Silencepb

/-- `Matcher_Type`, with the values an open enumeration lets through. -/
inductive MatcherType
  | equal
  | regexp
  | notEqual
  | notRegexp
  | unknown (code : ℤ)
  deriving DecidableEq, Repr

structure Matcher where
  type : MatcherType
  name : GoString
  pattern : GoString
  deriving DecidableEq, Repr

structure Comment where
  author : GoString
  comment : GoString
  timestamp : Option ℤ
  deriving DecidableEq, Repr

abbrev MatcherSet := List Matcher

end Silencepb

structure Silence where
  id : GoString
  matchers : List Silencepb.Matcher
  startsAt : Option ℤ
  endsAt : Option ℤ
  updatedAt : Option ℤ
  comments : List Silencepb.Comment
  createdBy : GoString
  comment : GoString
  annotations : GoMap GoString GoString
  matcherSets : List Silencepb.MatcherSet
  receiverMatcherSets : List Silencepb.MatcherSet
  deriving DecidableEq

/-- A `MeshSilence` as it is stored: the silence is always there. -/
structure MeshSilence where
  silence : Silence
  expiresAt : Option ℤ
  deriving DecidableEq

/-- A `MeshSilence` as it is read from the wire. -/
structure WireSilence where
  silence : Option Silence
  expiresAt : Option ℤ

inductive SilenceState
  | expired
  | active
  | pending
  deriving DecidableEq, Repr

namespace Silence

/-- `getState`. -/
def getState (sil : Silence) (ts : ℤ) : SilenceState :=
  if ts < asTime sil.startsAt then .pending
  else if asTime sil.endsAt < ts then .expired
  else .active

theorem getState_expired {sil : Silence} {ts : ℤ} :
    sil.getState ts = .expired ↔ asTime sil.startsAt ≤ ts ∧ asTime sil.endsAt < ts := by
  unfold getState
  split_ifs with h h'
  · simp [h]
  · simpa [h'] using h
  · simpa using fun _ => not_lt.mp h'

theorem getState_active {sil : Silence} {ts : ℤ} :
    sil.getState ts = .active ↔ asTime sil.startsAt ≤ ts ∧ ts ≤ asTime sil.endsAt := by
  unfold getState
  split_ifs with h h'
  · simpa using fun hle => absurd h (not_lt.mpr hle)
  · simpa using fun _ => h'
  · simpa using ⟨not_lt.mp h, not_lt.mp h'⟩

theorem getState_pending {sil : Silence} {ts : ℤ} :
    sil.getState ts = .pending ↔ ts < asTime sil.startsAt := by
  unfold getState
  split_ifs with h h'
  · simpa using h
  · simpa using h
  · simpa using h

theorem expired_mono {sil : Silence} {ts ts' : ℤ} (hle : ts ≤ ts')
    (h : sil.getState ts = .expired) : sil.getState ts' = .expired := by
  rw [getState_expired] at h ⊢
  omega

theorem not_expired_of_active_later {sil : Silence} {ts ts' : ℤ} (hle : ts ≤ ts')
    (h : sil.getState ts' = .active) : sil.getState ts ≠ .expired := by
  intro hexp
  rw [expired_mono hle hexp] at h
  cases h

/-- The comment list of old versions becomes the single comment. -/
def upgradeComments (sil : Silence) : Silence :=
  match sil.comments with
  | [] => sil
  | c :: _ => { sil with comment := c.comment, createdBy := c.author, comments := [] }

@[simp] theorem upgradeComments_id (sil : Silence) : sil.upgradeComments.id = sil.id := by
  unfold upgradeComments
  split <;> rfl

@[simp] theorem upgradeComments_matcherSets (sil : Silence) :
    sil.upgradeComments.matcherSets = sil.matcherSets := by
  unfold upgradeComments
  split <;> rfl

@[simp] theorem upgradeComments_updatedAt (sil : Silence) :
    sil.upgradeComments.updatedAt = sil.updatedAt := by
  unfold upgradeComments
  split <;> rfl

@[simp] theorem upgradeComments_endsAt (sil : Silence) :
    sil.upgradeComments.endsAt = sil.endsAt := by
  unfold upgradeComments
  split <;> rfl

@[simp] theorem upgradeComments_getState (sil : Silence) (ts : ℤ) :
    sil.upgradeComments.getState ts = sil.getState ts := by
  unfold upgradeComments
  split <;> rfl

/-- `postprocessUnmarshalledSilence`. -/
def postprocess (sil : Silence) : Silence :=
  { sil with
    matcherSets :=
      if sil.matcherSets.length = 0 ∧ 0 < sil.matchers.length then [sil.matchers]
      else sil.matcherSets
    matchers := [] }

@[simp] theorem postprocess_id (sil : Silence) : sil.postprocess.id = sil.id := rfl

/-- `prepareSilenceForMarshalling`. -/
def prepareForMarshalling (sil : Silence) : Silence :=
  match sil.matcherSets with
  | [] => sil
  | ms :: _ => { sil with matchers := ms }

/-- The strings of the message, all of which a marshaller checks. -/
def strings (sil : Silence) : List GoString :=
  let ofMatchers (ms : List Silencepb.Matcher) := ms.flatMap fun m => [m.name, m.pattern]
  [sil.id, sil.createdBy, sil.comment] ++ ofMatchers sil.matchers ++
    sil.comments.flatMap (fun c => [c.author, c.comment]) ++
    (GoMap.sortedKeys sil.annotations).flatMap
      (fun k => [k, (sil.annotations.lookup k).getD []]) ++
    sil.matcherSets.flatMap ofMatchers ++ sil.receiverMatcherSets.flatMap ofMatchers

/-- Marshalling a message fails exactly on a string that is not valid UTF-8. -/
def marshals (sil : Silence) : Bool := sil.strings.all Utf8.validString

/-- `AsTime().Unix()`: whole seconds since the epoch, rounded down. -/
def unixSeconds (t : ℤ) : ℤ := (t - unixEpoch) / 1000000000

/-- `canUpdate`: whether `a` may become `b` without changing history. -/
def canUpdate (a b : Silence) (now : ℤ) : Bool :=
  if a.matcherSets ≠ b.matcherSets then false
  else match a.getState now with
    | .active =>
      if unixSeconds (asTime a.startsAt) ≠ unixSeconds (asTime b.startsAt) then false
      else if asTime b.endsAt < now then false
      else true
    | .pending => if asTime b.startsAt < now then false else true
    | .expired => false

theorem matcherSets_eq_of_canUpdate {a b : Silence} {now : ℤ} (h : canUpdate a b now = true) :
    a.matcherSets = b.matcherSets := by
  by_contra hne
  simp [canUpdate, hne] at h

theorem not_expired_of_canUpdate {a b : Silence} {now : ℤ} (h : canUpdate a b now = true) :
    a.getState now ≠ .expired := by
  intro hexp
  simp [canUpdate, hexp] at h

/-- A timestamp that validation treats as missing. -/
def timeUnset (ts : Option ℤ) : Bool := ts.isNone || decide (asTime ts = 0)

end Silence

/-! ### Validation -/

/-- The two label-name schemes selected by the feature flags. -/
inductive NameScheme
  | classic
  | utf8
  deriving DecidableEq, Repr

def isLetter (b : UInt8) : Bool := (97 ≤ b && b ≤ 122) || (65 ≤ b && b ≤ 90) || b == 95

def isDigit (b : UInt8) : Bool := 48 ≤ b && b ≤ 57

/-- `compat.IsValidLabelName`. -/
def NameScheme.isValidLabelName : NameScheme → GoString → Bool
  | _, [] => false
  | .classic, b :: bs => isLetter b && bs.all fun c => isLetter c || isDigit c
  | .utf8, name => Utf8.validString name

inductive MatcherError
  | invalidLabelName (name : GoString)
  | invalidLabelValue (pattern : GoString)
  | invalidRegexp (pattern : GoString)
  | unknownType (type : Silencepb.MatcherType)
  deriving DecidableEq, Repr

inductive ValidationError
  | noMatcherSet
  | emptyMatcherSet (set : ℕ)
  | invalidMatcher (index set : ℕ) (err : MatcherError)
  | allMatchEmpty (set : ℕ)
  | zeroStart
  | zeroEnd
  | endBeforeStart
  deriving DecidableEq, Repr

section
variable [Regexp]

/-- `validateMatcher`. The expression is compiled without anchors. -/
def validateMatcher (scheme : NameScheme) (m : Silencepb.Matcher) : Option MatcherError :=
  if scheme.isValidLabelName m.name = false then some (.invalidLabelName m.name)
  else match m.type with
    | .equal | .notEqual =>
      if Utf8.validString m.pattern then none else some (.invalidLabelValue m.pattern)
    | .regexp | .notRegexp =>
      if (Regexp.compile m.pattern).isSome then none else some (.invalidRegexp m.pattern)
    | .unknown code => some (.unknownType (.unknown code))

/-- `matchesEmpty`. -/
def matchesEmpty (m : Silencepb.Matcher) : Bool :=
  match m.type with
  | .equal => m.pattern = []
  | .regexp => ((Regexp.compile m.pattern).map fun re => re []).getD false
  | _ => false

/-- The inner loop of `validateSilence`, from the given position on. -/
def validateMatchers (scheme : NameScheme) (set : ℕ) :
    ℕ → Bool → List Silencepb.Matcher → Option ValidationError
  | _, allMatchEmpty, [] => if allMatchEmpty then some (.allMatchEmpty set) else none
  | i, allMatchEmpty, m :: ms =>
    match validateMatcher scheme m with
    | some e => some (.invalidMatcher i set e)
    | none => validateMatchers scheme set (i + 1) (allMatchEmpty && matchesEmpty m) ms

/-- The outer loop of `validateSilence`, from the given set on. -/
def validateMatcherSets (scheme : NameScheme) :
    ℕ → List Silencepb.MatcherSet → Option ValidationError
  | _, [] => none
  | set, ms :: mss =>
    if ms.length = 0 then some (.emptyMatcherSet set)
    else match validateMatchers scheme set 0 true ms with
      | some e => some e
      | none => validateMatcherSets scheme (set + 1) mss

/-- `validateSilence`, after `postprocess`. -/
def validateSilence (scheme : NameScheme) (s : Silence) : Option ValidationError :=
  if s.matcherSets.length = 0 then some .noMatcherSet
  else match validateMatcherSets scheme 0 s.matcherSets with
    | some e => some e
    | none =>
      if Silence.timeUnset s.startsAt then some .zeroStart
      else if Silence.timeUnset s.endsAt then some .zeroEnd
      else if asTime s.endsAt < asTime s.startsAt then some .endBeforeStart
      else none

/-! ### Compilation -/

/-- The matcher `matcherIndex.add` builds for one entry of a set. -/
def compileMatcher (m : Silencepb.Matcher) : Option Matcher :=
  match m.type with
  | .equal => newMatcher .equal m.name m.pattern
  | .notEqual => newMatcher .notEqual m.name m.pattern
  | .regexp => newMatcher .regexp m.name m.pattern
  | .notRegexp => newMatcher .notRegexp m.name m.pattern
  | .unknown _ => none

/-- The loops of `matcherIndex.add`, which stop at the first error. -/
def compileMatcherSets (mss : List Silencepb.MatcherSet) : Option MatcherSet :=
  mss.mapM fun ms => ms.mapM compileMatcher

/-- The label sets that a silence applies to; none if its matchers do not compile. -/
def Silence.appliesTo (sil : Silence) (lset : LabelSet) : Bool :=
  (compileMatcherSets sil.matcherSets).any fun ms => MatcherSet.matches ms lset

end

end Alertmanager
