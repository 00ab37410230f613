import Alertmanager.GoMap
import Alertmanager.GoTime

/-!
# Label sets and matchers

`pkg/labels/matcher.go` over the label sets of `model.LabelSet`. Two things the
program takes from elsewhere stay parameters: the regular expression engine and
the 64-bit fingerprint of a label set. A matcher can only be built by
`newMatcher`, so its expression compiles by construction.
-/
namespace Alertmanager

abbrev LabelName := GoString
abbrev LabelValue := GoString
abbrev LabelSet := GoMap LabelName LabelValue

/-- `lset[name]`: a missing label reads as the empty string. -/
def LabelSet.get (lset : LabelSet) (name : LabelName) : LabelValue :=
  (lset.lookup name).getD []

abbrev Fingerprint := UInt64

/-- `model.LabelSet.Fingerprint`. -/
class LabelHash where
  fingerprint : LabelSet → Fingerprint

export LabelHash (fingerprint)

/-- One byte of the 64-bit FNV-1a hash. -/
def hashAddByte (h : UInt64) (b : UInt8) : UInt64 := (h ^^^ b.toUInt64) * 1099511628211

def hashAdd (h : UInt64) (s : GoString) : UInt64 := s.foldl hashAddByte h

/-- The fingerprint function of `prometheus/common`: FNV-1a over the names in
order with their values, each followed by the byte 255. The results hold for any
function; this one serves their concrete instances. -/
def labelSetToFingerprint (ls : LabelSet) : Fingerprint :=
  (GoMap.sortedKeys ls).foldl
    (fun sum n => hashAddByte (hashAdd (hashAddByte (hashAdd sum n) 255) (LabelSet.get ls n)) 255)
    14695981039346656037

abbrev fnvLabelHash : LabelHash := ⟨labelSetToFingerprint⟩

/-- `regexp.Compile`: the unanchored match test of an expression, or an error. -/
class Regexp where
  compile : GoString → Option (GoString → Bool)

/-- No expression is valid. -/
abbrev noRegexp : Regexp := ⟨fun _ => none⟩

/-- Every expression is valid and matches everything. -/
abbrev anyRegexp : Regexp := ⟨fun _ => some fun _ => true⟩

inductive MatchType
  | equal
  | notEqual
  | regexp
  | notRegexp
  deriving DecidableEq, Repr

def MatchType.isRegexp : MatchType → Bool
  | .equal | .notEqual => false
  | .regexp | .notRegexp => true

/-- The expression `NewMatcher` compiles: the value between anchors. -/
def anchored (v : GoString) : GoString := str "^(?:" ++ v ++ str ")$"

structure Matcher [Regexp] where
  type : MatchType
  name : LabelName
  value : LabelValue
  compiles : type.isRegexp = true → (Regexp.compile (anchored value)).isSome = true

abbrev Matchers [Regexp] := List Matcher

/-- Alternatives of matcher conjunctions. -/
abbrev MatcherSet [Regexp] := List Matchers

section
variable [Regexp]

/-- `NewMatcher`: it fails exactly when a regular expression does not compile. -/
def newMatcher (t : MatchType) (n : LabelName) (v : LabelValue) : Option Matcher :=
  if h : t.isRegexp = true → (Regexp.compile (anchored v)).isSome = true then
    some ⟨t, n, v, h⟩
  else none

/-- `Matcher.re.MatchString`. -/
def Matcher.matchString (m : Matcher) (s : LabelValue) : Bool :=
  ((Regexp.compile (anchored m.value)).map fun re => re s).getD false

/-- `Matcher.Matches`. -/
def Matcher.matches (m : Matcher) (s : LabelValue) : Bool :=
  match m.type with
  | .equal => s == m.value
  | .notEqual => s != m.value
  | .regexp => m.matchString s
  | .notRegexp => !m.matchString s

/-- `Matchers.Matches`: the loop stops at the first matcher that fails. -/
def Matchers.matches : Matchers → LabelSet → Bool
  | [], _ => true
  | m :: ms, lset =>
    if m.matches (LabelSet.get lset m.name) then Matchers.matches ms lset else false

/-- `MatcherSet.Matches`: the loop stops at the first alternative that holds. -/
def MatcherSet.matches : MatcherSet → LabelSet → Bool
  | [], _ => false
  | ms :: mss, lset => if Matchers.matches ms lset then true else MatcherSet.matches mss lset

end

end Alertmanager
