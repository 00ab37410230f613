import Alertmanager.GoSlice
import Alertmanager.LogKeys
import Alertmanager.NotifyStages
import Alertmanager.Silence
import Alertmanager.Utf8Text

/-!
# What is hashed of an alert

The validation of `alert/validate.go` and `alert/alert.go`, and the bytes that
`hashAlert` of `notify/notify.go` passes to the hash function. They are written to a
buffer from a pool, so that the array may still hold the labels of an earlier alert. The
separator between names and values is the byte 255, which no valid text has.
-/
namespace Alertmanager

/-! ### Validation -/

inductive LabelSetError
  | invalidName (ln : LabelName)
  | invalidValue (lv : LabelValue)
  deriving DecidableEq

def LabelSetError.text [Unicode] : LabelSetError → GoString
  | invalidName ln => str "invalid name " ++ Strconv.quote ln
  | invalidValue lv => str "invalid value " ++ Strconv.quote lv

/-- `validateLs`, for the order in which the loop visits the labels. -/
def validateLs (scheme : NameScheme) (ls : LabelSet) : List LabelName → Option LabelSetError
  | [] => none
  | ln :: order =>
    if scheme.isValidLabelName ln = false then some (.invalidName ln)
    else if Utf8.validString (LabelSet.get ls ln) = false then
      some (.invalidValue (LabelSet.get ls ln))
    else validateLs scheme ls order

inductive AlertError
  | startMissing
  | startAfterEnd
  | noLabels
  | invalidLabels (err : LabelSetError)
  | invalidAnnotations (err : LabelSetError)
  deriving DecidableEq

def AlertError.text [Unicode] : AlertError → GoString
  | startMissing => str "start time missing"
  | startAfterEnd => str "start time must be before end time"
  | noLabels => str "at least one label pair required"
  | invalidLabels err => str "invalid label set: " ++ err.text
  | invalidAnnotations err => str "invalid annotations: " ++ err.text

/-- `Alert.Validate`. -/
def Alert.validate (scheme : NameScheme) (a : Alert) (labels annotations : List LabelName) :
    Option AlertError :=
  if a.startsAt = 0 then some .startMissing
  else if a.endsAt ≠ 0 ∧ a.endsAt < a.startsAt then some .startAfterEnd
  else if GoMap.len a.labels = 0 then some .noLabels
  else match validateLs scheme a.labels labels with
    | some err => some (.invalidLabels err)
    | none => (validateLs scheme a.annotations annotations).map .invalidAnnotations

theorem Alert.validateLs_of_validate {scheme : NameScheme} {a : Alert}
    {labels annotations : List LabelName} (h : a.validate scheme labels annotations = none) :
    validateLs scheme a.labels labels = none := by
  unfold Alert.validate at h
  split_ifs at h
  cases hlabels : validateLs scheme a.labels labels with
  | none => rfl
  | some err => simp [hlabels] at h

/-- Which labels are accepted does not depend on the order of the loop. -/
theorem validateLs_eq_none_iff {scheme : NameScheme} {ls : LabelSet} {order : List LabelName}
    (ho : GoMap.Ranges ls order) :
    validateLs scheme ls order = none ↔ ∀ ln lv, ls.lookup ln = some lv →
      scheme.isValidLabelName ln = true ∧ Utf8.validString lv = true := by
  have hloop : validateLs scheme ls order = none ↔ ∀ ln ∈ order,
      scheme.isValidLabelName ln = true ∧ Utf8.validString (LabelSet.get ls ln) = true := by
    clear ho
    induction order with
    | nil => simp [validateLs]
    | cons ln order ih =>
      rw [List.forall_mem_cons, ← ih, validateLs]
      split_ifs with hname hvalue
      · simp [hname]
      · simp [hvalue]
      · simp_all
  rw [hloop]
  constructor
  · intro h ln lv hlookup
    have hln := h ln ((ho.mem ln).mpr (GoMap.mem_of_lookup hlookup))
    rwa [LabelSet.get, hlookup, Option.getD_some] at hln
  · intro h ln hln
    obtain ⟨lv, hlookup⟩ := Finmap.mem_iff.mp ((ho.mem ln).mp hln)
    rw [LabelSet.get, hlookup, Option.getD_some]
    exact h ln lv hlookup

/-! ### The buffer -/

namespace Notify

/-- One round of the loop of `hashAlert`. -/
def appendLabel (ls : LabelSet) (b : Slice UInt8) (ln : LabelName) : Slice UInt8 :=
  (((b.append ln).append [0xff]).append (LabelSet.get ls ln)).append [0xff]

/-- What `hashAlert` passes to `xxhash.Sum64`, for the buffer that the pool returns and
the order in which the labels are collected. -/
def hashedBytes (buf : Slice UInt8) (order : List LabelName) (ls : LabelSet) : GoString :=
  ((order.insertionSort (· ≤ ·)).foldl (appendLabel ls) buf.reset).elems

/-- A label as it is written. -/
def labelBytes (p : LabelName × LabelValue) : GoString := p.1 ++ 0xff :: (p.2 ++ [0xff])

theorem hashedBytes_eq {buf : Slice UInt8} {order : List LabelName} {ls : LabelSet}
    (ho : GoMap.Ranges ls order) :
    hashedBytes buf order ls = (LabelSet.pairs ls).flatMap labelBytes := by
  have happend : ∀ (b : Slice UInt8) ln, (appendLabel ls b ln).elems =
      b.elems ++ labelBytes (ln, LabelSet.get ls ln) := by
    intro b ln
    simp [appendLabel, labelBytes]
  rw [hashedBytes, Slice.elems_foldl_append happend, ho.insertionSort_eq, Slice.elems_reset,
    List.nil_append, LabelSet.pairs, List.flatMap_map]

theorem hashAlert_eq [XXHash] {buf : Slice UInt8} {order : List LabelName} {a : Alert}
    (ho : GoMap.Ranges a.labels order) :
    hashAlert a = XXHash.sum64 (hashedBytes buf order a.labels) := by
  rw [hashedBytes_eq ho, hashAlert, LabelSet.pairs, List.flatMap_map]
  simp [labelBytes]

/-! ### Reading the bytes back -/

/-- A label whose name can be told from what is before it, and both parts from what is
behind them. -/
structure Separable (p : LabelName × LabelValue) : Prop where
  name_ne_nil : p.1 ≠ []
  name : 0xff ∉ p.1
  value : 0xff ∉ p.2

theorem labelBytes_selfDelimiting : SelfDelimiting Separable labelBytes := by
  rintro ⟨n, v⟩ ⟨n', v'⟩ h h' s t heq
  have hff : ∀ {l : GoString}, 0xff ∉ l → ∀ b ∈ l, ¬(b = 0xff) := by
    rintro l hl b hb rfl
    exact hl hb
  simp only [labelBytes, List.append_assoc, List.cons_append, List.nil_append] at heq
  obtain ⟨rfl, -, hvalues⟩ := eq_of_span (hff h.name) (hff h'.name) rfl rfl heq
  obtain ⟨rfl, -, hst⟩ := eq_of_span (hff h.value) (hff h'.value) rfl rfl hvalues
  exact ⟨rfl, hst⟩

theorem pairs_eq_of_labelBytes {ps ps' : List (LabelName × LabelValue)}
    (hps : ∀ p ∈ ps, Separable p) (hps' : ∀ p ∈ ps', Separable p)
    (h : ps.flatMap labelBytes = ps'.flatMap labelBytes) : ps = ps' := by
  -- A further separator ends the list, as no name begins with one.
  have hclosed := labelBytes_selfDelimiting.closed (z := 0xff) (by
    rintro ⟨n, v⟩ hp
    obtain ⟨b, bs, rfl⟩ := List.exists_cons_of_ne_nil hp.name_ne_nil
    refine ⟨b, bs ++ 0xff :: (v ++ [0xff]), rfl, ?_⟩
    rintro rfl
    exact hp.name List.mem_cons_self)
  exact hclosed.inj hps hps' (by rw [h])

theorem ff_not_mem_of_isValidLabelName {scheme : NameScheme} {ln : LabelName}
    (h : scheme.isValidLabelName ln = true) : 0xff ∉ ln := by
  cases ln with
  | nil => simp
  | cons b bs =>
    cases scheme with
    | utf8 => exact Utf8.ff_not_mem_of_validString h
    | classic =>
      intro hmem
      simp only [NameScheme.isValidLabelName, Bool.and_eq_true, List.all_eq_true] at h
      obtain rfl | hmem := List.mem_cons.mp hmem
      · exact absurd h.1 (by decide)
      · exact absurd (h.2 _ hmem) (by decide)

theorem separable_of_validateLs {scheme : NameScheme} {ls : LabelSet} {order : List LabelName}
    (ho : GoMap.Ranges ls order) (h : validateLs scheme ls order = none) :
    ∀ p ∈ LabelSet.pairs ls, Separable p := by
  rintro ⟨ln, lv⟩ hp
  obtain ⟨hname, hvalue⟩ := (validateLs_eq_none_iff ho).mp h ln lv (LabelSet.mem_pairs.mp hp)
  refine ⟨?_, ff_not_mem_of_isValidLabelName hname, Utf8.ff_not_mem_of_validString hvalue⟩
  rintro rfl
  simp [NameScheme.isValidLabelName] at hname

/-- Accepted label sets are hashed from the same bytes if and only if they are equal,
whatever the orders of the loops and the arrays of the buffers. -/
theorem hashedBytes_eq_iff [XXHash] {scheme : NameScheme} {ls ls' : LabelSet}
    {visited visited' : List LabelName} (hvisited : GoMap.Ranges ls visited)
    (hvisited' : GoMap.Ranges ls' visited') (hvalid : validateLs scheme ls visited = none)
    (hvalid' : validateLs scheme ls' visited' = none) {order order' : List LabelName}
    (ho : GoMap.Ranges ls order) (ho' : GoMap.Ranges ls' order') (buf buf' : Slice UInt8) :
    (∀ a : Alert, a.labels = ls → hashAlert a = XXHash.sum64 (hashedBytes buf order ls)) ∧
      (hashedBytes buf order ls = hashedBytes buf' order' ls' ↔ ls = ls') := by
  refine ⟨?_, ?_⟩
  · rintro a rfl
    exact hashAlert_eq ho
  · rw [hashedBytes_eq ho, hashedBytes_eq ho']
    constructor
    · intro h
      exact LabelSet.pairs_injective (pairs_eq_of_labelBytes
        (separable_of_validateLs hvisited hvalid) (separable_of_validateLs hvisited' hvalid') h)
    · rintro rfl
      rfl

/-- Two alerts whose names and values have the same letters in the same order. -/
def shiftedAlert : Alert := alertWith (List.toFinmap [⟨[97], [98, 99]⟩])

def unshiftedAlert : Alert := alertWith (List.toFinmap [⟨[97, 98], [99]⟩])

section
local instance lengthHash : XXHash := ⟨fun s => .ofNat s.length⟩

theorem hashedBytes_eq_iff_shifted :
    shiftedAlert.validate .utf8 [[97]] [] = none ∧
      unshiftedAlert.validate .utf8 [[97, 98]] [] = none ∧
      hashedBytes ((Slice.make 0 4).append [1, 2, 3]) [[97]] shiftedAlert.labels ≠
        hashedBytes (Slice.make 0 1024) [[97, 98]] unshiftedAlert.labels := by
  have hvalid : shiftedAlert.validate .utf8 [[97]] [] = none := by decide
  have hvalid' : unshiftedAlert.validate .utf8 [[97, 98]] [] = none := by decide
  have ho : GoMap.Ranges shiftedAlert.labels [[97]] := by decide
  have ho' : GoMap.Ranges unshiftedAlert.labels [[97, 98]] := by decide
  refine ⟨hvalid, hvalid', fun h => ?_⟩
  have hequal := (hashedBytes_eq_iff ho ho' (Alert.validateLs_of_validate hvalid)
    (Alert.validateLs_of_validate hvalid') ho ho' _ _).2.mp h
  exact absurd hequal (by decide)

end

end Notify

end Alertmanager
