import Alertmanager.Alert
import Alertmanager.GoQuote

/-!
# The data of a notification

`Template.Data` of `template/template.go`. The common labels and annotations start from
those of the first alert, and every other alert deletes the ones that read differently in
it. A missing entry reads as the empty string, so that an empty annotation survives an
alert that lacks it. Labels are never empty, as the API removes the empty ones.
-/
namespace Alertmanager

/-- `KV`. -/
abbrev KV := GoMap GoString GoString

inductive AlertStatus
  | firing
  | resolved
  deriving DecidableEq

def AlertStatus.text : AlertStatus → GoString
  | firing => str "firing"
  | resolved => str "resolved"

/-- `model.Alert.Status`. -/
def Alert.status (a : Alert) (now : ℤ) : AlertStatus :=
  if a.resolvedAt now then .resolved else .firing

/-- The readings of the clock for the alerts at the positions of the list: by `types.Alerts`,
by the status of all alerts and by the status of each. -/
structure DataClock where
  exposed : ℕ → ℤ
  all : ℕ → ℤ
  each : ℕ → ℤ

/-- `types.Alerts`: an end that is not reached is not exposed. -/
def exposedAlerts (clock : ℕ → ℤ) (alerts : List Alert) : List Alert :=
  alerts.mapIdx fun i a => if a.resolvedAt (clock i) then a else { a with endsAt := 0 }

/-- `model.Alerts.Status`. -/
def statusOfAll (clock : ℕ → ℤ) (alerts : List Alert) : AlertStatus :=
  if (alerts.mapIdx fun i a => !a.resolvedAt (clock i)).any id then .firing else .resolved

/-- The bytes before which `regexp.QuoteMeta` writes a backslash. -/
def metaBytes : GoString := str "\\.+*?()|[]\x7b\x7d^$"

/-- `regexp.QuoteMeta`. -/
def quoteMeta (s : GoString) : GoString :=
  s.flatMap fun b => if b ∈ metaBytes then [92, b] else [b]

/-- `Alert` of the template package. -/
structure TemplateAlert where
  status : GoString
  labels : KV
  annotations : KV
  startsAt : ℤ
  endsAt : ℤ
  generatorURL : GoString
  fingerprint : GoString

/-- `Data`. -/
structure TemplateData where
  receiver : GoString
  status : GoString
  alerts : List TemplateAlert
  notificationReason : GoString
  groupLabels : KV
  commonLabels : KV
  commonAnnotations : KV
  routeLabels : KV
  externalURL : GoString
  routeLabelsRendered : Bool

/-- An alert as a template sees it. -/
def Alert.templateAlert [LabelHash] (a : Alert) (now : ℤ) : TemplateAlert where
  status := (a.status now).text
  labels := a.labels
  annotations := a.annotations
  startsAt := a.startsAt
  endsAt := a.endsAt
  generatorURL := a.generatorURL
  fingerprint := Strconv.hex 16 (fingerprint a.labels).toNat

/-- The loop that deletes from `common` what reads differently in `ls`. -/
def deleteDiffering (ls : LabelSet) (order : List LabelName) (common : LabelSet) : LabelSet :=
  GoMap.deleteWhere (fun ln lv => LabelSet.get ls ln != lv) order common

/-- In which order the loops of the given round visit the common labels and annotations. -/
structure DataOrder where
  labels : ℕ → LabelSet → List LabelName
  annotations : ℕ → LabelSet → List LabelName
  labels_ranges : ∀ i m, GoMap.Ranges m (labels i m)
  annotations_ranges : ∀ i m, GoMap.Ranges m (annotations i m)

/-- The loop over `alerts[1:]`, from the given round on. -/
def commonLoop (order : DataOrder) : ℕ → List Alert → LabelSet × LabelSet → LabelSet × LabelSet
  | _, [], common => common
  | i, a :: alerts, (commonLabels, commonAnnotations) =>
    if GoMap.len commonLabels = 0 ∧ GoMap.len commonAnnotations = 0 then
      (commonLabels, commonAnnotations)
    else
      commonLoop order (i + 1) alerts
        (deleteDiffering a.labels (order.labels i commonLabels) commonLabels,
          deleteDiffering a.annotations (order.annotations i commonAnnotations)
            commonAnnotations)

/-- The common labels and annotations. -/
def commonOf (order : DataOrder) : List Alert → LabelSet × LabelSet
  | [] => (∅, ∅)
  | a :: alerts => commonLoop order 0 alerts (a.labels, a.annotations)

/-- `Template.Data`, of a template with the given external URL. -/
def templateData [LabelHash] (clock : DataClock) (order : DataOrder) (externalURL recv : GoString)
    (groupLabels routeLabels : LabelSet) (notificationReason : GoString)
    (alerts : List Alert) : TemplateData :=
  let typedAlerts := exposedAlerts clock.exposed alerts
  let common := commonOf order alerts
  { receiver := quoteMeta recv
    status := (statusOfAll clock.all typedAlerts).text
    alerts := typedAlerts.mapIdx fun i a => a.templateAlert (clock.each i)
    notificationReason
    groupLabels
    commonLabels := common.1
    commonAnnotations := common.2
    routeLabels
    externalURL
    routeLabelsRendered := false }

/-! ### The loop -/

theorem lookup_deleteDiffering {ls common : LabelSet} {order : List LabelName}
    (ho : GoMap.Ranges common order) (ln : LabelName) (lv : LabelValue) :
    (deleteDiffering ls order common).lookup ln = some lv ↔
      common.lookup ln = some lv ∧ LabelSet.get ls ln = lv := by
  rw [deleteDiffering, GoMap.lookup_deleteWhere_of_ranges _ ho, Option.filter_eq_some_iff]
  simp

/-- What is left has the value that it reads in every alert. -/
theorem lookup_commonLoop (order : DataOrder) (i : ℕ) (alerts : List Alert)
    (common : LabelSet × LabelSet) (ln : LabelName) (lv : LabelValue) :
    ((commonLoop order i alerts common).1.lookup ln = some lv ↔
      common.1.lookup ln = some lv ∧ ∀ a ∈ alerts, LabelSet.get a.labels ln = lv) ∧
    ((commonLoop order i alerts common).2.lookup ln = some lv ↔
      common.2.lookup ln = some lv ∧ ∀ a ∈ alerts, LabelSet.get a.annotations ln = lv) := by
  induction alerts generalizing i common with
  | nil => simp [commonLoop]
  | cons a alerts ih =>
    obtain ⟨commonLabels, commonAnnotations⟩ := common
    rw [commonLoop]
    split_ifs with hempty
    · -- the loop stops early, and there is nothing left to delete
      simp [GoMap.len_eq_zero.mp hempty.1 ln, GoMap.len_eq_zero.mp hempty.2 ln]
    · constructor
      · rw [(ih _ _).1, lookup_deleteDiffering (order.labels_ranges i commonLabels),
          List.forall_mem_cons, and_assoc]
      · rw [(ih _ _).2, lookup_deleteDiffering (order.annotations_ranges i commonAnnotations),
          List.forall_mem_cons, and_assoc]

/-! ### The intersection -/

/-- The pairs that are present in every label set of a list. -/
def IsIntersection (sets : List LabelSet) (common : LabelSet) : Prop :=
  ∀ ln lv, common.lookup ln = some lv ↔ ∀ ls ∈ sets, ls.lookup ln = some lv

theorem IsIntersection.perm {sets sets' : List LabelSet} (hperm : sets.Perm sets')
    {common : LabelSet} (h : IsIntersection sets common) : IsIntersection sets' common := by
  intro ln lv
  rw [h ln lv]
  exact forall_congr' fun ls => by rw [hperm.mem_iff]

/-- What the loops leave: the pairs of the first set that read the same in the others. -/
def IsReading (sets : List LabelSet) (common : LabelSet) : Prop :=
  ∀ ln lv, common.lookup ln = some lv ↔
    (∃ ls, sets.head? = some ls ∧ ls.lookup ln = some lv) ∧ ∀ ls ∈ sets, LabelSet.get ls ln = lv

theorem get_of_lookup {ls : LabelSet} {ln : LabelName} {lv : LabelValue}
    (h : ls.lookup ln = some lv) : LabelSet.get ls ln = lv := by
  rw [LabelSet.get, h, Option.getD_some]

theorem lookup_of_get {ls : LabelSet} {ln : LabelName} {lv : LabelValue}
    (h : LabelSet.get ls ln = lv) (hlv : lv ≠ []) : ls.lookup ln = some lv := by
  rw [LabelSet.get] at h
  cases hlookup : ls.lookup ln with
  | none => exact absurd (by rw [← h, hlookup]; rfl) hlv
  | some v => rw [← h, hlookup, Option.getD_some]

theorem isReading_commonOf (order : DataOrder) {alerts : List Alert} (hne : alerts ≠ []) :
    IsReading (alerts.map (·.labels)) (commonOf order alerts).1 ∧
      IsReading (alerts.map (·.annotations)) (commonOf order alerts).2 := by
  obtain ⟨a, alerts, rfl⟩ := List.exists_cons_of_ne_nil hne
  -- the first alert reads as it is
  have hread : ∀ (ls : LabelSet) (others : List LabelSet) ln lv,
      (ls.lookup ln = some lv ∧ ∀ ls' ∈ others, LabelSet.get ls' ln = lv) ↔
        (∃ ls', (ls :: others).head? = some ls' ∧ ls'.lookup ln = some lv) ∧
          ∀ ls' ∈ ls :: others, LabelSet.get ls' ln = lv := by
    intro ls others ln lv
    simp only [List.head?_cons, Option.some.injEq, exists_eq_left', List.forall_mem_cons]
    exact ⟨fun h => ⟨h.1, get_of_lookup h.1, h.2⟩, fun h => ⟨h.1, h.2.2⟩⟩
  constructor
  · intro ln lv
    rw [commonOf, (lookup_commonLoop order 0 alerts _ ln lv).1, List.map_cons, ← hread,
      List.forall_mem_map]
  · intro ln lv
    rw [commonOf, (lookup_commonLoop order 0 alerts _ ln lv).2, List.map_cons, ← hread,
      List.forall_mem_map]

/-- No empty value of the first set is read where it is missing. -/
def HeadComplete (sets : List LabelSet) : Prop :=
  ∀ ls ∈ sets.head?, ∀ ln, ls.lookup ln = some [] →
    (∀ ls' ∈ sets, LabelSet.get ls' ln = []) → ∀ ls' ∈ sets, ls'.lookup ln ≠ none

/-- The pairs that read the same are the common ones exactly if none is read where it is
missing. -/
theorem IsReading.isIntersection_iff {sets : List LabelSet} {common : LabelSet}
    (hne : sets ≠ []) (h : IsReading sets common) :
    IsIntersection sets common ↔ HeadComplete sets := by
  obtain ⟨first, others, rfl⟩ := List.exists_cons_of_ne_nil hne
  have hcommon : ∀ ln lv, common.lookup ln = some lv ↔
      first.lookup ln = some lv ∧ ∀ ls ∈ first :: others, LabelSet.get ls ln = lv := by
    intro ln lv
    rw [h ln lv]
    simp only [List.head?_cons, Option.some.injEq, exists_eq_left']
  constructor
  · intro hinter ls hls ln hlookup hread ls' hls'
    obtain rfl : first = ls := by simpa using hls
    have hmem := (hinter ln []).mp ((hcommon ln []).mpr ⟨hlookup, hread⟩) ls' hls'
    simp [hmem]
  · intro hcomplete ln lv
    rw [hcommon]
    constructor
    · rintro ⟨hfirst, hread⟩ ls hls
      by_cases hlv : lv = []
      · subst hlv
        obtain ⟨v, hv⟩ := Option.ne_none_iff_exists'.mp
          (hcomplete first rfl ln hfirst hread ls hls)
        rw [hv, ← hread ls hls, get_of_lookup hv]
      · exact lookup_of_get (hread ls hls) hlv
    · intro hall
      exact ⟨hall first List.mem_cons_self, fun ls hls => get_of_lookup (hall ls hls)⟩

/-- Without empty values nothing can be missing. -/
theorem headComplete_of_ne_nil {sets : List LabelSet}
    (h : ∀ ls ∈ sets, ∀ ln, ls.lookup ln ≠ some []) : HeadComplete sets :=
  fun ls hls ln hlookup => absurd hlookup (h ls (List.mem_of_mem_head? hls) ln)

/-- A name that is empty in some set, and in none has another value, is in every set. -/
def EmptyNowhereMissing (sets : List LabelSet) : Prop :=
  ∀ ln, (∃ ls ∈ sets, ls.lookup ln = some []) → (∀ ls ∈ sets, LabelSet.get ls ln = []) →
    ∀ ls ∈ sets, ls.lookup ln ≠ none

theorem EmptyNowhereMissing.perm {sets sets' : List LabelSet} (hperm : sets.Perm sets')
    (h : EmptyNowhereMissing sets) : EmptyNowhereMissing sets' := by
  intro ln hempty hread ls hls
  simp only [← hperm.mem_iff] at hempty hread hls
  exact h ln hempty hread ls hls

/-- Every set can come first. -/
theorem emptyNowhereMissing_iff {sets : List LabelSet} :
    EmptyNowhereMissing sets ↔ ∀ sets', sets'.Perm sets → HeadComplete sets' := by
  constructor
  · intro h sets' hperm ls hls ln hlookup hread ls' hls'
    exact h.perm hperm.symm ln ⟨ls, List.mem_of_mem_head? hls, hlookup⟩ hread ls' hls'
  · rintro h ln ⟨ls, hls, hlookup⟩ hread ls' hls'
    have hperm : (ls :: sets.erase ls).Perm sets := (List.perm_cons_erase hls).symm
    exact h _ hperm ls rfl ln hlookup (fun ls'' hls'' => hread ls'' (hperm.mem_iff.mp hls''))
      ls' (hperm.mem_iff.mpr hls')

/-- Common labels and annotations are the intersection, in whatever order the alerts come,
if and only if no annotation is empty in one alert and missing in another, unless a third
one has a value for it. -/
theorem common_intersection_iff [LabelHash] (clock : DataClock) (order : DataOrder)
    (externalURL recv : GoString) (groupLabels routeLabels : LabelSet)
    (notificationReason : GoString) (alerts : List Alert) (hne : alerts ≠ [])
    (hlabels : ∀ a ∈ alerts, ∀ ln, a.labels.lookup ln ≠ some []) :
    (∀ alerts' : List Alert, alerts'.Perm alerts →
      let data := templateData clock order externalURL recv groupLabels routeLabels
        notificationReason alerts'
      IsIntersection (alerts.map (·.labels)) data.commonLabels ∧
        IsIntersection (alerts.map (·.annotations)) data.commonAnnotations) ↔
      EmptyNowhereMissing (alerts.map (·.annotations)) := by
  have hne' : ∀ {alerts' : List Alert}, alerts'.Perm alerts → alerts' ≠ [] := by
    rintro _ hperm rfl
    exact hne (List.nil_perm.mp hperm)
  rw [emptyNowhereMissing_iff]
  constructor
  · intro h sets' hperm
    obtain ⟨alerts', rfl, hperm'⟩ : ∃ alerts' : List Alert,
        sets' = alerts'.map (·.annotations) ∧ alerts'.Perm alerts :=
      (congrFun₂ (List.eq_map_comp_perm fun a : Alert => a.annotations) sets' alerts).mpr hperm
    obtain ⟨-, hread⟩ := isReading_commonOf order (hne' hperm')
    refine (hread.isIntersection_iff (by simpa using hne' hperm')).mp ?_
    exact (h alerts' hperm').2.perm hperm.symm
  · intro h alerts' hperm
    obtain ⟨hread, hread'⟩ := isReading_commonOf order (hne' hperm)
    have hlabels' : HeadComplete (alerts'.map (·.labels)) := by
      refine headComplete_of_ne_nil ?_
      rw [List.forall_mem_map]
      exact fun a ha => hlabels a (hperm.mem_iff.mp ha)
    constructor
    · refine IsIntersection.perm (hperm.map _) ?_
      exact (hread.isIntersection_iff (by simpa using hne' hperm)).mpr hlabels'
    · refine IsIntersection.perm (hperm.map _) ?_
      exact (hread'.isIntersection_iff (by simpa using hne' hperm)).mpr (h _ (hperm.map _))

/-- The loops visit the entries by name. -/
def byName : DataOrder where
  labels _ := GoMap.sortedKeys
  annotations _ := GoMap.sortedKeys
  labels_ranges _ := GoMap.ranges_sortedKeys
  annotations_ranges _ := GoMap.ranges_sortedKeys

/-- An alert of an instance with the given annotations. -/
def annotatedAlert (lv : UInt8) (annotations : LabelSet) : Alert :=
  ⟨(∅ : LabelSet).insert [105] [lv], annotations, 1, 0, [], 1, false⟩

theorem annotatedAlert_lookup_ne (lv : UInt8) (annotations : LabelSet) (ln : LabelName) :
    (annotatedAlert lv annotations).labels.lookup ln ≠ some [] := by
  rw [annotatedAlert, GoMap.lookup_insert_eq]
  split_ifs <;> simp

def emptyNote : LabelSet := (∅ : LabelSet).insert [110] []

section
attribute [local instance] fnvLabelHash

/-- Two alerts that both have an empty annotation. -/
theorem common_intersection_iff_empty_note :
    let data := templateData ⟨fun _ => 0, fun _ => 0, fun _ => 0⟩ byName [] [] ∅ ∅ []
      [annotatedAlert 49 emptyNote, annotatedAlert 50 emptyNote]
    IsIntersection [emptyNote, emptyNote] data.commonAnnotations := by
  refine ((common_intersection_iff _ byName [] [] ∅ ∅ []
    [annotatedAlert 49 emptyNote, annotatedAlert 50 emptyNote] (by simp) ?_).mpr ?_ _
    (List.Perm.refl _)).2
  · simp only [List.forall_mem_cons]
    exact ⟨annotatedAlert_lookup_ne _ _, annotatedAlert_lookup_ne _ _, by simp⟩
  · rintro ln ⟨ls, hls, hlookup⟩ - ls' hls'
    have hnote : ∀ l ∈ [emptyNote, emptyNote], l = emptyNote := by simp
    rw [hnote ls' hls', ← hnote ls hls, hlookup]
    simp

/-- An alert with an empty annotation, then one that lacks it: the annotation is common.
It is not in the other order. -/
theorem empty_note_survives :
    let data := templateData ⟨fun _ => 0, fun _ => 0, fun _ => 0⟩ byName [] [] ∅ ∅ []
    (data [annotatedAlert 49 emptyNote, annotatedAlert 50 ∅]).commonAnnotations.lookup [110] =
        some [] ∧
      (∅ : LabelSet).lookup [110] = none ∧
      ¬IsIntersection [emptyNote, ∅]
        (data [annotatedAlert 49 emptyNote, annotatedAlert 50 ∅]).commonAnnotations ∧
      (data [annotatedAlert 50 ∅, annotatedAlert 49 emptyNote]).commonAnnotations.lookup [110] =
        none := by
  have hlookup : (templateData ⟨fun _ => 0, fun _ => 0, fun _ => 0⟩ byName [] [] ∅ ∅ []
      [annotatedAlert 49 emptyNote, annotatedAlert 50 ∅]).commonAnnotations.lookup [110] =
      some [] := by decide
  refine ⟨hlookup, rfl, fun h => ?_, by decide⟩
  have hmissing := (h [110] []).mp hlookup ∅ (by simp)
  exact absurd hmissing (by decide)

end

end Alertmanager
