import Alertmanager.AlertStore
import Alertmanager.Route

/-!
# Aggregation groups in shared memory

The part of `dispatch/dispatch.go` that several goroutines see: the groups, each
with its locked alert store and the position of its `run` loop, and for every
route the `sync.Map` from group fingerprints to groups. A group is known by its
address, so that `CompareAndSwap` and `CompareAndDelete` compare addresses.

Whatever a goroutine does to this memory is one of a few actions. The file lists
them with the conditions under which they are taken, and derives once what any of
them keeps: a destroyed store stays destroyed and empty, a live group stays in its
map, and a group that nobody has seen yet is not touched.
-/
namespace Alertmanager

/-- The position of `aggrGroup.run` and of the `flush` it is in. `idle` is a group
that was never started. -/
inductive RunPC
  | idle
  | waiting
  | listing
  | notifying (now : ℤ) (alerts resolved : List Alert)
  | deleting (now : ℤ) (resolved : List Alert)
  | checking
  | finished
  deriving DecidableEq

/-- The flush at this position took the alert as resolved, reading the clock at `now`. -/
def RunPC.Marked (now : ℤ) (a : Alert) : RunPC → Prop
  | notifying t _ resolved | deleting t resolved => now = t ∧ a ∈ resolved
  | idle | waiting | listing | checking | finished => False

def RunPC.isNotifying : RunPC → Bool
  | notifying .. => true
  | _ => false

def RunPC.isDeleting : RunPC → Bool
  | deleting .. => true
  | _ => false

/-- `starts` counts how often the `run` loop was started. -/
structure AggrGroup where
  route : ℕ
  labels : LabelSet
  alerts : AlertStore
  cancelled : Bool
  running : Bool
  pc : RunPC
  starts : ℕ

namespace AggrGroup

/-- `newAggrGroup`. -/
def newAggrGroup [Regexp] (labels : LabelSet) (r : Route) : AggrGroup :=
  ⟨r.idx, labels, .new, false, false, .idle, 0⟩

/-- `aggrGroup.insert`: nothing when the group has been destroyed. The store of a
group has no limit, so `Set` does not read the clock. -/
def insert [LabelHash] (ag : AggrGroup) (a : Alert) : Option AggrGroup :=
  match ag.alerts.set 0 a with
  | (some .destroyed, _) => none
  | (_, alerts) => some { ag with alerts := alerts }

/-- The group when `runAG` has won the flag and its loop begins. -/
def started (ag : AggrGroup) : AggrGroup :=
  { ag with running := true, pc := .waiting, starts := ag.starts + 1 }

/-- A group with its first alert, inserted before anyone else can see the group. -/
def first [Regexp] [LabelHash] (a : Alert) (r : Route) : AggrGroup :=
  let ag := newAggrGroup (getGroupLabels a r) r
  (ag.insert a).getD ag

/-- The group after a successful insertion. -/
def withAlert [LabelHash] (ag : AggrGroup) (a : Alert) : AggrGroup :=
  { ag with alerts :=
      { ag.alerts with alerts := ag.alerts.alerts.insert (fingerprint a.labels) a } }

theorem insert_of_destroyed [LabelHash] {ag : AggrGroup} (h : ag.alerts.destroyed = true)
    (a : Alert) : ag.insert a = none := by
  simp [insert, AlertStore.set, h]

theorem insert_of_live [LabelHash] {ag : AggrGroup} (h : ag.alerts.destroyed = false)
    (hl : ag.alerts.perAlertLimit ≤ 0) (a : Alert) : ag.insert a = some (ag.withAlert a) := by
  simp [insert, AlertStore.set_of_no_limit h hl, withAlert]

theorem first_eq [Regexp] [LabelHash] (a : Alert) (r : Route) :
    first a r = (newAggrGroup (getGroupLabels a r) r).withAlert a := by
  rw [first, insert_of_live rfl le_rfl, Option.getD_some]

/-- The copies `flush` takes: those it sends and, among them, the resolved ones. A
firing alert is sent without an end. -/
def copies (now : ℤ) (alerts : List Alert) : List Alert × List Alert :=
  (alerts.map fun a => if a.resolvedAt now then a else { a with endsAt := 0 },
    alerts.filter fun a => a.resolvedAt now)

theorem mem_copies {now : ℤ} {st : AlertStore} {order : List Fingerprint} {a : Alert}
    (h : a ∈ (copies now (st.list order)).2) :
    (∃ f, st.alerts.lookup f = some a) ∧ a.resolvedAt now = true := by
  simp only [copies, AlertStore.list, List.mem_filter, List.mem_filterMap] at h
  obtain ⟨⟨f, -, hf⟩, hres⟩ := h
  exact ⟨⟨f, hf⟩, hres⟩

end AggrGroup

structure Memory where
  heap : ℕ → AggrGroup
  alloc : ℕ
  groups : ℕ → GoMap Fingerprint ℕ

namespace Memory

/-- `groups.Load`. -/
def load (m : Memory) (i : ℕ) (fp : Fingerprint) : Option ℕ := (m.groups i).lookup fp

def setGroup (m : Memory) (p : ℕ) (ag : AggrGroup) : Memory :=
  { m with heap := Function.update m.heap p ag }

/-- The entry of a map is set, by `CompareAndSwap` or `LoadOrStore`. -/
def store (m : Memory) (i : ℕ) (fp : Fingerprint) (p : ℕ) : Memory :=
  { m with groups := Function.update m.groups i ((m.groups i).insert fp p) }

/-- The entry of a map is removed, by `CompareAndDelete`. -/
def delete (m : Memory) (i : ℕ) (fp : Fingerprint) : Memory :=
  { m with groups := Function.update m.groups i ((m.groups i).erase fp) }

/-- A new group takes the next address. -/
def create (m : Memory) (ag : AggrGroup) : Memory :=
  { m with heap := Function.update m.heap m.alloc ag, alloc := m.alloc + 1 }

def destroyed (m : Memory) (p : ℕ) : Bool := (m.heap p).alerts.destroyed

/-- The stored version of the alert with this fingerprint. -/
def stored (m : Memory) (p : ℕ) (f : Fingerprint) : Option Alert :=
  (m.heap p).alerts.alerts.lookup f

section
variable (m : Memory) (p q i j : ℕ) (k l : Fingerprint) (ag : AggrGroup)

@[simp] theorem heap_setGroup :
    (m.setGroup p ag).heap q = if q = p then ag else m.heap q := by
  simp [setGroup, Function.update_apply]

@[simp] theorem alloc_setGroup : (m.setGroup p ag).alloc = m.alloc := rfl

@[simp] theorem load_setGroup : (m.setGroup p ag).load i k = m.load i k := rfl

@[simp] theorem heap_store : (m.store i k p).heap = m.heap := rfl

@[simp] theorem alloc_store : (m.store i k p).alloc = m.alloc := rfl

@[simp] theorem load_store :
    (m.store i k p).load j l = if j = i ∧ l = k then some p else m.load j l := by
  by_cases hj : j = i
  · subst hj
    simp [load, store, GoMap.lookup_insert_eq]
  · simp [load, store, hj]

@[simp] theorem heap_delete : (m.delete i k).heap = m.heap := rfl

@[simp] theorem alloc_delete : (m.delete i k).alloc = m.alloc := rfl

@[simp] theorem load_delete :
    (m.delete i k).load j l = if j = i ∧ l = k then none else m.load j l := by
  by_cases hj : j = i
  · subst hj
    simp [load, delete, GoMap.lookup_erase_eq]
  · simp [load, delete, hj]

@[simp] theorem heap_create :
    (m.create ag).heap q = if q = m.alloc then ag else m.heap q := by
  simp [create, Function.update_apply]

@[simp] theorem alloc_create : (m.create ag).alloc = m.alloc + 1 := rfl

@[simp] theorem load_create : (m.create ag).load i k = m.load i k := rfl

end

/-! ### The actions -/

/-- What a goroutine does to the memory in one step. -/
inductive Action
  | silent
  | insert (p : ℕ) (a : Alert)
  | touch (p : ℕ)
  | start (p : ℕ)
  | flush (p : ℕ) (resolved : List Alert)
  | create (a : Alert)
  | publish (p : ℕ)
  | unpublish (p : ℕ)

variable [LabelHash]

/-- The group is stored in the map of its route. -/
def Mapped (m : Memory) (p : ℕ) : Prop :=
  m.load (m.heap p).route (fingerprint (m.heap p).labels) = some p

/-- A group other goroutines can act on. -/
def Exposed (m : Memory) (p : ℕ) : Prop :=
  m.destroyed p = true ∨ (m.heap p).pc ≠ .idle ∨ m.Mapped p

/-- The store of a group after `DeleteIfNotModified`, the last step of a flush. -/
def swept (m : Memory) (p : ℕ) (resolved : List Alert) : AggrGroup :=
  { m.heap p with
    alerts := (m.heap p).alerts.deleteIfNotModified resolved true
    pc := .checking }

/-- The actions with the conditions under which they are taken. -/
inductive Effect [Regexp] : Memory → Action → Memory → Prop
  | silent (m : Memory) : Effect m .silent m
  | insert {m : Memory} {p : ℕ} {a : Alert} :
      m.destroyed p = false → m.Mapped p →
      Effect m (.insert p a) (m.setGroup p ((m.heap p).withAlert a))
  | touch {m : Memory} {p : ℕ} {ag : AggrGroup} :
      m.Exposed p → ag.alerts = (m.heap p).alerts → ag.route = (m.heap p).route →
      ag.labels = (m.heap p).labels →
      (∀ now a, ag.pc.Marked now a →
        (m.heap p).pc.Marked now a ∨ (∃ f, m.stored p f = some a) ∧ a.resolvedAt now = true) →
      ag.running = (m.heap p).running → ag.starts = (m.heap p).starts →
      Effect m (.touch p) (m.setGroup p ag)
  | start {m : Memory} {p : ℕ} :
      m.Exposed p → (m.heap p).running = false →
      Effect m (.start p) (m.setGroup p (m.heap p).started)
  | flush {m : Memory} {p : ℕ} {now : ℤ} {resolved : List Alert} :
      (m.heap p).pc = .deleting now resolved →
      Effect m (.flush p resolved) (m.setGroup p (m.swept p resolved))
  | create {m : Memory} {a : Alert} (r : Route) :
      Effect m (.create a) (m.create (.first a r))
  | publish {m : Memory} {p : ℕ} :
      p < m.alloc → m.destroyed p = false →
      (∀ q, m.load (m.heap p).route (fingerprint (m.heap p).labels) = some q →
        m.destroyed q = true) →
      Effect m (.publish p) (m.store (m.heap p).route (fingerprint (m.heap p).labels) p)
  | unpublish {m : Memory} {p : ℕ} :
      m.destroyed p = true → m.Mapped p →
      Effect m (.unpublish p) (m.delete (m.heap p).route (fingerprint (m.heap p).labels))

section
variable [Regexp] {m m' : Memory} {act : Action} {p i : ℕ} {k : Fingerprint}

/-- A group is never given another route or other labels. -/
theorem Effect.home (h : Effect m act m') (hp : p < m.alloc) :
    (m'.heap p).route = (m.heap p).route ∧ (m'.heap p).labels = (m.heap p).labels := by
  cases h with
  | silent | publish | unpublish => exact ⟨rfl, rfl⟩
  | @insert q | @start q | @flush q =>
    rw [heap_setGroup]
    split_ifs with hq
    · subst hq
      exact ⟨rfl, rfl⟩
    · exact ⟨rfl, rfl⟩
  | @touch q ag _ _ hroute hlabels _ _ _ =>
    rw [heap_setGroup]
    split_ifs with hq
    · subst hq
      exact ⟨hroute, hlabels⟩
    · exact ⟨rfl, rfl⟩
  | create =>
    rw [heap_create, if_neg (by omega)]
    exact ⟨rfl, rfl⟩

theorem Effect.alloc_le (h : Effect m act m') : m.alloc ≤ m'.alloc := by
  cases h with
  | create => exact Nat.le_succ _
  | _ => exact le_rfl

theorem Effect.destroyed (h : Effect m act m') (hp : p < m.alloc)
    (hd : m.destroyed p = true) : m'.destroyed p = true := by
  cases h with
  | silent | publish | unpublish => exact hd
  | @insert q a hlive _ =>
    have hq : p ≠ q := by
      rintro rfl
      rw [hd] at hlive
      cases hlive
    simpa [Memory.destroyed, hq] using hd
  | @touch q ag _ halerts _ _ _ _ _ =>
    simp only [Memory.destroyed, heap_setGroup] at hd ⊢
    split_ifs with hq
    · subst hq
      rw [halerts]
      exact hd
    · exact hd
  | @start q =>
    simp only [Memory.destroyed, heap_setGroup] at hd ⊢
    split_ifs with hq
    · subst hq
      exact hd
    · exact hd
  | @flush q now resolved _ =>
    simp only [Memory.destroyed, heap_setGroup] at hd ⊢
    split_ifs with hq
    · subst hq
      simp [swept, AlertStore.deleteIfNotModified, hd]
    · exact hd
  | create =>
    simpa [Memory.destroyed, Nat.ne_of_lt hp] using hd

/-- A live group stays in its map. -/
theorem Effect.load (h : Effect m act m') (hload : m.load i k = some p)
    (hlive : m.destroyed p = false) : m'.load i k = some p := by
  cases h with
  | silent | insert | touch | start | flush | create => exact hload
  | @publish q _ _ hold =>
    rw [load_store, if_neg]
    · exact hload
    · rintro ⟨rfl, rfl⟩
      rw [hold p hload] at hlive
      cases hlive
  | @unpublish q hd hq =>
    rw [load_delete, if_neg]
    · exact hload
    · rintro ⟨rfl, rfl⟩
      obtain rfl : p = q := Option.some.inj (hload.symm.trans hq)
      rw [hd] at hlive
      cases hlive

/-- A group is in a map only if it was there or has just been published. -/
theorem Effect.load_or_publish (h : Effect m act m') (hload : m'.load i k = some p) :
    m.load i k = some p ∨
      act = .publish p ∧ (m.heap p).route = i ∧ fingerprint (m.heap p).labels = k := by
  cases h with
  | silent | insert | touch | start | flush | create => exact Or.inl hload
  | @publish q _ _ _ =>
    rw [load_store] at hload
    split_ifs at hload with hik
    · obtain rfl := Option.some.inj hload
      exact Or.inr ⟨rfl, hik.1.symm, hik.2.symm⟩
    · exact Or.inl hload
  | unpublish =>
    rw [load_delete] at hload
    split_ifs at hload
    exact Or.inl hload

/-- A group that nobody else can act on is left alone until it is published. -/
theorem Effect.hidden (h : Effect m act m') (hp : p < m.alloc) (hex : ¬ m.Exposed p)
    (hact : act ≠ .publish p) : m'.heap p = m.heap p ∧ ¬ m'.Mapped p := by
  have hnot : ¬ m.Mapped p := fun hm => hex (Or.inr (Or.inr hm))
  cases h with
  | silent => exact ⟨rfl, hnot⟩
  | @insert q a _ hq =>
    have hne : p ≠ q := by
      rintro rfl
      exact hnot hq
    simpa [Mapped, hne] using hnot
  | @touch q _ hq | @start q hq =>
    have hne : p ≠ q := by
      rintro rfl
      exact hex hq
    simpa [Mapped, hne] using hnot
  | @flush q now resolved hpc =>
    have hne : p ≠ q := by
      rintro rfl
      exact hex (Or.inr (Or.inl (by simp [hpc])))
    simpa [Mapped, hne] using hnot
  | create => simpa [Mapped, Nat.ne_of_lt hp] using hnot
  | @publish q _ _ _ =>
    have hne : q ≠ p := by
      rintro rfl
      exact hact rfl
    refine ⟨rfl, ?_⟩
    simp only [Mapped, heap_store, load_store]
    split_ifs
    · simpa using hne
    · exact hnot
  | @unpublish q _ _ =>
    refine ⟨rfl, ?_⟩
    simp only [Mapped, heap_delete, load_delete]
    split_ifs
    · simp
    · exact hnot

/-- How the stored version of an alert in an old group can change: it is
overwritten, or deleted by a flush that took this version as resolved. -/
theorem Effect.stored (h : Effect m act m') (hp : p < m.alloc) (f : Fingerprint) :
    m'.stored p f = m.stored p f ∨
      (∃ a, act = .insert p a ∧ f = fingerprint a.labels ∧ m'.stored p f = some a) ∨
      ∃ resolved, act = .flush p resolved ∧ m'.stored p f = none ∧
        ∃ a ∈ resolved, fingerprint a.labels = f ∧
          ∃ other, m.stored p f = some other ∧ a.updatedAt = other.updatedAt := by
  cases h with
  | silent | publish | unpublish => exact Or.inl rfl
  | @insert q a _ _ =>
    by_cases hq : p = q
    · subst hq
      by_cases hf : f = fingerprint a.labels
      · refine Or.inr (Or.inl ⟨a, rfl, hf, ?_⟩)
        simp [Memory.stored, AggrGroup.withAlert, GoMap.lookup_insert_eq, hf]
      · refine Or.inl ?_
        simp [Memory.stored, AggrGroup.withAlert, hf]
    · exact Or.inl (by simp [Memory.stored, hq])
  | @touch q ag _ halerts _ _ _ _ _ =>
    refine Or.inl ?_
    by_cases hq : p = q
    · subst hq
      simp [Memory.stored, halerts]
    · simp [Memory.stored, hq]
  | @start q =>
    refine Or.inl ?_
    by_cases hq : p = q
    · subst hq
      simp [Memory.stored, AggrGroup.started]
    · simp [Memory.stored, hq]
  | @flush q now resolved _ =>
    by_cases hq : p = q
    · subst hq
      have hdel := AlertStore.lookup_deleteUnmodified resolved (m.heap p).alerts.alerts f
      simp only [Memory.stored, heap_setGroup, if_pos, swept, AlertStore.deleteIfNotModified]
      obtain heq | ⟨hnone, hrest⟩ := hdel
      · exact Or.inl heq
      · exact Or.inr (Or.inr ⟨resolved, rfl, hnone, hrest⟩)
    · exact Or.inl (by simp [Memory.stored, hq])
  | create => exact Or.inl (by simp [Memory.stored, Nat.ne_of_lt hp])

end

end Memory

/-! ### The invariant of the memory -/

section
variable [LabelHash]

/-- A destroyed group is empty, its store has no limit, alerts are stored under
their fingerprint, and the alerts a flush took as resolved were. The alerts are
those of `Q`. -/
structure AggrGroup.Ok (Q : Alert → Prop) (ag : AggrGroup) : Prop where
  empty : ag.alerts.destroyed = true → ∀ f, ag.alerts.alerts.lookup f = none
  noLimit : ag.alerts.perAlertLimit ≤ 0
  known : ∀ f a, ag.alerts.alerts.lookup f = some a → f = fingerprint a.labels ∧ Q a
  marked : ∀ now a, ag.pc.Marked now a → Q a ∧ a.resolvedAt now = true

structure Memory.WellFormed (Q : Alert → Prop) (m : Memory) : Prop where
  mapped : ∀ i k p, m.load i k = some p →
    p < m.alloc ∧ (m.heap p).route = i ∧ fingerprint (m.heap p).labels = k
  group : ∀ p, (m.heap p).Ok Q

namespace AggrGroup.Ok
variable {Q Q' : Alert → Prop} {ag : AggrGroup}

theorem mono (h : ag.Ok Q) (hQ : ∀ a, Q a → Q' a) : ag.Ok Q' where
  empty := h.empty
  noLimit := h.noLimit
  known f a hf := ⟨(h.known f a hf).1, hQ a (h.known f a hf).2⟩
  marked now a ha := ⟨hQ a (h.marked now a ha).1, (h.marked now a ha).2⟩

theorem newAggrGroup [Regexp] (labels : LabelSet) (r : Route) :
    (AggrGroup.newAggrGroup labels r).Ok Q where
  empty h := by cases h
  noLimit := le_rfl
  known f a h := by simp [AggrGroup.newAggrGroup, AlertStore.new] at h
  marked now a h := by cases h

theorem withAlert (h : ag.Ok Q) (hd : ag.alerts.destroyed = false) {a : Alert} (ha : Q a) :
    (ag.withAlert a).Ok Q where
  empty hd' := by simp [AggrGroup.withAlert, hd] at hd'
  noLimit := h.noLimit
  known f b hb := by
    simp only [AggrGroup.withAlert, GoMap.lookup_insert_eq] at hb
    split_ifs at hb with hf
    · obtain rfl := Option.some.inj hb
      exact ⟨hf, ha⟩
    · exact h.known f b hb
  marked := h.marked

/-- Whatever happens to the loop of a group, the alerts it marks come from the store. -/
theorem touch (h : ag.Ok Q) {ag' : AggrGroup} (halerts : ag'.alerts = ag.alerts)
    (hpc : ∀ now a, ag'.pc.Marked now a →
      ag.pc.Marked now a ∨
        (∃ f, ag.alerts.alerts.lookup f = some a) ∧ a.resolvedAt now = true) :
    ag'.Ok Q where
  empty := halerts ▸ h.empty
  noLimit := halerts ▸ h.noLimit
  known := halerts ▸ h.known
  marked now a ha := by
    obtain hold | ⟨⟨f, hf⟩, hres⟩ := hpc now a ha
    · exact h.marked now a hold
    · exact ⟨(h.known f a hf).2, hres⟩

theorem deleteIfNotModified (h : ag.Ok Q) (resolved : List Alert) :
    AggrGroup.Ok Q { ag with
      alerts := ag.alerts.deleteIfNotModified resolved true
      pc := .checking } where
  empty hd f := by
    have hdel := AlertStore.lookup_deleteUnmodified resolved ag.alerts.alerts f
    by_cases hlen : GoMap.len (AlertStore.deleteUnmodified resolved ag.alerts.alerts) = 0
    · exact GoMap.len_eq_zero.mp hlen f
    · have hold : ag.alerts.destroyed = true := by
        simpa [AlertStore.deleteIfNotModified, hlen] using hd
      obtain heq | ⟨hnone, -⟩ := hdel
      · exact heq.trans (h.empty hold f)
      · exact hnone
  noLimit := h.noLimit
  known f a hf := by
    obtain heq | ⟨hnone, -⟩ := AlertStore.lookup_deleteUnmodified resolved ag.alerts.alerts f
    · exact h.known f a (heq.symm.trans hf)
    · cases hnone.symm.trans hf
  marked now a ha := by cases ha

end AggrGroup.Ok

namespace Memory
variable {Q Q' : Alert → Prop} {m m' : Memory} {act : Action}

theorem WellFormed.mono (h : m.WellFormed Q) (hQ : ∀ a, Q a → Q' a) : m.WellFormed Q' :=
  ⟨h.mapped, fun p => (h.group p).mono hQ⟩

theorem WellFormed.setGroup (h : m.WellFormed Q) {p : ℕ} {ag : AggrGroup} (hag : ag.Ok Q)
    (hroute : ag.route = (m.heap p).route) (hlabels : ag.labels = (m.heap p).labels) :
    (m.setGroup p ag).WellFormed Q where
  mapped i k q hq := by
    obtain ⟨hlt, hr, hl⟩ := h.mapped i k q hq
    refine ⟨hlt, ?_⟩
    rw [heap_setGroup]
    split_ifs with hqp
    · subst hqp
      exact ⟨hroute.trans hr, by rw [hlabels, hl]⟩
    · exact ⟨hr, hl⟩
  group q := by
    rw [heap_setGroup]
    split_ifs
    · exact hag
    · exact h.group q

/-- Every action keeps the invariant, if the alerts it brings in are those of `Q`. -/
theorem Effect.wellFormed [Regexp] (h : Effect m act m') (hm : m.WellFormed Q)
    (hinsert : ∀ p a, act = .insert p a → Q a) (hcreate : ∀ a, act = .create a → Q a) :
    m'.WellFormed Q := by
  cases h with
  | silent => exact hm
  | @insert p a hlive _ =>
    exact hm.setGroup ((hm.group p).withAlert hlive (hinsert p a rfl)) rfl rfl
  | @touch p ag _ halerts hroute hlabels hpc _ _ =>
    exact hm.setGroup ((hm.group p).touch halerts hpc) hroute hlabels
  | @start p _ _ =>
    exact hm.setGroup ((hm.group p).touch rfl fun _ _ h => h.elim) rfl rfl
  | @flush p now resolved _ =>
    exact hm.setGroup ((hm.group p).deleteIfNotModified resolved) rfl rfl
  | @create a r =>
    refine ⟨fun i k p hp => ?_, fun p => ?_⟩
    · obtain ⟨hlt, hr, hl⟩ := hm.mapped i k p hp
      rw [heap_create, if_neg (by omega)]
      exact ⟨Nat.lt_succ_of_lt hlt, hr, hl⟩
    · rw [heap_create]
      split_ifs
      · rw [AggrGroup.first_eq]
        exact (AggrGroup.Ok.newAggrGroup _ r).withAlert rfl (hcreate a rfl)
      · exact hm.group p
  | @publish p hlt _ _ =>
    refine ⟨fun i k q hq => ?_, hm.group⟩
    rw [load_store] at hq
    split_ifs at hq with hik
    · obtain rfl := Option.some.inj hq
      exact ⟨hlt, hik.1.symm, hik.2.symm⟩
    · exact hm.mapped i k q hq
  | unpublish =>
    refine ⟨fun i k q hq => ?_, hm.group⟩
    rw [load_delete] at hq
    split_ifs at hq with hik
    exact hm.mapped i k q hq

theorem WellFormed.isMapped (h : m.WellFormed Q) {i p : ℕ} {k : Fingerprint}
    (hload : m.load i k = some p) : m.Mapped p := by
  obtain ⟨-, hr, hl⟩ := h.mapped i k p hload
  rw [Mapped, hr, hl]
  exact hload

end Memory

end

end Alertmanager
