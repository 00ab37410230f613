import Alertmanager.DispatchStart

/-!
# The limit on aggregation groups

A call of `groupAlert` compares the limit with a counter before it stores its group
and adds to the counter after that, and maintenance subtracts from it after it has
deleted a group. So the counter differs from the number of stored groups by the calls
and sweeps that are between the two. When calls pass the check one at a time, the
limit is never exceeded; when moreover no deletion is uncounted, no other call for
the same group is under way and the map has no destroyed group in the place of the
new one, an alert is refused only when it has no group and all places are taken.
-/
namespace Alertmanager

/-- The predicate holds at as many indexes. -/
def Counted (f : ℕ → Bool) (c : ℕ) : Prop :=
  ∃ W : Finset ℕ, (∀ x, x ∈ W ↔ f x = true) ∧ W.card = c

theorem counted_false : Counted (fun _ => false) 0 := ⟨∅, by simp, rfl⟩

theorem Counted.eq_zero {f : ℕ → Bool} {c : ℕ} (h : Counted f c) (hf : ∀ x, f x = false) :
    c = 0 := by
  obtain ⟨W, hW, rfl⟩ := h
  refine Finset.card_eq_zero.mpr (Finset.eq_empty_of_forall_notMem fun x hx => ?_)
  cases (hf x).symm.trans ((hW x).mp hx)

theorem Counted.update {f : ℕ → Bool} {c : ℕ} (h : Counted f c) (x : ℕ) (b : Bool) :
    ∃ c', Counted (Function.update f x b) c' ∧ c' + (f x).toNat = c + b.toNat := by
  obtain ⟨W, hW, rfl⟩ := h
  cases b with
  | true =>
    refine ⟨(insert x W).card, ⟨insert x W, fun y => ?_, rfl⟩, ?_⟩
    · rw [Finset.mem_insert, Function.update_apply, hW]
      split_ifs with hy <;> simp [hy]
    · by_cases hx : x ∈ W
      · simp [hx, (hW x).mp hx]
      · have hfx : f x = false := by simpa using mt (hW x).mpr hx
        simp [hx, hfx]
  | false =>
    refine ⟨(W.erase x).card, ⟨W.erase x, fun y => ?_, rfl⟩, ?_⟩
    · rw [Finset.mem_erase, Function.update_apply, hW]
      split_ifs with hy <;> simp [hy]
    · by_cases hx : x ∈ W
      · have hpos := Finset.card_pos.mpr ⟨x, hx⟩
        simp only [Finset.card_erase_of_mem hx, (hW x).mp hx, Bool.toNat_true, Bool.toNat_false]
        omega
      · have hfx : f x = false := by simpa using mt (hW x).mpr hx
        simp [hx, hfx]

namespace Dispatcher

/-- The call has stored a new group and not yet counted it. -/
def CallPC.uncounted : CallPC → Bool
  | countLen _ | countNum _ => true
  | _ => false

/-- The call has passed the check of the limit for a group it has not yet counted. -/
def CallPC.creating (pc : CallPC) : Bool := pc.created.isSome || pc.uncounted

/-- The call is past its first look at the map. -/
def CallPC.grouping : CallPC → Bool
  | load | returned _ => false
  | _ => true

def CallPC.checking : CallPC → Bool
  | create _ => true
  | _ => false

/-- What the call saw in the map, until it checks the limit. -/
def CallPC.candidate : CallPC → Option (Option ℕ)
  | insertLoaded el => some (some el)
  | create el => some el
  | _ => none

/-- The sweep has deleted a group and not yet subtracted it. -/
def MaintenancePC.uncounted : MaintenancePC → Bool
  | countLen _ | countNum => true
  | _ => false

section
variable [Regexp]

/-- The number of groups stored in the maps of all routes. -/
def numGroups (root : Route) (m : Memory) : ℕ :=
  ∑ i ∈ Finset.range (root.idx + 1), (m.groups i).keys.card

def Worker.callIs (P : CallPC → Bool) : Worker → Bool
  | .idle => false
  | .busy _ _ pc _ => P pc

/-- The worker is in a call for the group with this key. -/
def Worker.groups [LabelHash] (i : ℕ) (k : Fingerprint) : Worker → Bool
  | .idle => false
  | .busy a route pc _ => pc.grouping && (route.idx = i && groupKey a route = k)

theorem numGroups_update {root : Route} {m : Memory} {i : ℕ} (hi : i ≤ root.idx)
    (g : GoMap Fingerprint ℕ) :
    numGroups root { m with groups := Function.update m.groups i g } + (m.groups i).keys.card =
      numGroups root m + g.keys.card := by
  have hmem : i ∈ Finset.range (root.idx + 1) := by
    rw [Finset.mem_range]
    omega
  have hrest : ∑ j ∈ (Finset.range (root.idx + 1)).erase i,
      (Function.update m.groups i g j).keys.card =
        ∑ j ∈ (Finset.range (root.idx + 1)).erase i, (m.groups j).keys.card := by
    refine Finset.sum_congr rfl fun j hj => ?_
    rw [Function.update_of_ne (Finset.ne_of_mem_erase hj)]
  simp only [numGroups, ← Finset.add_sum_erase _ _ hmem, hrest, Function.update_self]
  omega

theorem numGroups_store {root : Route} {m : Memory} {i : ℕ} (hi : i ≤ root.idx) (k : Fingerprint)
    (p : ℕ) :
    numGroups root (m.store i k p) = numGroups root m + if m.load i k = none then 1 else 0 := by
  have hkeys : ((m.groups i).insert k p).keys = insert k (m.groups i).keys := by
    ext x
    simp [Finmap.mem_keys, Finmap.mem_insert]
  have hupdate : numGroups root (m.store i k p) + (m.groups i).keys.card = _ :=
    numGroups_update hi _
  rw [hkeys] at hupdate
  cases hload : m.load i k with
  | none =>
    have hk : k ∉ (m.groups i).keys := by
      rw [Finmap.mem_keys]
      exact Finmap.lookup_eq_none.mp hload
    rw [Finset.card_insert_of_notMem hk] at hupdate
    rw [if_pos rfl]
    omega
  | some q =>
    rw [Finset.card_insert_of_mem (mem_keys_of_load hload)] at hupdate
    rw [if_neg (by simp)]
    omega

theorem numGroups_delete {root : Route} {m : Memory} {i : ℕ} (hi : i ≤ root.idx)
    {k : Fingerprint} {p : ℕ} (hload : m.load i k = some p) :
    numGroups root (m.delete i k) + 1 = numGroups root m := by
  have hkeys : ((m.groups i).erase k).keys = (m.groups i).keys.erase k := by
    ext x
    simp [Finmap.mem_keys]
  have hupdate : numGroups root (m.delete i k) + (m.groups i).keys.card = _ :=
    numGroups_update hi _
  rw [hkeys] at hupdate
  have hcard := Finset.card_erase_add_one (mem_keys_of_load hload)
  omega

variable {root : Route} {n : ℕ} {S : Finset LabelSet} {s : State} {op : Op} {w : ℕ} {a : Alert}
  {route : Route} {pc : CallPC} {rest : List Route} {i p : ℕ} {k : Fingerprint} {limit : ℤ}

/-! ### The counter -/

/-- The counter and the stored groups differ by the calls and sweeps that have still to
count. -/
def Balance (root : Route) (s : State) : Prop :=
  ∃ stored deleted : ℕ, Counted (Worker.callIs CallPC.uncounted ∘ s.workers) stored ∧
    Counted (MaintenancePC.uncounted ∘ s.maintenance) deleted ∧
    (numGroups root s.shared.mem : ℤ) + deleted = s.shared.aggrGroupsNum + stored

theorem balance_init : Balance root (init : State) := by
  refine ⟨0, 0, counted_false, counted_false, ?_⟩
  simp [numGroups, init]

/-- A step that stores, deletes and counts nothing. -/
theorem Balance.congr {t : State} (h : Balance root s)
    (hgroups : t.shared.mem.groups = s.shared.mem.groups)
    (hnum : t.shared.aggrGroupsNum = s.shared.aggrGroupsNum)
    (hworkers : Worker.callIs CallPC.uncounted ∘ t.workers =
      Worker.callIs CallPC.uncounted ∘ s.workers)
    (hmaintenance : MaintenancePC.uncounted ∘ t.maintenance =
      MaintenancePC.uncounted ∘ s.maintenance) : Balance root t := by
  obtain ⟨stored, deleted, hstored, hdeleted, heq⟩ := h
  refine ⟨stored, deleted, hworkers ▸ hstored, hmaintenance ▸ hdeleted, ?_⟩
  rw [hnum, ← heq]
  simp [numGroups, hgroups]

theorem callIs_routeAlert (P : CallPC → Bool) (hP : P .load = false) (a : Alert)
    (routes : List Route) : (routeAlert a routes).callIs P = false := by
  cases routes with
  | nil => rfl
  | cons r rs => exact hP

theorem callIs_update {P : CallPC → Bool} {x : Worker} (h : x.callIs P = (s.workers w).callIs P) :
    Worker.callIs P ∘ Function.update s.workers w x = Worker.callIs P ∘ s.workers := by
  rw [Function.comp_update, h]
  exact Function.update_eq_self w _

variable [LabelHash]

theorem groupAlert_balance (a : Alert) (hidx : route.idx ≤ root.idx) (limit : ℤ) (sh : Shared)
    (pc : CallPC) :
    (numGroups root (groupAlert a route limit sh pc).1.mem : ℤ) + sh.aggrGroupsNum +
        pc.uncounted.toNat =
      numGroups root sh.mem + (groupAlert a route limit sh pc).1.aggrGroupsNum +
        (groupAlert a route limit sh pc).2.uncounted.toNat := by
  cases pc with
  | load | loadState =>
    simp only [groupAlert]
    split <;> rfl
  | insertLoaded el =>
    simp only [groupAlert]
    split <;> rfl
  | create el =>
    simp only [groupAlert]
    split_ifs
    · rfl
    · cases el <;> rfl
  | compareAndSwap ag el retries =>
    simp only [groupAlert]
    split_ifs with hload
    · simp [numGroups_store hidx, hload, CallPC.uncounted]
    · unfold retry
      split_ifs <;> rfl
  | loadOrStore ag retries =>
    cases hload : sh.mem.load route.idx (groupKey a route) with
    | none =>
      simp only [groupAlert, hload, numGroups_store hidx, CallPC.uncounted]
      simp
      omega
    | some el =>
      simp only [groupAlert, hload]
      rfl
  | insertExisting ag el retries =>
    simp only [groupAlert]
    split
    · rfl
    · unfold retry
      split_ifs <;> rfl
  | countNum ag =>
    simp only [groupAlert, CallPC.uncounted, Bool.toNat_true, Bool.toNat_false]
    omega
  | runAG ag =>
    simp only [groupAlert, startGroup]
    split_ifs <;> rfl
  | cancelOld | countLen | returned => rfl

theorem doMaintenance_balance {sh : Shared}
    (hload : ∀ i k p, sh.mem.load i k = some p → i ≤ root.idx) (pc : MaintenancePC) :
    (numGroups root (doMaintenance sh pc).1.mem : ℤ) + sh.aggrGroupsNum +
        (doMaintenance sh pc).2.uncounted.toNat =
      numGroups root sh.mem + (doMaintenance sh pc).1.aggrGroupsNum + pc.uncounted.toNat := by
  cases pc with
  | visiting i ag =>
    simp only [doMaintenance]
    split_ifs <;> rfl
  | deleting i ag =>
    simp only [doMaintenance]
    split_ifs with hag
    · have hdelete := numGroups_delete (hload _ _ _ hag) hag
      simp only [MaintenancePC.uncounted, Bool.toNat_true, Bool.toNat_false]
      omega
    · rfl
  | countNum =>
    simp only [doMaintenance, MaintenancePC.uncounted, Bool.toNat_true, Bool.toNat_false]
    omega
  | idle | cancelling | stopping | countLen => rfl

omit [Regexp] [LabelHash] in
theorem groups_startGroup (m : Memory) (p : ℕ) : (startGroup m p).groups = m.groups := by
  unfold startGroup
  split_ifs <;> rfl

theorem balance_next (hroutes : RoutesInv root n s) (h : Balance root s) (he : Enabled n S s op) :
    Balance root (next root s op) := by
  cases op with
  | deliver | tick | list | check | done | stop => exact h.congr rfl rfl rfl rfl
  | notified | delete | startTimer | sweep | sweepNext =>
    simp only [next]
    split <;> exact h.congr rfl rfl rfl rfl
  | sweepStart p =>
    simp only [next]
    split
    · exact h.congr (groups_startGroup _ p) rfl rfl rfl
    · exact h
  | receive w =>
    cases hchan : s.chan with
    | nil => simpa only [next, hchan] using h
    | cons a chan =>
      simp only [next, hchan]
      refine h.congr rfl rfl (callIs_update ?_) rfl
      have hidle : s.workers w = .idle := by
        cases hw : s.workers w with
        | idle => rfl
        | busy => simp [Enabled, hw, Worker.isIdle] at he
      rw [callIs_routeAlert _ rfl, hidle]
      rfl
  | visit t i key =>
    simp only [next]
    split
    · refine h.congr rfl rfl rfl ?_
      rw [Function.comp_update]
      refine Eq.trans ?_ (Function.update_eq_self t _)
      simp [he.1, MaintenancePC.uncounted]
    · exact h
  | call w limit =>
    cases hw : s.workers w with
    | idle => simp [Enabled, hw, Worker.isIdle] at he
    | busy a route pc rest =>
      by_cases hret : ∃ outcome, pc = .returned outcome
      · obtain ⟨outcome, rfl⟩ := hret
        rw [next_returned hw]
        refine h.congr rfl rfl (callIs_update ?_) rfl
        rw [callIs_routeAlert _ rfl, hw]
        rfl
      · rw [next_call hw fun o ho => hret ⟨o, ho⟩]
        have hstep := groupAlert_balance a
          (hroutes.call w a route pc rest hw route List.mem_cons_self) limit s.shared pc
        obtain ⟨stored, deleted, hstored, hdeleted, heq⟩ := h
        obtain ⟨stored', hstored', hcount⟩ := hstored.update w
          (groupAlert a route limit s.shared pc).2.uncounted
        refine ⟨stored', deleted, ?_, hdeleted, ?_⟩
        · rw [Function.comp_update]
          exact hstored'
        · simp only [Function.comp_apply, hw, Worker.callIs] at hcount
          simp only
          omega
  | maintain t =>
    have hstep := doMaintenance_balance hroutes.load (s.maintenance t)
    obtain ⟨stored, deleted, hstored, hdeleted, heq⟩ := h
    obtain ⟨deleted', hdeleted', hcount⟩ := hdeleted.update t
      (doMaintenance s.shared (s.maintenance t)).2.uncounted
    refine ⟨stored, deleted', hstored, ?_, ?_⟩
    · simp only [next, Function.comp_update]
      exact hdeleted'
    · simp only [Function.comp_apply] at hcount
      simp only [next]
      omega

/-! ### Runs in which the limit is exact -/

/-- The call of worker `w` looks for its group only when no other call for this group is
under way, and it checks the limit only when no other call is between its check and its
counting and a destroyed group that the call has found is no longer in the map. -/
def OrderlyCall (n : ℕ) (s : State) (w : ℕ) : Worker → Prop
  | .busy a route .load _ =>
    ∀ w' < n, w' ≠ w → (s.workers w').groups route.idx (groupKey a route) = false
  | .busy a route (.create el) _ =>
    (∀ w' < n, w' ≠ w → (s.workers w').callIs CallPC.creating = false) ∧
      ∀ q ∈ el, s.shared.mem.load route.idx (groupKey a route) ≠ some q
  | _ => True

def OrderlyCalls (n : ℕ) (s : State) : Op → Prop
  | .call w _ => OrderlyCall n s w (s.workers w)
  | _ => True

/-- The calls are orderly, and when one checks the limit no sweep is between a deletion
and its counting. -/
def Orderly (n : ℕ) (s : State) (op : Op) : Prop :=
  OrderlyCalls n s op ∧ ∀ w limit, op = .call w limit →
    (s.workers w).callIs CallPC.checking = true → ∀ t, (s.maintenance t).uncounted = false

/-- The limit of the step, if it is one of a call. -/
def Op.limited (L : ℤ) : Op → Prop
  | .call _ limit => limit = L
  | _ => True

/-- What holds along the orderly runs with the limit `L`. -/
structure LimitInv (root : Route) (L : ℤ) (s : State) : Prop where
  balance : Balance root s
  creating : ∀ w w', (s.workers w).callIs CallPC.creating = true →
    (s.workers w').callIs CallPC.creating = true → w = w'
  groups : ∀ w w' i k, (s.workers w).groups i k = true → (s.workers w').groups i k = true → w = w'
  bound : (numGroups root s.shared.mem : ℤ) ≤ L
  room : ∀ w a route pc rest, s.workers w = .busy a route pc rest → pc.created.isSome = true →
    (numGroups root s.shared.mem : ℤ) < L
  candidate : ∀ w a route pc rest, s.workers w = .busy a route pc rest →
    ∀ el, pc.candidate = some el →
    ∀ q, s.shared.mem.load route.idx (groupKey a route) = some q → el = some q

theorem groups_of_grouping (hw : s.workers w = .busy a route pc rest) (hpc : pc.grouping = true) :
    (s.workers w).groups route.idx (groupKey a route) = true := by
  simp [hw, Worker.groups, hpc]

/-- How a call comes to hold a group that is not yet counted. -/
theorem groupAlert_creating {sh : Shared}
    (h : (groupAlert a route limit sh pc).2.creating = true) :
    pc.creating = true ∨ ∃ el, pc = .create el ∧ ¬ (0 < limit ∧ limit ≤ sh.aggrGroupsNum) := by
  cases pc with
  | compareAndSwap | loadOrStore | insertExisting | countLen | countNum => exact Or.inl rfl
  | create el =>
    refine Or.inr ⟨el, rfl, fun hlim => ?_⟩
    simp only [groupAlert, if_pos hlim] at h
    cases h
  | load | insertLoaded | loadState =>
    simp only [groupAlert] at h
    split at h <;> cases h
  | cancelOld | runAG | returned => cases h

/-- A call that will still count a new group but has not stored it came from the check. -/
theorem groupAlert_created {sh : Shared}
    (h : (groupAlert a route limit sh pc).2.created.isSome = true) :
    (pc.created.isSome = true ∧ (groupAlert a route limit sh pc).1.mem.groups = sh.mem.groups) ∨
      ∃ el, pc = .create el ∧ ¬ (0 < limit ∧ limit ≤ sh.aggrGroupsNum) := by
  cases pc with
  | compareAndSwap ag el retries =>
    simp only [groupAlert] at h ⊢
    split_ifs at h ⊢
    · cases h
    · exact Or.inl ⟨rfl, rfl⟩
  | loadOrStore ag retries =>
    simp only [groupAlert] at h ⊢
    split at h
    · exact Or.inl ⟨rfl, rfl⟩
    · cases h
  | insertExisting ag el retries =>
    simp only [groupAlert] at h ⊢
    split at h
    · cases h
    · exact Or.inl ⟨rfl, rfl⟩
  | create el =>
    refine Or.inr ⟨el, rfl, fun hlim => ?_⟩
    simp only [groupAlert, if_pos hlim] at h
    cases h
  | load | insertLoaded | loadState =>
    simp only [groupAlert] at h
    split at h <;> cases h
  | cancelOld | countLen | countNum | runAG | returned => cases h

/-- Only storing a group can make the groups more, and then by one. -/
theorem numGroups_effect {m m' : Memory} {act : Memory.Action} (h : Memory.Effect m act m')
    (hold : ∀ i k p, m.load i k = some p → i ≤ root.idx)
    (hnew : ∀ i k p, m'.load i k = some p → i ≤ root.idx) :
    numGroups root m' ≤ numGroups root m ∨
      ∃ p, act = .publish p ∧ numGroups root m' ≤ numGroups root m + 1 := by
  cases h with
  | silent | insert | touch | start | flush | create => exact Or.inl le_rfl
  | @publish p _ _ _ =>
    have hidx : (m.heap p).route ≤ root.idx :=
      hnew _ (fingerprint (m.heap p).labels) p (by simp)
    refine Or.inr ⟨p, rfl, ?_⟩
    rw [numGroups_store hidx]
    split_ifs <;> omega
  | @unpublish p _ hp =>
    have hdelete := numGroups_delete (hold _ _ _ hp) hp
    exact Or.inl (by omega)

/-- When a call passes the check in an orderly run, there is room for its group. -/
theorem room_of_check {el : Option ℕ} {L : ℤ} (hL : 0 < L) (hroutes : RoutesInv root n s)
    (hbalance : Balance root s) (hw : s.workers w = .busy a route (.create el) rest)
    (hg : Orderly n s (.call w L)) (hcheck : ¬ (0 < L ∧ L ≤ s.shared.aggrGroupsNum)) :
    (numGroups root s.shared.mem : ℤ) < L := by
  have hcalls := hg.1
  simp only [OrderlyCalls, OrderlyCall, hw] at hcalls
  obtain ⟨stored, deleted, hstored, -, heq⟩ := hbalance
  have hzero : stored = 0 := by
    refine hstored.eq_zero fun w' => ?_
    cases hw' : s.workers w' with
    | idle => simp [hw', Worker.callIs]
    | busy a' route' pc' rest' =>
      by_cases hne : w' = w
      · subst hne
        simp [hw, Worker.callIs, CallPC.uncounted]
      · have hfree := hcalls.1 w' (hroutes.worker w' _ _ _ _ hw') hne
        simp only [hw', Worker.callIs, CallPC.creating, Bool.or_eq_false_iff] at hfree
        simpa [hw', Worker.callIs] using hfree.2
  omega

/-- A worker that holds an uncounted group held one before, or it has passed the check. -/
theorem creating_before (hroutes : RoutesInv root n s) (hg : Orderly n s op)
    (hw : ((next root s op).workers w).callIs CallPC.creating = true) :
    (s.workers w).callIs CallPC.creating = true ∨
      ∃ limit, op = .call w limit ∧
        ∀ w', w' ≠ w → (s.workers w').callIs CallPC.creating = false := by
  cases hnew : (next root s op).workers w with
  | idle =>
    rw [hnew] at hw
    cases hw
  | busy a route pc rest =>
    rw [hnew] at hw
    cases became hnew with
    | stayed _ hold =>
      rw [hold]
      exact Or.inl hw
    | received _ _ _ _ hpc | nextRoute _ _ _ _ _ hpc =>
      subst hpc
      cases hw
    | stepped limit pc' hop hold _ _ hpc =>
      subst hpc
      obtain hpc' | ⟨el, rfl, -⟩ := groupAlert_creating hw
      · rw [hold]
        exact Or.inl hpc'
      · subst hop
        have hcalls := hg.1
        simp only [OrderlyCalls, OrderlyCall, hold] at hcalls
        refine Or.inr ⟨limit, rfl, fun w' hne => ?_⟩
        cases hw' : s.workers w' with
        | idle => rfl
        | busy a' route' pc' rest' =>
          rw [← hw']
          exact hcalls.1 w' (hroutes.worker w' _ _ _ _ hw') hne

/-- A worker in a call for a group was in it before, or it has just looked for it. -/
theorem groups_before (hroutes : RoutesInv root n s) (hg : Orderly n s op)
    (hw : ((next root s op).workers w).groups i k = true) :
    (s.workers w).groups i k = true ∨
      ∃ limit, op = .call w limit ∧ ∀ w', w' ≠ w → (s.workers w').groups i k = false := by
  cases hnew : (next root s op).workers w with
  | idle =>
    rw [hnew] at hw
    cases hw
  | busy a route pc rest =>
    rw [hnew] at hw
    cases became hnew with
    | stayed _ hold =>
      rw [hold]
      exact Or.inl hw
    | received _ _ _ _ hpc | nextRoute _ _ _ _ _ hpc =>
      subst hpc
      cases hw
    | stepped limit pc' hop hold hret _ hpc =>
      simp only [Worker.groups, Bool.and_eq_true, decide_eq_true_eq] at hw
      obtain ⟨-, rfl, rfl⟩ := hw
      by_cases hload : pc' = .load
      · subst hop hload
        have hcalls := hg.1
        simp only [OrderlyCalls, OrderlyCall, hold] at hcalls
        refine Or.inr ⟨limit, rfl, fun w' hne => ?_⟩
        cases hw' : s.workers w' with
        | idle => rfl
        | busy a' route' pc' rest' =>
          rw [← hw']
          exact hcalls w' (hroutes.worker w' _ _ _ _ hw') hne
      · refine Or.inl (groups_of_grouping hold ?_)
        cases pc' with
        | load => exact absurd rfl hload
        | returned outcome => exact absurd rfl (hret outcome)
        | _ => rfl

theorem candidate_next {L : ℤ} (hinv : Inv S s) (h : LimitInv root L s) (he : Enabled n S s op)
    (hw : (next root s op).workers w = .busy a route pc rest) {el : Option ℕ}
    (hel : pc.candidate = some el) {q : ℕ}
    (hload : (next root s op).shared.mem.load route.idx (groupKey a route) = some q) :
    el = some q := by
  cases became hw with
  | stayed hstay hold =>
    obtain ⟨act, heffect, hby⟩ := next_effect root hinv he
    obtain hload' | ⟨rfl, hidx, hkey⟩ := heffect.load_or_publish hload
    · exact h.candidate w a route pc rest hold el hel q hload'
    · -- Another call that stores a group under this key would be a call for this group.
      obtain ⟨w', limit, a', route', pc', rest', rfl, hw', hp⟩ := hby
      have hfresh := (hinv.call w' a' route' pc' rest' hw').fresh hp
      have hgroups' := groups_of_grouping hw' (by
        cases pc' <;> first | rfl | cases hp)
      rw [← hfresh.idx, ← hfresh.key, hidx, hkey] at hgroups'
      have hgroups := groups_of_grouping hold (by
        cases pc <;> first | rfl | cases hel)
      obtain rfl := h.groups w w' _ _ hgroups hgroups'
      exact absurd rfl (hstay limit)
  | received _ _ _ _ hpc | nextRoute _ _ _ _ _ hpc =>
    subst hpc
    cases hel
  | stepped limit pc' _ hold _ hshared hpc =>
    subst hpc
    rw [hshared] at hload
    cases pc' with
    | load =>
      cases hq : s.shared.mem.load route.idx (groupKey a route) with
      | none =>
        simp only [groupAlert, hq] at hload
        cases hload
      | some q' =>
        simp only [groupAlert, hq, CallPC.candidate, Option.some.injEq] at hel hload
        rw [← hel, hload]
    | insertLoaded el' =>
      cases hins : (s.shared.mem.heap el').insert a with
      | none =>
        simp only [groupAlert, hins, CallPC.candidate, Option.some.injEq] at hel hload
        rw [← hel]
        exact h.candidate w a route _ rest hold _ rfl q hload
      | some ag =>
        simp only [groupAlert, hins] at hel
        cases hel
    | create el' =>
      simp only [groupAlert] at hel
      split_ifs at hel
      · cases hel
      · cases el' <;> cases hel
    | compareAndSwap ag el' retries =>
      simp only [groupAlert, retry] at hel
      split_ifs at hel <;> cases hel
    | insertExisting ag el' retries =>
      simp only [groupAlert, retry] at hel
      split at hel
      · cases hel
      · split_ifs at hel <;> cases hel
    | loadOrStore | loadState =>
      simp only [groupAlert] at hel
      split at hel <;> cases hel
    | cancelOld | countLen | countNum | runAG | returned => cases hel

theorem limitInv_init {L : ℤ} (hL : 0 < L) : LimitInv root L (init : State) where
  balance := balance_init
  creating w w' h := by cases h
  groups w w' i k h := by cases h
  bound := by
    simp only [numGroups, init, Finmap.keys_empty, Finset.card_empty, Finset.sum_const_zero]
    omega
  room w a route pc rest h := by cases h
  candidate w a route pc rest h := by cases h

theorem limitInv_next {L : ℤ} (hL : 0 < L) (hinv : Inv S s) (hroutes : RoutesInv root n s)
    (hroutes' : RoutesInv root n (next root s op)) (h : LimitInv root L s)
    (he : Enabled n S s op) (hg : Orderly n s op) (hop : op.limited L) :
    LimitInv root L (next root s op) where
  balance := balance_next hroutes h.balance he
  creating w w' hw hw' := by
    obtain hold | ⟨limit, hcall, hfree⟩ := creating_before hroutes hg hw
    · obtain hold' | ⟨limit, -, hfree⟩ := creating_before hroutes hg hw'
      · exact h.creating w w' hold hold'
      · by_contra hne
        cases (hfree w hne).symm.trans hold
    · obtain hold' | ⟨limit', hcall', -⟩ := creating_before hroutes hg hw'
      · by_contra hne
        cases (hfree w' (Ne.symm hne)).symm.trans hold'
      · exact (Op.call.inj (hcall.symm.trans hcall')).1
  groups w w' i k hw hw' := by
    obtain hold | ⟨limit, hcall, hfree⟩ := groups_before hroutes hg hw
    · obtain hold' | ⟨limit, -, hfree⟩ := groups_before hroutes hg hw'
      · exact h.groups w w' i k hold hold'
      · by_contra hne
        cases (hfree w hne).symm.trans hold
    · obtain hold' | ⟨limit', hcall', -⟩ := groups_before hroutes hg hw'
      · by_contra hne
        cases (hfree w' (Ne.symm hne)).symm.trans hold'
      · exact (Op.call.inj (hcall.symm.trans hcall')).1
  bound := by
    obtain ⟨act, heffect, hby⟩ := next_effect root hinv he
    obtain hle | ⟨p, rfl, hle⟩ := numGroups_effect heffect hroutes.load hroutes'.load
    · have hbound := h.bound
      omega
    · obtain ⟨w, limit, a, route, pc, rest, -, hw, hp⟩ := hby
      have hroom := h.room w a route pc rest hw (by simp [hp])
      omega
  room w a route pc rest hw hpc := by
    cases became hw with
    | stayed hstay hold =>
      have hroom := h.room w a route pc rest hold hpc
      obtain ⟨act, heffect, hby⟩ := next_effect root hinv he
      obtain hle | ⟨p, rfl, -⟩ := numGroups_effect heffect hroutes.load hroutes'.load
      · omega
      · -- The call that stores a group is the only one that has passed the check.
        obtain ⟨w', limit, a', route', pc', rest', rfl, hw', hp⟩ := hby
        obtain rfl := h.creating w w' (by simp [hold, Worker.callIs, CallPC.creating, hpc])
          (by simp [hw', Worker.callIs, CallPC.creating, hp])
        exact absurd rfl (hstay limit)
    | received _ _ _ _ hload | nextRoute _ _ _ _ _ hload =>
      subst hload
      cases hpc
    | stepped limit pc' hcall hold _ hshared heq =>
      subst heq hcall
      obtain rfl : limit = L := hop
      obtain ⟨hcreated, hgroups⟩ | ⟨el, rfl, hcheck⟩ := groupAlert_created hpc
      · have hroom := h.room w a route pc' rest hold hcreated
        rw [hshared]
        simpa [numGroups, hgroups] using hroom
      · have hroom := room_of_check hL hroutes h.balance hold hg hcheck
        rw [hshared]
        simpa [numGroups, groupAlert, if_neg hcheck, Memory.create] using hroom
  candidate w a route pc rest hw el hel q hload := candidate_next hinv h he hw hel hload

/-- The step refuses the alert of the worker for the limit. -/
def Refuses (root : Route) (s : State) (op : Op) (a : Alert) (route : Route) : Prop :=
  ∃ w limit el rest, op = .call w limit ∧ s.workers w = .busy a route (.create el) rest ∧
    (next root s op).workers w = .busy a route (.returned .limited) rest

/-- In an orderly run the groups in the maps are never more than the limit, and an alert
is refused only when there is no group for it and as many groups as the limit says. -/
theorem group_limit_exact {ways : List ℕ → Way} {cr : RouteConfig} {c : ℕ}
    (hroot : newRoute ways [] none 0 cr = some (root, c)) {L : ℤ} (hL : 0 < L) {ops : List Op}
    (hlimit : ∀ op ∈ ops, op.limited L)
    (hrun : Run (Guarded (Orderly n) (Fires (Enabled n S) (next root))) init ops s) :
    (numGroups root s.shared.mem : ℤ) ≤ L ∧
    ∀ op a route, op.limited L → Orderly n s op → Enabled n S s op → Refuses root s op a route →
      s.shared.mem.load route.idx (groupKey a route) = none ∧
      (numGroups root s.shared.mem : ℤ) = L := by
  have hend := (hrun.guarded hlimit).invariant
    (I := fun s => Inv S s ∧ RoutesInv root n s ∧ LimitInv root L s)
    (fun s op t hs hstep => by
      obtain ⟨hop, hg, he, rfl⟩ := hstep
      obtain ⟨hinv, hroutes, h⟩ := hs
      have hroutes' := routesInv_next (newRoute_within hroot).2.2 hinv hroutes he
      exact ⟨inv_next hinv he, hroutes', limitInv_next hL hinv hroutes hroutes' h he hg hop⟩)
    ⟨inv_init, routesInv_init, limitInv_init hL⟩
  obtain ⟨-, -, h⟩ := hend
  refine ⟨h.bound, ?_⟩
  rintro op a route hop hg - ⟨w, limit, el, rest, rfl, hw, hrefused⟩
  obtain rfl : limit = L := hop
  have hfull : limit ≤ s.shared.aggrGroupsNum := by
    by_contra hroom
    rw [next_call hw (by simp)] at hrefused
    simp only [Function.update_self, Worker.busy.injEq, true_and] at hrefused
    simp only [groupAlert, if_neg (not_and_of_not_right _ hroom)] at hrefused
    cases el <;> simp at hrefused
  have hcalls := hg.1
  simp only [OrderlyCalls, OrderlyCall, hw] at hcalls
  refine ⟨?_, ?_⟩
  · cases hload : s.shared.mem.load route.idx (groupKey a route) with
    | none => rfl
    | some q => exact absurd hload (hcalls.2 q (h.candidate w a route _ rest hw el rfl q hload))
  · obtain ⟨stored, deleted, -, hdeleted, heq⟩ := h.balance
    have hzero := hdeleted.eq_zero (hg.2 w limit rfl (by rw [hw]; rfl))
    have hbound := h.bound
    omega

/-- When no sweep is at work, only the calls have to be orderly. -/
theorem orderly_iff (h : ∀ t, s.maintenance t = .idle) : Orderly n s op ↔ OrderlyCalls n s op :=
  ⟨And.left, fun hcalls => ⟨hcalls, fun _ _ _ _ t => by rw [h t]; rfl⟩⟩

/-- No sweep begins with this step. -/
def Op.sweepless : Op → Bool
  | .visit .. => false
  | _ => true

theorem maintenance_idle (h : ∀ t, s.maintenance t = .idle) (hop : op.sweepless = true) (t : ℕ) :
    (next root s op).maintenance t = .idle := by
  cases op with
  | visit => cases hop
  | maintain t' =>
    simp only [next, Function.update_apply, h t']
    split_ifs
    · rfl
    · exact h t
  | receive | call | notified | delete | startTimer | sweep | sweepStart | sweepNext =>
    simp only [next]
    split <;> exact h t
  | deliver | tick | list | check | done | stop => exact h t

instance (n : ℕ) (s : State) (w : ℕ) (x : Worker) : Decidable (OrderlyCall n s w x) := by
  rcases x with _ | ⟨a, route, pc, rest⟩
  · exact isTrue trivial
  · cases pc <;> unfold OrderlyCall <;> infer_instance

instance (n : ℕ) (s : State) : (op : Op) → Decidable (OrderlyCalls n s op)
  | .call w _ => inferInstanceAs (Decidable (OrderlyCall n s w (s.workers w)))
  | .deliver _ | .receive _ | .tick _ | .list _ _ _ | .notified _ _ | .delete _ | .check _
  | .done _ | .visit _ _ _ | .maintain _ | .startTimer | .sweep _ | .sweepStart _ | .sweepNext
  | .stop => isTrue trivial

/-- An orderly run without sweeps, found by evaluation. -/
theorem orderly_run {ops : List Op} (hops : ∀ op ∈ ops, op.sweepless = true)
    (h : Feasible (fun s op => OrderlyCalls n s op ∧ Enabled n S s op) (next root) init ops) :
    Run (Guarded (Orderly n) (Fires (Enabled n S) (next root))) init ops
      (ops.foldl (next root) init) := by
  refine Run.of_feasible_guarded ((Feasible.congr (I := fun _ op => op.sweepless = true)
    (J := fun s => ∀ t, s.maintenance t = .idle) ?_ ?_ (fun _ => rfl) fun _ => hops).mpr h)
  · exact fun s op hs hop t => maintenance_idle hs hop t
  · exact fun s op hs _ => and_congr_left' (orderly_iff hs)

end

section
attribute [local instance] noRegexp fnvLabelHash

/-- A root that puts alerts with different labels into different groups. -/
def perAlertConfig : RouteConfig :=
  .node ⟨[], none, true, ∅, ∅, [], [], [], false, none, none, none, ∅⟩ []

def perAlertRoute : Route := .node { defaultRouteOpts with groupByAll := true } [] false [] 0

theorem newRoute_perAlertConfig :
    newRoute (fun _ => ⟨[], [], id⟩) [] none 0 perAlertConfig = some (perAlertRoute, 1) := rfl

def portLabels : LabelSet := (∅ : LabelSet).insert Alert.alertNameLabel (str "PortDown")

def portDown : Alert := { nodeDown 0 2 with labels := portLabels }

/-- The first alert takes the only place, and the second is about to be refused. -/
def fullRun : List Op :=
  [.deliver (nodeDown 0 2), .deliver portDown, .receive 0] ++ List.replicate 6 (.call 0 1) ++
    [.receive 1, .call 1 1]

theorem group_limit_exact_full :
    let s := fullRun.foldl (next perAlertRoute) init
    Refuses perAlertRoute s (.call 1 1) portDown perAlertRoute ∧
      s.shared.mem.load 0 (groupKey portDown perAlertRoute) = none ∧
      (numGroups perAlertRoute s.shared.mem : ℤ) = 1 := by
  intro s
  have hrun : Run (Guarded (Orderly 2) (Fires (Enabled 2 {nodeLabels, portLabels})
      (next perAlertRoute))) init fullRun s :=
    orderly_run (by decide) (by decide +kernel)
  have hidle : ∀ t, s.maintenance t = .idle := fun _ => rfl
  have hrefuses : Refuses perAlertRoute s (.call 1 1) portDown perAlertRoute :=
    ⟨1, 1, none, [], rfl, rfl, rfl⟩
  have hlimit : ∀ op ∈ fullRun, op.limited 1 := by simp [fullRun, Op.limited]
  have hexact := group_limit_exact newRoute_perAlertConfig one_pos hlimit hrun
  exact ⟨hrefuses, hexact.2 (.call 1 1) _ _ rfl
    ((orderly_iff hidle).mpr (by decide +kernel)) (by decide +kernel) hrefuses⟩

/-- Two calls pass the check before either of them has stored its group. -/
def crowdedRun : List Op :=
  [.deliver (nodeDown 0 2), .deliver portDown, .receive 0, .receive 1, .call 0 1, .call 1 1,
    .call 0 1, .call 1 1, .call 0 1, .call 1 1]

/-- The group of the first version was destroyed by a flush and is still in the map
when the second version comes. -/
def unsweptRun : List Op :=
  [.startTimer, .deliver (nodeDown 10 2), .receive 0] ++ List.replicate 8 (.call 0 1) ++
    [.tick 0, .list 0 20 [fingerprint nodeLabels], .notified 0 true, .delete 0,
      .deliver (nodeDown 0 3), .receive 1, .call 1 1, .call 1 1]

/-- With a limit of one group, two groups are stored, and an alert is refused although
the new group would take the place of the destroyed one. -/
theorem crowdedRun_exceeds_limit :
    let s := crowdedRun.foldl (next perAlertRoute) init
    let t := unsweptRun.foldl (next singleRoute) init
    (Run (Fires (Enabled 2 {nodeLabels, portLabels}) (next perAlertRoute)) init crowdedRun s ∧
      (∀ op ∈ crowdedRun, op.limited 1) ∧ 1 < numGroups perAlertRoute s.shared.mem) ∧
    (Run (Fires (Enabled 2 {nodeLabels}) (next singleRoute)) init unsweptRun t ∧
      (∀ op ∈ unsweptRun, op.limited 1) ∧
      Refuses singleRoute t (.call 1 1) (nodeDown 0 3) singleRoute ∧
      t.shared.mem.load 0 (groupKey (nodeDown 0 3) singleRoute) = some 0) := by
  refine ⟨⟨Run.of_feasible (by decide +kernel), ?_, by decide +kernel⟩,
    Run.of_feasible (by decide +kernel), ?_, ?_, by decide +kernel⟩
  · simp [crowdedRun, Op.limited]
  · simp [unsweptRun, Op.limited]
  · exact ⟨1, 1, some 0, [], rfl, rfl, rfl⟩

end

end Dispatcher

end Alertmanager
