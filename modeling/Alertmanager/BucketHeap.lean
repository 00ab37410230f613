import Alertmanager.Bucket
import Alertmanager.HeapOrder

/-!
# Runs of a limit bucket

What `Upsert` has made of a bucket after any sequence of calls: index and slice agree,
every item knows its position, the slice is in heap order and holds no more items than
the capacity allows. Since the root of a heap has the smallest priority, an eviction takes
an item of smallest priority. The last slot, which `IsStale` reads, need not hold the
largest one.
-/
namespace Alertmanager.Bucket

open HeapInterface

variable {V : Type*} [DecidableEq V] {b : Bucket V} {v : V} {p : ℤ}

/-- The priority of the item at a position of the slice. -/
def priorityAt (b : Bucket V) (k : ℕ) : ℤ := (b.items[k]?.map fun v => (b.item v).priority).getD 0

/-- The slice is in heap order. -/
def HeapOrdered (b : Bucket V) : Prop := Ordered b.items.length b.priorityAt

theorem priority_item (b : Bucket V) (v : V) : (b.item v).priority = (b.priority v).getD 0 := by
  unfold item priority
  cases b.index.lookup v <;> rfl

/-- Positions that hold the same value with the same priority. -/
theorem priorityAt_congr {b' : Bucket V} {k : ℕ} (hitems : b'.items[k]? = b.items[k]?)
    (hprio : ∀ v, b.items[k]? = some v → b'.priority v = b.priority v) :
    b'.priorityAt k = b.priorityAt k := by
  simp only [priorityAt, hitems]
  cases hk : b.items[k]? with
  | none => rfl
  | some v => simp only [Option.map_some, priority_item, hprio v hk]

theorem priority_swap (b : Bucket V) (i j : ℕ) (v : V) :
    (b.swap i j).priority v = b.priority v := by
  unfold swap priority
  split
  · rw [map_priority_setPosition, map_priority_setPosition]
  · rfl

theorem priorityAt_swap {i j : ℕ} (hi : i < b.items.length) (hj : j < b.items.length) :
    (b.swap i j).priorityAt = b.priorityAt ∘ Equiv.swap i j := by
  funext k
  have hitems : (b.swap i j).items[k]? = b.items[Equiv.swap i j k]? := by
    have hvi : b.items[i]? = some b.items[i] := List.getElem?_eq_getElem hi
    have hwj : b.items[j]? = some b.items[j] := List.getElem?_eq_getElem hj
    simp only [swap, hvi, hwj, List.getElem?_set, List.length_set]
    by_cases hkj : j = k
    · subst hkj
      rw [if_pos rfl, if_pos hj, Equiv.swap_apply_right, hvi]
    · by_cases hki : i = k
      · subst hki
        rw [if_neg hkj, if_pos rfl, if_pos hi, Equiv.swap_apply_left, hwj]
      · rw [if_neg hkj, if_neg hki, Equiv.swap_apply_of_ne_of_ne (Ne.symm hki) (Ne.symm hkj)]
  simp only [priorityAt, hitems, Function.comp_apply, priority_item, priority_swap]

theorem length_swap (b : Bucket V) (i j : ℕ) : (b.swap i j).items.length = b.items.length := by
  unfold swap
  split <;> simp

/-- The heap of a bucket is keyed by the priorities. -/
theorem keyed (n : ℕ) :
    (heap : HeapInterface (Bucket V)).Keyed n (fun b => b.items.length = n) priorityAt where
  keeps b i j _ _ hb := (length_swap b i j).trans hb
  less_iff b hb i j hi hj := by
    have hvi : b.items[i]? = some b.items[i] := List.getElem?_eq_getElem (by omega)
    have hwj : b.items[j]? = some b.items[j] := List.getElem?_eq_getElem (by omega)
    simp only [heap, less, hvi, hwj, decide_eq_true_eq, priorityAt, Option.map_some,
      Option.getD_some]
  key_swap b hb i j hi hj := priorityAt_swap (by omega) (by omega)

theorem priorityAt_withPriority (hb : b.Consistent) {k : ℕ} (hk : b.items[k]? = some v) (p : ℤ)
    (i : ℕ) : (b.withPriority v p).priorityAt i = if i = k then p else b.priorityAt i := by
  have hv : v ∈ b.index := (hb.mem_items v).mp (List.mem_of_getElem? hk)
  split_ifs with hi
  · have hitem := priority_item (b.withPriority v p) v
    rw [priority_withPriority hv, if_pos rfl] at hitem
    have hitems : (b.withPriority v p).items[k]? = some v := hk
    simp [priorityAt, hi, hitems, hitem]
  · refine priorityAt_congr rfl fun w hw => ?_
    have hwv : w ≠ v := by
      rintro rfl
      exact hi ((List.getElem?_inj (List.getElem?_eq_some_iff.mp hw).1 hb.nodup).mp
        (hw.trans hk.symm))
    rw [priority_withPriority hv, if_neg hwv]

/-- A bucket with a new item at the end of the slice, before it is moved up. -/
def pushed (b : Bucket V) (v : V) (p : ℤ) : Bucket V :=
  ({ b with index := b.index.insert v ⟨p, 0⟩ } : Bucket V).push v

theorem length_pushed (b : Bucket V) (v : V) (p : ℤ) :
    (b.pushed v p).items.length = b.items.length + 1 := by simp [pushed, push]

theorem add_eq_up (b : Bucket V) (v : V) (p : ℤ) :
    b.add v p = heap.up (b.pushed v p) b.items.length := by
  change heap.up (b.pushed v p) ((b.pushed v p).items.length - 1) = _
  rw [length_pushed, Nat.add_sub_cancel]

theorem priorityAt_pushed (hb : b.Consistent) (hv : v ∉ b.index) (p : ℤ) {i : ℕ}
    (hi : i ≤ b.items.length) :
    (b.pushed v p).priorityAt i = if i = b.items.length then p else b.priorityAt i := by
  have hitems : (b.pushed v p).items = b.items ++ [v] := rfl
  split_ifs with hlast
  · have hprio : (b.pushed v p).priority v = some p := by
      rw [priority, pushed, lookup_push_insert, if_pos rfl]
      rfl
    simp [priorityAt, hitems, hlast, priority_item, hprio]
  · refine priorityAt_congr (by rw [hitems, List.getElem?_append_left (by omega)]) fun w hw => ?_
    have hwv : w ≠ v := fun heq => hv ((hb.mem_items v).mp (heq ▸ List.mem_of_getElem? hw))
    rw [priority, pushed, lookup_push_insert, if_neg hwv, priority]

/-! ### The heap order -/

theorem heapOrdered_update (hb : b.Consistent) (ho : b.HeapOrdered) (hv : v ∈ b.index) (p : ℤ) :
    (b.update v p).HeapOrdered := by
  obtain ⟨k, hk⟩ := List.getElem?_of_mem ((hb.mem_items v).mpr hv)
  have hb₁ := withPriority_consistent hb hv p
  have hold : ∀ i, i ≠ k → (b.withPriority v p).priorityAt i = b.priorityAt i := fun i hi => by
    rw [priorityAt_withPriority hb hk, if_neg hi]
  have hfix : FixOrder b.items.length (b.withPriority v p).priorityAt k := by
    refine ⟨fun c hpos hc hck hpk => ?_, fun hkpos c hpos hc hck => ?_⟩
    · rw [hold c hck, hold _ hpk]
      exact ho c hpos hc
    · have hlt := parent_lt hpos
      rw [hold c (by omega), hold _ (parent_lt hkpos).ne]
      have hkl : k < b.items.length := (List.getElem?_eq_some_iff.mp hk).1
      have hchild := ho c hpos hc
      rw [hck] at hchild
      exact (ho k hkpos hkl).trans hchild
  have hordered := (keyed (V := V) _).fix (h := b.withPriority v p) rfl
    (List.getElem?_eq_some_iff.mp hk).1 rfl hfix
  rw [HeapOrdered, (update_spec hb hv p).2.1, update_eq_fix hb hk]
  exact hordered

theorem heapOrdered_add (hb : b.Consistent) (ho : b.HeapOrdered) (hv : v ∉ b.index) (p : ℤ) :
    (b.add v p).HeapOrdered := by
  have hb₁ : (b.pushed v p).Consistent := push_consistent hb hv p
  have hlength := length_pushed b v p
  have hold : ∀ k < b.items.length, (b.pushed v p).priorityAt k = b.priorityAt k := by
    intro k hk
    rw [priorityAt_pushed hb hv p hk.le, if_neg hk.ne]
  have hup : UpOrder (b.pushed v p).items.length (b.pushed v p).priorityAt b.items.length := by
    refine ⟨fun c hpos hc hlast => ?_, fun _ c hpos hc hparent => ?_⟩
    · have hcl : c < b.items.length := by omega
      rw [hold c hcl, hold (parent c) ((parent_lt hpos).trans hcl)]
      exact ho c hpos hcl
    · have := parent_lt hpos
      omega
  have hordered := (keyed _).up (by omega) rfl hup
  rw [HeapOrdered, (add_spec hb hv p).2.1, ← hlength, add_eq_up]
  exact hordered

theorem heapOrdered_heapPop (hb : b.Consistent) (ho : b.HeapOrdered) {r : V}
    (hr : b.items.head? = some r) :
    ({ b.heapPop with index := b.heapPop.index.erase r } : Bucket V).HeapOrdered := by
  obtain ⟨hkeep, hlast⟩ := down_swap_spec hb hr
  obtain ⟨-, hlength, -, hprio⟩ := heapPop_spec hb hr
  obtain ⟨n, hn⟩ : ∃ n, b.items.length = n + 1 :=
    Nat.exists_eq_add_one.mpr (List.length_pos_of_mem (List.mem_of_mem_head? hr))
  have hsub : b.items.length - 1 = n := by omega
  simp only [hsub] at hkeep hlast
  have hdown : DownOrder n (b.swap 0 n).priorityAt 0 := by
    rw [priorityAt_swap (by omega) (by omega)]
    refine ⟨fun c hpos hc hparent => ?_, fun h => absurd h (lt_irrefl 0)⟩
    have hlt := parent_lt hpos
    simp only [Function.comp_apply, Equiv.swap_apply_of_ne_of_ne hpos.ne' hc.ne,
      Equiv.swap_apply_of_ne_of_ne hparent (hlt.trans hc).ne]
    exact ho c hpos (by omega)
  have hordered : Ordered n (heap.down (b.swap 0 n) 0 n).1.priorityAt := by
    rcases Nat.eq_zero_or_pos n with hzero | hpos
    · intro c hc0 hc
      omega
    · exact ((keyed b.items.length).mono (by omega)).down hpos (length_swap b 0 n) hdown
  rw [HeapOrdered, Nat.eq_sub_of_add_eq hlength, hsub]
  refine hordered.congr fun k hk => ?_
  have hsplit := List.dropLast_append_getLast? r hlast
  have hnodup := (hkeep.consistent hb.nodup hb.mem_items).nodup
  have hcut : (heap.down (b.swap 0 n) 0 n).1.items.dropLast.length = n := by
    rw [List.length_dropLast, hkeep.perm.length_eq, hsub]
  refine priorityAt_congr ?_ fun w hw => ?_
  · change b.heapPop.items[k]? = _
    have hitems : b.heapPop.items = (heap.down (b.swap 0 n) 0 n).1.items.dropLast := by
      simp only [heapPop, hsub, pop, hlast]
    rw [hitems]
    conv_rhs => rw [← hsplit]
    rw [List.getElem?_append_left (by omega)]
  · have hwr : w ≠ r := by
      rintro rfl
      rw [List.getLast?_eq_getElem?] at hlast
      have heq := (List.getElem?_inj (List.getElem?_eq_some_iff.mp hw).1 hnodup).mp
        (hw.trans hlast.symm)
      rw [hkeep.perm.length_eq] at heq
      omega
    rw [hprio w, if_neg hwr, hkeep.priority_eq]

theorem heapOrdered_upsert (hb : b.Consistent) (ho : b.HeapOrdered) (now : ℤ) (v : V) (p : ℤ) :
    (b.upsert now v p).2.HeapOrdered := by
  unfold upsert
  split_ifs with hcap hv hroom
  · exact ho
  · exact heapOrdered_update hb ho hv p
  · exact heapOrdered_add hb ho hv p
  · cases hr : b.items.head? with
    | none => exact ho
    | some r =>
      simp only
      split_ifs with hexp
      · exact heapOrdered_add (heapPop_spec hb hr).1 (heapOrdered_heapPop hb ho hr)
          (not_mem_heapPop hb hr hv) p
      · exact ho

/-! ### Runs -/

/-- The value is present with the smallest priority of all. -/
def Oldest (b : Bucket V) (r : V) (q : ℤ) : Prop :=
  b.priority r = some q ∧ ∀ w q', b.priority w = some q' → q ≤ q'

/-- The items of a bucket of capacity `c` are kept twice, and both agree. -/
structure Sound (c : ℕ) (b : Bucket V) : Prop where
  consistent : b.Consistent
  ordered : b.HeapOrdered
  bounded : b.items.length ≤ c
  capacity : b.capacity = c

/-- A value that `Upsert` accepts is present with its priority. The other items are
unchanged, but that a full bucket gives up one of smallest priority for a new value. -/
structure Accepted (c : ℕ) (b : Bucket V) (v : V) (p : ℤ) (b' : Bucket V) : Prop where
  stored : b'.priority v = some p
  others : ¬ (v ∉ b.index ∧ b.items.length = c) → ∀ w, w ≠ v → b'.priority w = b.priority w
  evicted : v ∉ b.index ∧ b.items.length = c → ∃ r q, b.Oldest r q ∧
    ∀ w, w ≠ v → b'.priority w = if w = r then none else b.priority w

theorem exists_priority (hb : b.Consistent) {k : ℕ} (hk : b.items[k]? = some v) :
    b.priority v = some (b.priorityAt k) := by
  have hv : v ∈ b.index := (hb.mem_items v).mp (List.mem_of_getElem? hk)
  obtain ⟨q, hq⟩ := Option.isSome_iff_exists.mp (mem_index_iff.mp hv)
  rw [hq, priorityAt, hk, Option.map_some, priority_item, hq]
  rfl

theorem exists_position (hb : b.Consistent) {q : ℤ} (hq : b.priority v = some q) :
    ∃ k, k < b.items.length ∧ b.items[k]? = some v ∧ b.priorityAt k = q := by
  have hv : v ∈ b.index := mem_index_iff.mpr (by rw [hq]; rfl)
  obtain ⟨k, hk⟩ := List.getElem?_of_mem ((hb.mem_items v).mpr hv)
  have hprio := exists_priority hb hk
  rw [hq] at hprio
  exact ⟨k, (List.getElem?_eq_some_iff.mp hk).1, hk, (Option.some.inj hprio).symm⟩

/-- The root of the heap is a value of smallest priority. -/
theorem oldest_head (hb : b.Consistent) (ho : b.HeapOrdered) {r : V}
    (hr : b.items.head? = some r) : b.Oldest r (b.item r).priority := by
  rw [List.head?_eq_getElem?] at hr
  have hroot := exists_priority hb hr
  refine ⟨by rw [hroot, priority_item, hroot, Option.getD_some], fun w q' hw => ?_⟩
  obtain ⟨k, hk, -, rfl⟩ := exists_position hb hw
  rw [priority_item, hroot, Option.getD_some]
  exact ho.root_le hk

variable {c : ℕ} {now : ℤ}

theorem sound_new (c : ℕ) : (new c : Bucket V).Sound c :=
  ⟨new_consistent c, fun k _ hk => absurd hk (Nat.not_lt_zero k), Nat.zero_le c, rfl⟩

theorem upsert_of_capacity (h : b.capacity < 1) : b.upsert now v p = (false, b) := by
  rw [upsert, if_pos h]

theorem sound_upsert (h : b.Sound c) (now : ℤ) (v : V) (p : ℤ) : (b.upsert now v p).2.Sound c := by
  by_cases hcap : b.capacity < 1
  · rw [upsert_of_capacity hcap]
    exact h
  · obtain ⟨hconsistent, hcapacity, hupserted⟩ := upsert_spec h.consistent now v p (by omega)
    refine ⟨hconsistent, heapOrdered_upsert h.consistent h.ordered now v p, ?_,
      hcapacity.trans h.capacity⟩
    have hbounded := h.bounded
    have hc := h.capacity
    generalize b.upsert now v p = r at hupserted ⊢
    cases hupserted with
    | updated hv hlen hprio => exact hlen.trans_le hbounded
    | added hv hroom hlen hprio =>
      simp only [hlen]
      omega
    | evicted hv hr hq hexp hlen hprio => exact hlen.trans_le hbounded
    | refused hv => exact hbounded

/-- `Upsert` refuses a value only if the bucket has no capacity, or is full of items that
have not expired. -/
theorem upsert_eq_false_iff (h : b.Sound c) (now : ℤ) (v : V) (p : ℤ) :
    (b.upsert now v p).1 = false ↔ c < 1 ∨ v ∉ b.index ∧ b.items.length = c ∧
      ∃ r q, b.Oldest r q ∧ ¬ q < now := by
  have hbounded := h.bounded
  have hc := h.capacity
  by_cases hcap : b.capacity < 1
  · rw [upsert_of_capacity hcap]
    exact iff_of_true rfl (Or.inl (by omega))
  · have hpos : ¬ c < 1 := by omega
    unfold upsert
    rw [if_neg hcap]
    simp only [hpos, false_or]
    split_ifs with hv hroom
    · simp [hv]
    · have hlen : b.items.length ≠ c := by omega
      simp [hlen]
    · have hlen : b.items.length = c := by omega
      obtain ⟨r, hr⟩ : ∃ r, b.items.head? = some r := by
        rw [← Option.isSome_iff_exists, List.isSome_head?, ← List.length_pos_iff]
        omega
      have holdest := oldest_head h.consistent h.ordered hr
      have hexpired : (b.item r).expired now = true ↔ (b.item r).priority < now := by
        simp [Item.expired]
      have hunique : (∃ r q, b.Oldest r q ∧ ¬ q < now) ↔ ¬ (b.item r).priority < now := by
        constructor
        · rintro ⟨r', q, hq, hnot⟩
          rwa [le_antisymm (holdest.2 _ _ hq.1) (hq.2 _ _ holdest.1)]
        · exact fun hnot => ⟨r, _, holdest, hnot⟩
      rw [hr, hunique, ← hexpired]
      simp only
      split_ifs with hexp <;> simp [hv, hlen, hexp]

theorem accepted_upsert (h : b.Sound c) (haccepts : (b.upsert now v p).1 = true) :
    Accepted c b v p (b.upsert now v p).2 := by
  have hbounded := h.bounded
  have hc := h.capacity
  have hcap : ¬ b.capacity < 1 := by
    intro hcap
    rw [upsert_of_capacity hcap] at haccepts
    cases haccepts
  by_cases hroom : v ∉ b.index ∧ (b.items.length : ℤ) < b.capacity
  · have hadd : b.upsert now v p = (true, b.add v p) := by
      rw [upsert, if_neg hcap, if_neg hroom.1, if_pos hroom.2]
    obtain ⟨-, -, -, hprio⟩ := add_spec h.consistent hroom.1 p
    rw [hadd]
    exact ⟨by rw [hprio, if_pos rfl], fun _ w hw => by rw [hprio, if_neg hw],
      fun hfull => absurd hfull.2 (by omega)⟩
  · obtain ⟨-, -, hupserted⟩ := upsert_spec h.consistent now v p (not_lt.mp hcap)
    generalize b.upsert now v p = result at haccepts hupserted ⊢
    cases hupserted with
    | updated hv hlen hprio =>
      exact ⟨by rw [hprio, if_pos rfl], fun _ w hw => by rw [hprio, if_neg hw],
        fun hfull => absurd hv hfull.1⟩
    | added hv hless hlen hprio => exact absurd ⟨hv, hless⟩ hroom
    | evicted hv hr hq hexp hlen hprio =>
      have hfull : b.items.length = c := by
        have := not_and.mp hroom hv
        omega
      refine ⟨by rw [hprio, if_pos rfl], fun hnot => absurd ⟨hv, hfull⟩ hnot, fun _ => ?_⟩
      exact ⟨_, _, oldest_head h.consistent h.ordered hr,
        fun w hw => by rw [hprio, if_neg hw]⟩
    | refused hv => cases haccepts

/-- One call of `Upsert`: the clock, the value and its priority. -/
structure Call (V : Type*) where
  now : ℤ
  value : V
  priority : ℤ

/-- The bucket after a call. -/
def next (b : Bucket V) (call : Call V) : Bucket V :=
  (b.upsert call.now call.value call.priority).2

/-- The bucket after a sequence of calls. -/
def run (c : ℕ) (calls : List (Call V)) : Bucket V := calls.foldl next (new c)

theorem sound_run (c : ℕ) (calls : List (Call V)) : (run c calls).Sound c := by
  induction calls using List.reverseRecOn with
  | nil => exact sound_new c
  | append_singleton calls call ih =>
    rw [run, List.foldl_append]
    exact sound_upsert ih call.now call.value call.priority

/-- The bucket is a bounded priority cache. After any sequence of calls the index and the
heap agree, and the next call is refused exactly if there is no capacity or no room that
could be made, which changes nothing; else the value is stored, and at most an item of
smallest priority has to make room for it. -/
theorem upsert_faithful (c : ℕ) (calls : List (Call V)) :
    (run c calls).Sound c ∧ ∀ now v p,
      (((run c calls).upsert now v p).1 = false ↔ c < 1 ∨
        v ∉ (run c calls).index ∧ (run c calls).items.length = c ∧
          ∃ r q, (run c calls).Oldest r q ∧ ¬ q < now) ∧
      (((run c calls).upsert now v p).1 = false →
        ((run c calls).upsert now v p).2 = run c calls) ∧
      (((run c calls).upsert now v p).1 = true →
        Accepted c (run c calls) v p ((run c calls).upsert now v p).2) := by
  have hsound := sound_run c calls
  refine ⟨hsound, fun now v p => ⟨upsert_eq_false_iff hsound now v p, fun hrefused => ?_,
    fun haccepts => accepted_upsert hsound haccepts⟩⟩
  by_cases hcap : (run c calls).capacity < 1
  · rw [upsert_of_capacity hcap]
  · obtain ⟨-, -, hupserted⟩ := upsert_spec hsound.consistent now v p (not_lt.mp hcap)
    generalize (run c calls).upsert now v p = result at hrefused hupserted ⊢
    cases hupserted with
    | refused hv => rfl
    | updated hv hlen hprio => cases hrefused
    | added hv hroom hlen hprio => cases hrefused
    | evicted hv hr hq hexp hlen hprio => cases hrefused

/-! ### Stale buckets -/

/-- `IsStale` tells at every time whether all items have expired. -/
def Exact (b : Bucket V) : Prop :=
  ∀ now, b.isStale now = true ↔ ∀ v q, b.priority v = some q → q < now

/-- The heap keeps an item of the largest priority in the last slot. -/
def LatestLast (b : Bucket V) : Prop :=
  ∀ k < b.items.length, b.priorityAt k ≤ b.priorityAt (b.items.length - 1)

theorem forall_priority_iff (hb : b.Consistent) {P : ℤ → Prop} :
    (∀ v q, b.priority v = some q → P q) ↔ ∀ k < b.items.length, P (b.priorityAt k) := by
  constructor
  · intro h k hk
    exact h _ _ (exists_priority hb (List.getElem?_eq_getElem hk))
  · intro h v q hq
    obtain ⟨k, hk, -, rfl⟩ := exists_position hb hq
    exact h k hk

theorem isStale_iff (hb : b.Consistent) (hne : b.items ≠ []) (now : ℤ) :
    b.isStale now = true ↔ b.priorityAt (b.items.length - 1) < now := by
  have hlast := List.getElem?_eq_getElem (Nat.sub_one_lt (mt List.length_eq_zero_iff.mp hne))
  have hprio := exists_priority hb hlast
  simp [isStale, List.getLast?_eq_getElem?, hlast, Item.expired, priority_item, hprio]

theorem exact_iff (hb : b.Consistent) : b.Exact ↔ b.LatestLast := by
  unfold Exact
  simp only [forall_priority_iff hb (P := (· < _))]
  by_cases hne : b.items = []
  · refine iff_of_true (fun now => iff_of_true ?_ fun k hk => ?_) fun k hk => ?_
    · simp [isStale, hne]
    · simp [hne] at hk
    · simp [hne] at hk
  · have hlen := List.length_pos_iff.mpr hne
    simp only [isStale_iff hb hne]
    constructor
    · intro h k hk
      have := (h (b.priorityAt (b.items.length - 1) + 1)).mp (by omega) k hk
      omega
    · intro h now
      exact ⟨fun hnow k hk => (h k hk).trans_lt hnow, fun hall => hall _ (by omega)⟩

theorem latestLast_of_le_two (ho : b.HeapOrdered) (hlen : b.items.length ≤ 2) : b.LatestLast := by
  intro k hk
  rcases Nat.lt_or_ge k (b.items.length - 1) with hlt | hge
  · obtain rfl : k = 0 := by omega
    exact ho.root_le (by omega)
  · rw [show k = b.items.length - 1 by omega]

/-- `IsStale` is right about a bucket at every time exactly if the heap keeps an item of the
largest priority in the last slot, which it does with at most two items. -/
theorem isStale_exact_iff (c : ℕ) (calls : List (Call V)) :
    ((run c calls).Exact ↔ (run c calls).LatestLast) ∧
      ((run c calls).items.length ≤ 2 → (run c calls).LatestLast) :=
  have hsound := sound_run c calls
  ⟨exact_iff hsound.consistent, latestLast_of_le_two hsound.ordered⟩

/-- Three items, of which the second expires last. -/
def lateSecond : List (Call ℕ) := [⟨1, 1, 10⟩, ⟨2, 2, 30⟩, ⟨3, 3, 20⟩]

theorem unexpired_bucket_stale :
    (run 3 lateSecond).isStale 25 = true ∧ (run 3 lateSecond).priority 2 = some 30 := by
  decide +kernel

end Alertmanager.Bucket
