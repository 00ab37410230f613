import Alertmanager.GoMap
import Alertmanager.SliceHeap

/-!
# The limit bucket

`limit/bucket.go`. An item is reached by its value: the index map holds the item
objects, and the heap slice holds their pointers, each written as the value it
points to. `Swap` and `Push` write the position of an item into the item itself,
where `update` reads it back.
-/
namespace Alertmanager

structure Item where
  priority : ℤ
  index : ℤ
  deriving DecidableEq, Repr

/-- `item.expired`. -/
def Item.expired (it : Item) (at_ : ℤ) : Bool := decide (it.priority < at_)

structure Bucket (V : Type*) where
  index : GoMap V Item
  items : List V
  capacity : ℤ

namespace Bucket
variable {V : Type*} [DecidableEq V]

/-- `NewBucket`. -/
def new (capacity : ℤ) : Bucket V := ⟨∅, [], capacity⟩

/-- The item a pointer of the slice points to. -/
def item (b : Bucket V) (v : V) : Item := (b.index.lookup v).getD ⟨0, -1⟩

/-- `sortedItems.Less`. -/
def less (b : Bucket V) (i j : ℕ) : Bool :=
  match b.items[i]?, b.items[j]? with
  | some v, some w => decide ((b.item v).priority < (b.item w).priority)
  | _, _ => false

/-- `item.index = k`. -/
def setPosition (m : GoMap V Item) (v : V) (k : ℤ) : GoMap V Item :=
  match m.lookup v with
  | some it => m.insert v { it with index := k }
  | none => m

/-- `sortedItems.Swap`. -/
def swap (b : Bucket V) (i j : ℕ) : Bucket V :=
  match b.items[i]?, b.items[j]? with
  | some v, some w =>
    { b with
      items := (b.items.set i w).set j v
      index := setPosition (setPosition b.index w i) v j }
  | _, _ => b

def heap : HeapInterface (Bucket V) := ⟨fun b => b.items.length, less, swap⟩

/-- `sortedItems.Push` of an item already in the index. -/
def push (b : Bucket V) (v : V) : Bucket V :=
  { b with index := setPosition b.index v b.items.length, items := b.items ++ [v] }

/-- `sortedItems.Pop`: the last pointer is cut off and its item marked. -/
def pop (b : Bucket V) : Bucket V :=
  match b.items.getLast? with
  | some v => { b with index := setPosition b.index v (-1), items := b.items.dropLast }
  | none => b

/-- `heap.Push`. -/
def heapPush (b : Bucket V) (v : V) : Bucket V :=
  let b := b.push v
  heap.up b (b.items.length - 1)

/-- `heap.Pop`, without the returned item, which its caller drops. -/
def heapPop (b : Bucket V) : Bucket V :=
  let n := b.items.length - 1
  (heap.down (b.swap 0 n) 0 n).1.pop

/-- `sortedItems.update`. -/
def update (b : Bucket V) (v : V) (priority : ℤ) : Bucket V :=
  let b := { b with index := b.index.insert v { b.item v with priority := priority } }
  heap.fix b (b.item v).index.toNat

/-- Put a new item into the index and the heap. -/
def add (b : Bucket V) (v : V) (priority : ℤ) : Bucket V :=
  { b with index := b.index.insert v ⟨priority, 0⟩ }.heapPush v

/-- `Bucket.IsStale`: the test reads the last slot of the heap slice. -/
def isStale (b : Bucket V) (now : ℤ) : Bool :=
  match b.items.getLast? with
  | none => true
  | some latest => (b.item latest).expired now

/-- `Bucket.Upsert`: whether the value was accepted, and the bucket after it. -/
def upsert (b : Bucket V) (now : ℤ) (v : V) (priority : ℤ) : Bool × Bucket V :=
  if b.capacity < 1 then (false, b)
  else if v ∈ b.index then (true, b.update v priority)
  else if (b.items.length : ℤ) < b.capacity then (true, b.add v priority)
  else
    match b.items.head? with
    | none => (false, b)
    | some oldest =>
      if (b.item oldest).expired now then
        let b := b.heapPop
        (true, { b with index := b.index.erase oldest }.add v priority)
      else (false, b)

/-! ### Contents of a bucket -/

/-- The priority under which a value is present. -/
def priority (b : Bucket V) (v : V) : Option ℤ := (b.index.lookup v).map Item.priority

/-- The slice and the index hold the same values, each once, and every item
knows its position in the slice. -/
structure Consistent (b : Bucket V) : Prop where
  nodup : b.items.Nodup
  mem_items : ∀ v, v ∈ b.items ↔ v ∈ b.index
  position : ∀ (k : ℕ) v, b.items[k]? = some v → (b.index.lookup v).map Item.index = some (k : ℤ)

theorem lookup_setPosition (m : GoMap V Item) (v w : V) (k : ℤ) :
    (setPosition m v k).lookup w =
      if w = v then (m.lookup v).map (fun it => { it with index := k }) else m.lookup w := by
  unfold setPosition
  cases h : m.lookup v with
  | none =>
    by_cases hw : w = v
    · subst hw
      simp [h]
    · simp [hw]
  | some it => rw [GoMap.lookup_insert_eq]; rfl

theorem map_priority_setPosition (m : GoMap V Item) (v w : V) (k : ℤ) :
    ((setPosition m v k).lookup w).map Item.priority = (m.lookup w).map Item.priority := by
  rw [lookup_setPosition]
  split_ifs with h
  · subst h
    cases m.lookup w <;> rfl
  · rfl

/-- What the heap loops keep of a bucket: its contents, up to the order of the
slice, and the positions written into the items. -/
structure Keeps (b₀ b : Bucket V) : Prop where
  perm : b.items.Perm b₀.items
  priority_eq : ∀ v, b.priority v = b₀.priority v
  capacity_eq : b.capacity = b₀.capacity
  position : ∀ (k : ℕ) v, b.items[k]? = some v →
    (b.index.lookup v).map Item.index = some (k : ℤ)

theorem Consistent.keeps {b : Bucket V} (hb : b.Consistent) : Keeps b b :=
  ⟨List.Perm.refl _, fun _ => rfl, rfl, hb.position⟩

theorem mem_index_iff {b : Bucket V} {v : V} : v ∈ b.index ↔ (b.priority v).isSome = true := by
  rw [Finmap.mem_iff, priority, Option.isSome_map, Option.isSome_iff_exists]

theorem Keeps.consistent {b₀ b : Bucket V} (h : Keeps b₀ b) (hnodup : b₀.items.Nodup)
    (hmem : ∀ v, v ∈ b₀.items ↔ v ∈ b₀.index) : b.Consistent where
  nodup := h.perm.nodup_iff.mpr hnodup
  mem_items v := by
    rw [h.perm.mem_iff, hmem v, mem_index_iff, mem_index_iff, h.priority_eq v]
  position := h.position

theorem swap_keeps {b₀ : Bucket V} (hnodup : b₀.items.Nodup) :
    heap.SwapInvariant b₀.items.length (Keeps b₀) := by
  intro b i j hi hj h
  have hlen : b.items.length = b₀.items.length := h.perm.length_eq
  have hnd : b.items.Nodup := h.perm.nodup_iff.mpr hnodup
  have hvi : b.items[i]? = some b.items[i] := List.getElem?_eq_getElem (by omega)
  have hwj : b.items[j]? = some b.items[j] := List.getElem?_eq_getElem (by omega)
  have hswap : b.swap i j =
      { b with
        items := (b.items.set i b.items[j]).set j b.items[i]
        index := setPosition (setPosition b.index b.items[j] i) b.items[i] j } := by
    simp only [swap, hvi, hwj]
  change Keeps b₀ (b.swap i j)
  rw [hswap]
  refine ⟨?_, ?_, h.capacity_eq, ?_⟩
  · exact (List.set_set_perm (by omega) (by omega)).trans h.perm
  · intro v
    change ((setPosition _ _ _).lookup v).map Item.priority = _
    rw [map_priority_setPosition, map_priority_setPosition]
    exact h.priority_eq v
  · intro k u hk
    have hkl : k < b.items.length := by
      have hlt := (List.getElem?_eq_some_iff.mp hk).1
      simpa using hlt
    simp only [List.getElem?_set, List.length_set] at hk
    rw [lookup_setPosition, lookup_setPosition, lookup_setPosition]
    by_cases hkj : j = k
    · subst hkj
      rw [if_pos rfl, if_pos hkl] at hk
      obtain rfl := Option.some.inj hk
      have hpos := h.position i _ hvi
      have hposj := h.position j _ hwj
      by_cases hij : b.items[i] = b.items[j]
      · rw [if_pos rfl, if_pos hij]
        cases hl : b.index.lookup b.items[j] <;> simp_all
      · rw [if_pos rfl, if_neg hij]
        cases hl : b.index.lookup b.items[i] <;> simp_all
    · rw [if_neg hkj] at hk
      by_cases hki : i = k
      · subst hki
        rw [if_pos rfl, if_pos hkl] at hk
        obtain rfl := Option.some.inj hk
        have hne : b.items[j] ≠ b.items[i] := fun he =>
          hkj ((List.Nodup.getElem_inj_iff hnd).mp he)
        have hpos := h.position j _ hwj
        rw [if_neg hne, if_pos rfl]
        cases hl : b.index.lookup b.items[j] <;> simp_all
      · rw [if_neg hki] at hk
        obtain ⟨hk', rfl⟩ := List.getElem?_eq_some_iff.mp hk
        have hni : b.items[k] ≠ b.items[i] := fun he =>
          hki ((List.Nodup.getElem_inj_iff hnd).mp he).symm
        have hnj : b.items[k] ≠ b.items[j] := fun he =>
          hkj ((List.Nodup.getElem_inj_iff hnd).mp he).symm
        rw [if_neg hni, if_neg hnj]
        exact h.position k _ hk

/-- The bucket with a new priority of a value, before `update` restores the order. -/
def withPriority (b : Bucket V) (v : V) (p : ℤ) : Bucket V :=
  { b with index := b.index.insert v { b.item v with priority := p } }

theorem lookup_withPriority {b : Bucket V} {v : V} {it : Item} (hit : b.index.lookup v = some it)
    (p : ℤ) (w : V) : (b.withPriority v p).index.lookup w =
      if w = v then some { it with priority := p } else b.index.lookup w := by
  have hitem : b.item v = it := by simp [item, hit]
  rw [withPriority, hitem]
  exact GoMap.lookup_insert_eq _ _ _ _

theorem priority_withPriority {b : Bucket V} {v : V} (hv : v ∈ b.index) (p : ℤ) (w : V) :
    (b.withPriority v p).priority w = if w = v then some p else b.priority w := by
  obtain ⟨it, hit⟩ := Finmap.mem_iff.mp hv
  rw [priority, lookup_withPriority hit]
  split_ifs <;> rfl

theorem withPriority_consistent {b : Bucket V} (hb : b.Consistent) {v : V} (hv : v ∈ b.index)
    (p : ℤ) : (b.withPriority v p).Consistent := by
  obtain ⟨it, hit⟩ := Finmap.mem_iff.mp hv
  refine ⟨hb.nodup, fun w => ?_, fun j w hj => ?_⟩
  · change w ∈ b.items ↔ _
    rw [mem_index_iff, priority_withPriority hv, hb.mem_items w, mem_index_iff]
    split_ifs with hw
    · rw [hw, ← mem_index_iff]
      exact iff_of_true hv rfl
    · rfl
  · rw [lookup_withPriority hit]
    split_ifs with hw
    · subst hw
      simpa [hit] using hb.position j w hj
    · exact hb.position j w hj

/-- `update` reads the position of the item from the item itself. -/
theorem update_eq_fix {b : Bucket V} (hb : b.Consistent) {v : V} {k : ℕ}
    (hk : b.items[k]? = some v) (p : ℤ) : b.update v p = heap.fix (b.withPriority v p) k := by
  have hv : v ∈ b.index := (hb.mem_items v).mp (List.mem_of_getElem? hk)
  obtain ⟨it, hit⟩ := Finmap.mem_iff.mp hv
  have hpos : it.index = k := by simpa [hit] using hb.position k v hk
  have hidx : ((b.withPriority v p).item v).index.toNat = k := by
    simp only [item, lookup_withPriority hit, if_true, Option.getD_some, hpos, Int.toNat_natCast]
  change heap.fix (b.withPriority v p) ((b.withPriority v p).item v).index.toNat = _
  rw [hidx]

/-- The contents after `update`: the new priority, everything else as before. -/
theorem update_spec {b : Bucket V} (hb : b.Consistent) {v : V} (hv : v ∈ b.index) (p : ℤ) :
    (b.update v p).Consistent ∧ (b.update v p).items.length = b.items.length ∧
    (b.update v p).capacity = b.capacity ∧
    ∀ w, (b.update v p).priority w = if w = v then some p else b.priority w := by
  obtain ⟨k, hk⟩ := List.getElem?_of_mem ((hb.mem_items v).mpr hv)
  have hb₁ := withPriority_consistent hb hv p
  have hkeep : Keeps (b.withPriority v p) (b.update v p) := by
    rw [update_eq_fix hb hk]
    exact (swap_keeps hb₁.nodup).fix (List.getElem?_eq_some_iff.mp hk).1 le_rfl hb₁.keeps
  refine ⟨hkeep.consistent hb₁.nodup hb₁.mem_items, hkeep.perm.length_eq, hkeep.capacity_eq, ?_⟩
  intro w
  rw [hkeep.priority_eq w, priority_withPriority hv]

/-- The index after `Push` of a value whose item has just been made. -/
theorem lookup_push_insert (b : Bucket V) (v w : V) (p : ℤ) :
    (({ b with index := b.index.insert v ⟨p, 0⟩ } : Bucket V).push v).index.lookup w =
      if w = v then some ⟨p, b.items.length⟩ else b.index.lookup w := by
  simp only [push, lookup_setPosition, GoMap.lookup_insert_eq, if_true]
  split_ifs <;> rfl

theorem push_consistent {b : Bucket V} (hb : b.Consistent) {v : V} (hv : v ∉ b.index) (p : ℤ) :
    (({ b with index := b.index.insert v ⟨p, 0⟩ } : Bucket V).push v).Consistent := by
  have hvi : v ∉ b.items := fun h => hv ((hb.mem_items v).mp h)
  refine ⟨?_, fun w => ?_, fun k w hk => ?_⟩
  · exact List.nodup_append.mpr ⟨hb.nodup, List.nodup_singleton v, by
      intro x hx y hy
      rw [List.mem_singleton] at hy
      subst hy
      exact fun he => hvi (he ▸ hx)⟩
  · change w ∈ b.items ++ [v] ↔ _
    rw [Finmap.mem_iff, lookup_push_insert, List.mem_append, List.mem_singleton, hb.mem_items w,
      Finmap.mem_iff]
    by_cases hw : w = v
    · simp [hw]
    · simp [hw]
  · change (b.items ++ [v])[k]? = some w at hk
    rw [lookup_push_insert]
    by_cases hkl : k < b.items.length
    · rw [List.getElem?_append_left hkl] at hk
      have hwv : w ≠ v := fun he => hvi (he ▸ List.mem_of_getElem? hk)
      rw [if_neg hwv]
      exact hb.position k w hk
    · rw [List.getElem?_append_right (by omega)] at hk
      obtain ⟨hk', hw⟩ := List.getElem?_eq_some_iff.mp hk
      simp only [List.length_singleton, Nat.lt_one_iff] at hk'
      have hkn : k = b.items.length := by omega
      simp only [List.getElem_singleton] at hw
      rw [if_pos hw.symm, hkn]
      rfl

/-- The contents after `add` of a value that is not present. -/
theorem add_spec {b : Bucket V} (hb : b.Consistent) {v : V} (hv : v ∉ b.index) (p : ℤ) :
    (b.add v p).Consistent ∧ (b.add v p).items.length = b.items.length + 1 ∧
    (b.add v p).capacity = b.capacity ∧
    ∀ w, (b.add v p).priority w = if w = v then some p else b.priority w := by
  let b₁ : Bucket V := ({ b with index := b.index.insert v ⟨p, 0⟩ } : Bucket V).push v
  have hb₁ : b₁.Consistent := push_consistent hb hv p
  have hlen : b₁.items.length = b.items.length + 1 := by simp [push, b₁]
  have hkeep : Keeps b₁ (b.add v p) := by
    change Keeps b₁ (heap.up b₁ (b₁.items.length - 1))
    exact (swap_keeps hb₁.nodup).up (by omega) hb₁.keeps
  refine ⟨hkeep.consistent hb₁.nodup hb₁.mem_items, ?_, hkeep.capacity_eq, ?_⟩
  · rw [hkeep.perm.length_eq, hlen]
  · intro w
    rw [hkeep.priority_eq w, priority, lookup_push_insert]
    split_ifs <;> rfl

/-- The contents after the last value of the slice is popped and deleted. -/
theorem pop_spec {b : Bucket V} (hb : b.Consistent) {r : V} (hr : b.items.getLast? = some r) :
    let b' : Bucket V := { b.pop with index := b.pop.index.erase r }
    b'.Consistent ∧ b'.items.length + 1 = b.items.length ∧ b'.capacity = b.capacity ∧
    ∀ w, b'.priority w = if w = r then none else b.priority w := by
  intro b'
  have hpop : b.pop =
      { b with index := setPosition b.index r (-1), items := b.items.dropLast } := by
    simp only [pop, hr]
  have hitems : b'.items = b.items.dropLast := by simp only [b', hpop]
  have hsplit : b.items = b.items.dropLast ++ [r] := by
    obtain ⟨hne, hg⟩ := List.getLast?_eq_some_iff.mp hr
    rw [hg]
    simp
  have hrnot : r ∉ b.items.dropLast := by
    have hnodup := hb.nodup
    rw [hsplit] at hnodup
    have hdis := (List.nodup_append.mp hnodup).2.2
    exact fun h => hdis r h r (List.mem_singleton_self r) rfl
  have hlookup : ∀ w, b'.index.lookup w = if w = r then none else b.index.lookup w := by
    intro w
    simp only [b', hpop]
    rw [GoMap.lookup_erase_eq]
    split_ifs with hw
    · rfl
    · rw [lookup_setPosition, if_neg hw]
  have hprio : ∀ w, b'.priority w = if w = r then none else b.priority w := by
    intro w
    rw [priority, hlookup]
    split_ifs <;> rfl
  refine ⟨⟨?_, fun w => ?_, fun k w hk => ?_⟩, ?_, ?_, hprio⟩
  · rw [hitems]
    exact hb.nodup.sublist (List.dropLast_sublist _)
  · have hmem := hb.mem_items w
    rw [hsplit, List.mem_append, List.mem_singleton, mem_index_iff] at hmem
    rw [hitems, mem_index_iff, hprio]
    by_cases hw : w = r
    · subst hw
      simp [hrnot]
    · rw [if_neg hw, ← hmem, or_iff_left hw]
  · rw [hitems] at hk
    have hwr : w ≠ r := fun he => hrnot (he ▸ List.mem_of_getElem? hk)
    rw [hlookup, if_neg hwr]
    apply hb.position k w
    rw [hsplit, List.getElem?_append_left (List.getElem?_eq_some_iff.mp hk).1]
    exact hk
  · have hlen := congrArg List.length hsplit
    rw [List.length_append, List.length_singleton] at hlen
    rw [hitems, ← hlen]
  · simp only [b', hpop]

/-- Before it pops, `heap.Pop` has moved the root to the end of the slice. -/
theorem down_swap_spec {b : Bucket V} (hb : b.Consistent) {r : V}
    (hr : b.items.head? = some r) :
    let n := b.items.length - 1
    Keeps b (heap.down (b.swap 0 n) 0 n).1 ∧
      (heap.down (b.swap 0 n) 0 n).1.items.getLast? = some r := by
  intro n
  have hn : b.items.length = n + 1 := by
    have hpos := List.length_pos_of_mem (List.mem_of_head? hr)
    omega
  have hr0 : b.items[0]? = some r := by rw [← List.head?_eq_getElem?]; exact hr
  let P : Bucket V → Prop := fun h => Keeps b h ∧ h.items[n]? = some r
  have hP : heap.SwapInvariant n P := by
    rintro h i j hi hj ⟨hk, hlast⟩
    refine ⟨swap_keeps hb.nodup h i j (by omega) (by omega) hk, ?_⟩
    change (h.swap i j).items[n]? = some r
    unfold swap
    split
    · simp only [List.getElem?_set, List.length_set]
      rw [if_neg (by omega), if_neg (by omega)]
      exact hlast
    · exact hlast
  have hstart : P (b.swap 0 n) := by
    refine ⟨swap_keeps hb.nodup b 0 n (by omega) (by omega) hb.keeps, ?_⟩
    have hn' : b.items[n]? = some b.items[n] := List.getElem?_eq_getElem (by omega)
    simp only [swap, hr0, hn', List.getElem?_set, List.length_set]
    rw [if_pos trivial, if_pos (by omega)]
  obtain ⟨hkeep, hlast⟩ : P (heap.down (b.swap 0 n) 0 n).1 := by
    by_cases h0 : 0 < n
    · exact hP.down h0 le_rfl hstart
    · have hzero : n = 0 := by omega
      rw [hzero] at hstart ⊢
      exact hstart
  refine ⟨hkeep, ?_⟩
  rw [List.getLast?_eq_getElem?, hkeep.perm.length_eq, hn]
  exact hlast

/-- The contents after the root of the heap is popped and its value deleted. -/
theorem heapPop_spec {b : Bucket V} (hb : b.Consistent) {r : V} (hr : b.items.head? = some r) :
    let b' : Bucket V := { b.heapPop with index := b.heapPop.index.erase r }
    b'.Consistent ∧ b'.items.length + 1 = b.items.length ∧ b'.capacity = b.capacity ∧
    ∀ w, b'.priority w = if w = r then none else b.priority w := by
  intro b'
  obtain ⟨hkeep, hlast⟩ := down_swap_spec hb hr
  have hd := hkeep.consistent hb.nodup hb.mem_items
  obtain ⟨hc, hlen, hcapacity, hprio⟩ := pop_spec hd hlast
  refine ⟨hc, ?_, hcapacity.trans hkeep.capacity_eq, fun w => ?_⟩
  · rw [← hkeep.perm.length_eq]
    exact hlen
  · rw [← hkeep.priority_eq w]
    exact hprio w

theorem not_mem_heapPop {b : Bucket V} (hb : b.Consistent) {r v : V}
    (hr : b.items.head? = some r) (hv : v ∉ b.index) :
    v ∉ ({ b.heapPop with index := b.heapPop.index.erase r } : Bucket V).index := by
  have hprio := (heapPop_spec hb hr).2.2.2 v
  rw [mem_index_iff] at hv ⊢
  rw [hprio]
  split_ifs
  · simp
  · exact hv

/-- What `upsert` does to the contents: it updates a present value, adds to a
bucket with room, replaces an expired root, and otherwise refuses. -/
inductive Upserted (b : Bucket V) (now : ℤ) (v : V) (p : ℤ) : Bool × Bucket V → Prop
  | updated {b' : Bucket V} (hv : v ∈ b.index) (hlen : b'.items.length = b.items.length)
      (hprio : ∀ w, b'.priority w = if w = v then some p else b.priority w) :
      Upserted b now v p (true, b')
  | added {b' : Bucket V} (hv : v ∉ b.index) (hroom : (b.items.length : ℤ) < b.capacity)
      (hlen : b'.items.length = b.items.length + 1)
      (hprio : ∀ w, b'.priority w = if w = v then some p else b.priority w) :
      Upserted b now v p (true, b')
  | evicted {b' : Bucket V} {r : V} {q : ℤ} (hv : v ∉ b.index)
      (hr : b.items.head? = some r) (hq : b.priority r = some q) (hexp : q < now)
      (hlen : b'.items.length = b.items.length)
      (hprio : ∀ w, b'.priority w =
        if w = v then some p else if w = r then none else b.priority w) :
      Upserted b now v p (true, b')
  | refused (hv : v ∉ b.index) : Upserted b now v p (false, b)

theorem upsert_spec {b : Bucket V} (hb : b.Consistent) (now : ℤ) (v : V) (p : ℤ)
    (hcap : 1 ≤ b.capacity) :
    (b.upsert now v p).2.Consistent ∧ (b.upsert now v p).2.capacity = b.capacity ∧
      Upserted b now v p (b.upsert now v p) := by
  unfold upsert
  rw [if_neg (by omega)]
  split_ifs with hv hroom
  · obtain ⟨hc, hlen, hcapacity, hprio⟩ := update_spec hb hv p
    exact ⟨hc, hcapacity, .updated hv hlen hprio⟩
  · obtain ⟨hc, hlen, hcapacity, hprio⟩ := add_spec hb hv p
    exact ⟨hc, hcapacity, .added hv hroom hlen hprio⟩
  · cases hr : b.items.head? with
    | none => exact ⟨hb, rfl, .refused hv⟩
    | some r =>
      simp only
      split_ifs with hexp
      · obtain ⟨hc, hlen, hcapacity, hprio⟩ := heapPop_spec hb hr
        have hri : r ∈ b.index := (hb.mem_items r).mp (List.mem_of_mem_head? hr)
        obtain ⟨it, hit⟩ := Finmap.mem_iff.mp hri
        obtain ⟨hc', hlen', hcapacity', hprio'⟩ := add_spec hc (not_mem_heapPop hb hr hv) p
        refine ⟨hc', hcapacity'.trans hcapacity, .evicted (r := r) (q := it.priority) hv hr ?_ ?_
          (hlen'.trans hlen) ?_⟩
        · simp [priority, hit]
        · simpa [Item.expired, item, hit] using hexp
        · intro w
          rw [hprio' w, hprio w]
      · exact ⟨hb, rfl, .refused hv⟩

theorem new_consistent (capacity : ℤ) : (new capacity : Bucket V).Consistent :=
  ⟨List.nodup_nil, fun v => by simp [new, Finmap.notMem_empty], fun k v h => by simp [new] at h⟩

end Bucket

end Alertmanager
