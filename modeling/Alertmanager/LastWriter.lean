import Alertmanager.GoMap
import Alertmanager.Inflationary

/-!
# Maps in which the younger value wins

A replicated map accepts a value under a key when the key is unused or the value
already there has a smaller time stamp. Writes under one key therefore never
lower the time stamp found there, and after a sequence of writes every key has the
newest value among the offered ones and the one it had before. If offered values
with one key and one time stamp are equal, this does not depend on the order of the
writes or on repetitions.
-/
namespace Alertmanager.LastWriter

variable {K V : Type*} [DecidableEq K] {stamp : V → ℤ} {m : GoMap K V} {k k' : K} {v w : V}

/-- Whether the value would be accepted under the key. -/
def accepts (stamp : V → ℤ) (m : GoMap K V) (k : K) (v : V) : Bool :=
  match m.lookup k with
  | none => true
  | some prev => decide (stamp prev < stamp v)

/-- Offer a value to the map. -/
def write (stamp : V → ℤ) (m : GoMap K V) (k : K) (v : V) : GoMap K V :=
  if accepts stamp m k v then m.insert k v else m

theorem accepts_iff :
    accepts stamp m k v = true ↔ ∀ prev, m.lookup k = some prev → stamp prev < stamp v := by
  unfold accepts
  cases h : m.lookup k with
  | none => simp
  | some prev => simp

theorem accepts_of_lookup {prev : V} (h : m.lookup k = some prev) :
    accepts stamp m k v = true ↔ stamp prev < stamp v := by
  simp [accepts_iff, h]

theorem accepts_of_lookup_none (h : m.lookup k = none) : accepts stamp m k v = true := by
  simp [accepts_iff, h]

theorem lookup_write_of_accepts (h : accepts stamp m k v = true) :
    (write stamp m k v).lookup k' = if k' = k then some v else m.lookup k' := by
  rw [write, if_pos h, GoMap.lookup_insert_eq]

theorem lookup_write : (write stamp m k v).lookup k' =
    if k' = k ∧ accepts stamp m k v = true then some v else m.lookup k' := by
  by_cases h : accepts stamp m k v = true
  · rw [lookup_write_of_accepts h]
    simp [h]
  · rw [write, if_neg h, if_neg (fun h' => h h'.2)]

/-- Offer the values of a list one after the other. -/
def writes (stamp : V → ℤ) (key : V → K) (m : GoMap K V) (l : List V) : GoMap K V :=
  l.foldl (fun m v => write stamp m (key v) v) m

theorem writes_append (stamp : V → ℤ) (key : V → K) (m : GoMap K V) (l l' : List V) :
    writes stamp key m (l ++ l') = writes stamp key (writes stamp key m l) l' :=
  List.foldl_append

/-- What is found under a key after values satisfying `C` were offered: the newest of
them and of the value that was there before, which wins a tie. -/
structure Newest (stamp : V → ℤ) (key : V → K) (m : GoMap K V) (C : V → Prop) (k : K)
    (r : Option V) : Prop where
  none : r = none → m.lookup k = none ∧ ∀ v, C v → key v ≠ k
  origin : ∀ v, r = some v → m.lookup k = some v ∨
    (C v ∧ key v = k ∧ ∀ w, m.lookup k = some w → stamp w < stamp v)
  newest : ∀ v, r = some v → (∀ w, m.lookup k = some w → stamp w ≤ stamp v) ∧
    ∀ w, C w → key w = k → stamp w ≤ stamp v

variable {key : V → K} {C : V → Prop}

/-- Values with one key and one time stamp are equal. -/
def Consistent (stamp : V → ℤ) (key : V → K) (C : V → Prop) : Prop :=
  ∀ v w, C v → C w → key v = key w → stamp v = stamp w → v = w

theorem Newest.not_none {r : Option V} (h : Newest stamp key m C k r) (hr : r = Option.none)
    (h' : Newest stamp key m C k (some v)) : False := by
  obtain ⟨hnone, hC⟩ := h.none hr
  obtain hv | ⟨hv, hk, -⟩ := h'.origin v rfl
  · rw [hnone] at hv
    cases hv
  · exact hC v hv hk

theorem Newest.stamp_le (h : Newest stamp key m C k (some v))
    (h' : Newest stamp key m C k (some w)) : stamp v ≤ stamp w := by
  obtain hv | ⟨hv, hk, -⟩ := h.origin v rfl
  · exact (h'.newest w rfl).1 v hv
  · exact (h'.newest w rfl).2 v hv hk

theorem Newest.unique (hC : Consistent stamp key C) {r r' : Option V}
    (h : Newest stamp key m C k r) (h' : Newest stamp key m C k r') : r = r' := by
  cases r with
  | none =>
    cases r' with
    | none => rfl
    | some w => exact (h.not_none rfl h').elim
  | some v =>
    cases r' with
    | none => exact (h'.not_none rfl h).elim
    | some w =>
      have hstamp : stamp v = stamp w := le_antisymm (h.stamp_le h') (h'.stamp_le h)
      rcases h.origin v rfl with hv | ⟨hv, hkv, hnewer⟩
      · rcases h'.origin w rfl with hw | ⟨-, -, hnewer⟩
        · rw [← hv, ← hw]
        · exact absurd hstamp (hnewer v hv).ne
      · rcases h'.origin w rfl with hw | ⟨hw, hkw, -⟩
        · exact absurd hstamp.symm (hnewer w hw).ne
        · rw [hC v w hv hw (hkv.trans hkw.symm) hstamp]

/-- Offering one more value. -/
theorem Newest.write {m' : GoMap K V} {l : List V}
    (h : Newest stamp key m (· ∈ l) k (m'.lookup k)) :
    Newest stamp key m (· ∈ l ++ [v]) k ((write stamp m' (key v) v).lookup k) := by
  rw [lookup_write]
  by_cases hacc : k = key v ∧ accepts stamp m' (key v) v = true
  · rw [if_pos hacc]
    obtain ⟨rfl, hacc⟩ := hacc
    rw [accepts_iff] at hacc
    have hbefore : ∀ w, m.lookup (key v) = some w → stamp w < stamp v := by
      intro w hw
      cases hx : m'.lookup (key v) with
      | none =>
        rw [(h.none hx).1] at hw
        cases hw
      | some x => exact ((h.newest x hx).1 w hw).trans_lt (hacc x hx)
    refine ⟨by simp, ?_, ?_⟩
    · rintro _ ⟨⟩
      exact Or.inr ⟨by simp, rfl, hbefore⟩
    · rintro _ ⟨⟩
      refine ⟨fun w hw => (hbefore w hw).le, fun w hw hk => ?_⟩
      rcases List.mem_append.mp hw with hw | hw
      · cases hx : m'.lookup (key v) with
        | none => exact absurd hk ((h.none hx).2 w hw)
        | some x => exact ((h.newest x hx).2 w hw hk).trans (hacc x hx).le
      · rw [List.mem_singleton.mp hw]
  · rw [if_neg hacc]
    refine ⟨fun hnone => ⟨(h.none hnone).1, fun w hw hk => ?_⟩, fun w hw => ?_, fun w hw => ?_⟩
    · rcases List.mem_append.mp hw with hw | hw
      · exact (h.none hnone).2 w hw hk
      · obtain rfl := List.mem_singleton.mp hw
        exact hacc ⟨hk.symm, accepts_of_lookup_none (hk ▸ hnone)⟩
    · rcases h.origin w hw with hold | ⟨hmem, hk, hnewer⟩
      · exact Or.inl hold
      · exact Or.inr ⟨List.mem_append_left _ hmem, hk, hnewer⟩
    · refine ⟨(h.newest w hw).1, fun x hx hk => ?_⟩
      rcases List.mem_append.mp hx with hx | hx
      · exact (h.newest w hw).2 x hx hk
      · obtain rfl := List.mem_singleton.mp hx
        by_contra hlt
        exact hacc ⟨hk.symm, (accepts_of_lookup (hk ▸ hw)).mpr (not_le.mp hlt)⟩

theorem newest_refl (stamp : V → ℤ) (key : V → K) (m : GoMap K V) (k : K) :
    Newest stamp key m (· ∈ ([] : List V)) k (m.lookup k) := by
  refine ⟨fun h => ⟨h, by simp⟩, fun v hv => Or.inl hv, fun v hv => ⟨fun w hw => ?_, by simp⟩⟩
  obtain rfl := Option.some.inj (hw.symm.trans hv)
  exact le_rfl

/-- Offering the values of a list. -/
theorem Newest.writes {m' : GoMap K V} {l : List V}
    (h : Newest stamp key m (· ∈ l) k (m'.lookup k)) (l' : List V) :
    Newest stamp key m (· ∈ l ++ l') k ((writes stamp key m' l').lookup k) := by
  induction l' using List.reverseRecOn with
  | nil => simpa [LastWriter.writes] using h
  | append_singleton l' v ih =>
    rw [writes_append, ← List.append_assoc]
    exact ih.write

theorem newest_writes (stamp : V → ℤ) (key : V → K) (m : GoMap K V) (l : List V) (k : K) :
    Newest stamp key m (· ∈ l) k ((writes stamp key m l).lookup k) :=
  (newest_refl stamp key m k).writes l

/-- A write does not lower the time stamp under any key. -/
theorem stamp_le_write {prev : V} (h : m.lookup k' = some prev) :
    ∃ w, (write stamp m k v).lookup k' = some w ∧ stamp prev ≤ stamp w := by
  rw [lookup_write]
  split_ifs with hacc
  · obtain ⟨rfl, hacc⟩ := hacc
    exact ⟨v, rfl, (accepts_iff.mp hacc prev h).le⟩
  · exact ⟨prev, h, le_rfl⟩

/-- The second map has a value at least as young wherever the first has one. -/
def Younger (stamp : V → ℤ) (m m' : GoMap K V) : Prop :=
  ∀ k v, m.lookup k = some v → ∃ w, m'.lookup k = some w ∧ stamp v ≤ stamp w

instance younger_refl : Std.Refl (Younger (K := K) stamp) :=
  ⟨fun _ _ v h => ⟨v, h, le_rfl⟩⟩

instance younger_trans : IsTrans (GoMap K V) (Younger stamp) where
  trans m₁ m₂ m₃ h₁₂ h₂₃ k v hv := by
    obtain ⟨w, hw, hvw⟩ := h₁₂ k v hv
    obtain ⟨x, hx, hwx⟩ := h₂₃ k w hw
    exact ⟨x, hx, hvw.trans hwx⟩

/-- A value that was accepted is younger than what the map had, so there is no way back. -/
theorem not_younger_insert (h : accepts stamp m k v = true) :
    ¬Younger stamp (m.insert k v) m := by
  intro hback
  obtain ⟨w, hw, hle⟩ := hback k v (Finmap.lookup_insert m)
  exact (accepts_iff.mp h w hw).not_ge hle

theorem younger_insert (h : accepts stamp m k v = true) : Younger stamp m (m.insert k v) := by
  intro k' prev hprev
  have hwrite : ∃ w, (write stamp m k v).lookup k' = some w ∧ stamp prev ≤ stamp w :=
    stamp_le_write hprev
  rwa [write, if_pos h] at hwrite

/-- The map has a value under the key that is not older. -/
def Covers (stamp : V → ℤ) (m : GoMap K V) (k : K) (t : ℤ) : Prop :=
  ∃ v ∈ m.lookup k, t ≤ stamp v

instance Covers.decidable (stamp : V → ℤ) (m : GoMap K V) (k : K) (t : ℤ) :
    Decidable (Covers stamp m k t) :=
  decidable_of_iff ((m.lookup k).any fun v => decide (t ≤ stamp v)) (by
    simp [Covers, Option.any_eq_true])

theorem not_covers_iff : ¬Covers stamp m k (stamp v) ↔ accepts stamp m k v = true := by
  simp [Covers, accepts_iff]

theorem covers_insert (h : accepts stamp m k v = true) (k' : K) (t : ℤ) :
    Covers stamp (m.insert k v) k' t ↔ Covers stamp m k' t ∨ k = k' ∧ t ≤ stamp v := by
  unfold Covers
  rw [GoMap.lookup_insert_eq]
  split_ifs with hk
  · subst hk
    have hold : (∃ w ∈ m.lookup k', t ≤ stamp w) → t ≤ stamp v := fun ⟨w, hw, hle⟩ =>
      hle.trans (accepts_iff.mp h w hw).le
    simpa using hold
  · simp [Ne.symm hk]

/-- The keys and the time stamps of the live values that a loop over a map visits, if there
is a map. -/
def offers (live : V → Bool) (key : V → K) (stamp : V → ℤ) (m : Option (GoMap K V))
    (order : List K) : List (K × ℤ) :=
  m.elim [] fun m => ((order.filterMap m.lookup).filter live).map fun v => (key v, stamp v)

theorem mem_offers {live : V → Bool} {order : List K} {o : K × ℤ} :
    o ∈ offers live key stamp (some m) order ↔
      ∃ k ∈ order, ∃ v, m.lookup k = some v ∧ live v = true ∧ (key v, stamp v) = o := by
  simp only [offers, Option.elim_some, List.mem_map, List.mem_filter, List.mem_filterMap]
  constructor
  · rintro ⟨v, ⟨⟨k, hk, hv⟩, hlive⟩, ho⟩
    exact ⟨k, hk, v, hv, hlive, ho⟩
  · rintro ⟨k, hk, v, hv, hlive, ho⟩
    exact ⟨v, ⟨⟨k, hk, hv⟩, hlive⟩, ho⟩

/-- A step that offers a value to the map of a state. What is not live, or not younger than
what the map has, leaves the state alone. -/
structure Offering {σ : Type*} (π : σ → GoMap K V) (live : V → Bool) (key : V → K)
    (stamp : V → ℤ) (put : σ → V → σ) : Prop where
  taken : ∀ s v, live v = true → ¬Covers stamp (π s) (key v) (stamp v) →
    ∃ w, stamp w = stamp v ∧ π (put s v) = (π s).insert (key v) w
  refused : ∀ s v, (live v = true → Covers stamp (π s) (key v) (stamp v)) → put s v = s

namespace Offering

variable {σ : Type*} {π : σ → GoMap K V} {live : V → Bool} {put : σ → V → σ}

theorem taken_or_refused (h : Offering π live key stamp put) (s : σ) (v : V) :
    (put s v = s ∧ (live v = true → Covers stamp (π s) (key v) (stamp v))) ∨
      live v = true ∧ ∃ w, stamp w = stamp v ∧ accepts stamp (π s) (key v) w = true ∧
        π (put s v) = (π s).insert (key v) w := by
  by_cases hcov : live v = true → Covers stamp (π s) (key v) (stamp v)
  · exact Or.inl ⟨h.refused s v hcov, hcov⟩
  · obtain ⟨hlive, hnot⟩ := Classical.not_imp.mp hcov
    obtain ⟨w, hw, hinsert⟩ := h.taken s v hlive hnot
    exact Or.inr ⟨hlive, w, hw, not_covers_iff.mp (hw ▸ hnot), hinsert⟩

/-- The step only moves up. -/
theorem inflationary (h : Offering π live key stamp put) (v : V) :
    Inflationary (Order.Preimage π (Younger stamp)) (put · v) := by
  constructor
  · intro s
    obtain ⟨heq, -⟩ | ⟨-, w, -, hacc, hinsert⟩ := h.taken_or_refused s v
    · rw [heq]
      exact Std.Refl.refl s
    · rw [Order.Preimage, hinsert]
      exact younger_insert hacc
  · intro s hback
    obtain ⟨heq, -⟩ | ⟨-, w, -, hacc, hinsert⟩ := h.taken_or_refused s v
    · exact heq
    · rw [Order.Preimage, hinsert] at hback
      exact absurd hback (not_younger_insert hacc)

theorem put_eq_self_iff (h : Offering π live key stamp put) (s : σ) (v : V) :
    put s v = s ↔ (live v = true → Covers stamp (π s) (key v) (stamp v)) := by
  refine ⟨fun heq => ?_, h.refused s v⟩
  obtain ⟨-, hcov⟩ | ⟨-, w, -, hacc, hinsert⟩ := h.taken_or_refused s v
  · exact hcov
  · refine absurd ?_ (not_younger_insert hacc)
    rw [← hinsert, heq]
    exact Std.Refl.refl (π s)

theorem covers_put (h : Offering π live key stamp put) (k : K) (t : ℤ) (s : σ) (v : V) :
    Covers stamp (π (put s v)) k t ↔
      Covers stamp (π s) k t ∨ live v = true ∧ key v = k ∧ t ≤ stamp v := by
  obtain ⟨heq, hcov⟩ | ⟨hlive, w, hw, hacc, hinsert⟩ := h.taken_or_refused s v
  · rw [heq]
    refine ⟨Or.inl, fun hor => hor.elim (fun hold => hold) ?_⟩
    rintro ⟨hlive, rfl, hle⟩
    obtain ⟨x, hx, hlex⟩ := hcov hlive
    exact ⟨x, hx, hle.trans hlex⟩
  · rw [hinsert, covers_insert hacc, hw]
    simp [hlive]

/-- The state after a loop over a map, if there is a map. -/
def visitAll (put : σ → V → σ) (m : Option (GoMap K V)) (order : List K) (s : σ) : σ :=
  m.elim s fun m => Inflationary.visit put m order s

theorem inflationary_visitAll (h : Offering π live key stamp put) (m : Option (GoMap K V))
    (order : List K) :
    Inflationary (Order.Preimage π (Younger stamp)) (visitAll put m order) := by
  cases m with
  | none => exact Inflationary.id
  | some m => exact Inflationary.inflationary_visit h.inflationary m order

/-- A loop leaves the state alone if it offers nothing new. -/
theorem visitAll_eq_self_iff (h : Offering π live key stamp put) (m : Option (GoMap K V))
    (order : List K) (s : σ) : visitAll put m order s = s ↔
      ∀ o ∈ offers live key stamp m order, Covers stamp (π s) o.1 o.2 := by
  cases m with
  | none => simp [visitAll, offers]
  | some m =>
    rw [visitAll, Option.elim_some, Inflationary.visit_eq_self_iff h.inflationary]
    simp only [h.put_eq_self_iff, mem_offers]
    constructor
    · rintro hall _ ⟨k, hk, v, hv, hlive, rfl⟩
      exact hall k hk v hv hlive
    · intro hall k hk v hv hlive
      exact hall _ ⟨k, hk, v, hv, hlive, rfl⟩

theorem covers_visitAll (h : Offering π live key stamp put) (m : Option (GoMap K V))
    (order : List K) (s : σ) (k : K) (t : ℤ) : Covers stamp (π (visitAll put m order s)) k t ↔
      Covers stamp (π s) k t ∨ ∃ o ∈ offers live key stamp m order, o.1 = k ∧ t ≤ o.2 := by
  cases m with
  | none => simp [visitAll, offers]
  | some m =>
    rw [visitAll, Option.elim_some,
      Inflationary.visit_iff (A := fun s => Covers stamp (π s) k t) (h.covers_put k t)]
    simp only [mem_offers]
    refine or_congr_right ⟨?_, ?_⟩
    · rintro ⟨k', hk', v, hv, hlive, hkey, hle⟩
      exact ⟨_, ⟨k', hk', v, hv, hlive, rfl⟩, hkey, hle⟩
    · rintro ⟨_, ⟨k', hk', v, hv, hlive, rfl⟩, hkey, hle⟩
      exact ⟨k', hk', v, hv, hlive, hkey, hle⟩

end Offering

theorem stamp_le_writes {l : List V} {prev : V} (h : m.lookup k = some prev) :
    ∃ w, (writes stamp key m l).lookup k = some w ∧ stamp prev ≤ stamp w := by
  induction l generalizing m prev with
  | nil => exact ⟨prev, h, le_rfl⟩
  | cons v l ih =>
    obtain ⟨w, hw, hle⟩ := stamp_le_write (k := key v) (v := v) h
    obtain ⟨w', hw', hle'⟩ := ih hw
    exact ⟨w', hw', hle.trans hle'⟩

/-- What was offered is not accepted again. -/
theorem Newest.not_accepts {m' : GoMap K V}
    (h : Newest stamp key m C (key v) (m'.lookup (key v))) (hv : C v) :
    accepts stamp m' (key v) v = false := by
  rw [← Bool.not_eq_true]
  intro hacc
  cases hx : m'.lookup (key v) with
  | none => exact (h.none hx).2 v hv rfl
  | some x =>
    have hle := (h.newest x hx).2 v hv rfl
    have hlt := accepts_iff.mp hacc x hx
    omega

end Alertmanager.LastWriter
