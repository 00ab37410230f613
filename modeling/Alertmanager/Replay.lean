import Alertmanager.GoMap

/-!
# Replaying updates

A log of values, each of which is stored under its own key, is replayed over a map: later
values replace earlier ones of the same key. What a key holds afterwards is the last value
of the log with that key, or what the map held before.
-/
namespace Alertmanager.Replay
variable {K V : Type*} [DecidableEq K] {key : V → K}

/-- Store the values of a log one after the other. -/
def replay (key : V → K) (m : GoMap K V) (log : List V) : GoMap K V :=
  log.foldl (fun m v => m.insert (key v) v) m

@[simp] theorem replay_nil (m : GoMap K V) : replay key m [] = m := rfl

@[simp] theorem replay_cons (m : GoMap K V) (v : V) (log : List V) :
    replay key m (v :: log) = replay key (m.insert (key v) v) log := rfl

theorem replay_append (m : GoMap K V) (log log' : List V) :
    replay key m (log ++ log') = replay key (replay key m log) log' :=
  List.foldl_append

/-- A key that the log does not mention keeps its value. -/
theorem lookup_replay_of_not_mem {log : List V} {k : K} (h : k ∉ log.map key) (m : GoMap K V) :
    (replay key m log).lookup k = m.lookup k := by
  induction log generalizing m with
  | nil => rfl
  | cons v log ih =>
    rw [List.map_cons, List.mem_cons, not_or] at h
    rw [replay_cons, ih h.2, GoMap.lookup_insert_eq, if_neg h.1]

/-- A key that the log mentions has a value of the log, whatever the map was. -/
theorem lookup_replay_of_mem {log : List V} {k : K} (h : k ∈ log.map key) :
    ∃ v ∈ log, key v = k ∧ ∀ m : GoMap K V, (replay key m log).lookup k = some v := by
  induction log with
  | nil => cases h
  | cons v log ih =>
    by_cases hlater : k ∈ log.map key
    · obtain ⟨w, hw, hkey, hlook⟩ := ih hlater
      exact ⟨w, List.mem_cons_of_mem v hw, hkey, fun m => hlook _⟩
    · obtain rfl : k = key v := by
        rw [List.map_cons] at h
        exact (List.mem_cons.mp h).resolve_right hlater
      refine ⟨v, List.mem_cons_self, rfl, fun m => ?_⟩
      rw [replay_cons, lookup_replay_of_not_mem hlater, GoMap.lookup_insert_eq, if_pos rfl]

/-- Every value comes from the log or from the map. -/
theorem mem_of_lookup_replay {m : GoMap K V} {log : List V} {k : K} {v : V}
    (h : (replay key m log).lookup k = some v) : v ∈ log ∨ m.lookup k = some v := by
  by_cases hk : k ∈ log.map key
  · obtain ⟨w, hw, -, hlook⟩ := lookup_replay_of_mem hk
    rw [hlook] at h
    exact Or.inl (Option.some.inj h ▸ hw)
  · rw [lookup_replay_of_not_mem hk] at h
    exact Or.inr h

/-- A replay keeps values under their own keys. -/
theorem key_of_lookup_replay {m : GoMap K V} (hm : ∀ k v, m.lookup k = some v → key v = k)
    {log : List V} {k : K} {v : V} (h : (replay key m log).lookup k = some v) : key v = k := by
  by_cases hk : k ∈ log.map key
  · obtain ⟨w, -, hkey, hlook⟩ := lookup_replay_of_mem hk
    rw [hlook] at h
    exact Option.some.inj h ▸ hkey
  · rw [lookup_replay_of_not_mem hk] at h
    exact hm k v h

/-- The values of a map, in any order, restore it. -/
theorem replay_values {m : GoMap K V} (hm : ∀ k v, m.lookup k = some v → key v = k)
    {order : List K} (ho : GoMap.Ranges m order) :
    replay key ∅ (order.filterMap fun k => m.lookup k) = m := by
  refine Finmap.ext_lookup fun k => ?_
  cases hk : m.lookup k with
  | some v =>
    have hrange : k ∈ order := (ho.mem k).mpr (GoMap.mem_of_lookup hk)
    have hmem : k ∈ (order.filterMap fun k => m.lookup k).map key :=
      List.mem_map.mpr ⟨v, List.mem_filterMap.mpr ⟨k, hrange, hk⟩, hm k v hk⟩
    obtain ⟨w, hw, hkey, hlook⟩ := lookup_replay_of_mem hmem
    obtain ⟨k', -, hk'⟩ := List.mem_filterMap.mp hw
    obtain rfl : k' = k := (hm k' w hk').symm.trans hkey
    rw [hlook, ← hk', hk]
  | none =>
    rw [lookup_replay_of_not_mem, Finmap.lookup_empty]
    rw [List.mem_map]
    rintro ⟨v, hv, hkey⟩
    obtain ⟨k', -, hk'⟩ := List.mem_filterMap.mp hv
    obtain rfl : k' = k := (hm k' v hk').symm.trans hkey
    rw [hk'] at hk
    cases hk

end Alertmanager.Replay
