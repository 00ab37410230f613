import Alertmanager.DispatchSafety

/-!
# Which version of an alert the dispatcher keeps

The workers drain one ordered channel, but each inserts its version with an
unconditional overwrite, so the version left in a group is the one of the worker
that came last, not the one delivered last. The order is kept when no worker takes a
version of an alert while another is still busy with an earlier one: the version in
a group is then the last one received, or a worker that has received the last one
has not yet come to this group.
-/
namespace Alertmanager.Dispatcher

section
variable [LabelHash]

/-- The last version of an alert in a list. -/
def lastVersion (l : List Alert) (f : Fingerprint) : Option Alert :=
  (l.filter fun a => fingerprint a.labels = f).getLast?

theorem lastVersion_append (l : List Alert) (a : Alert) (f : Fingerprint) :
    lastVersion (l ++ [a]) f = if fingerprint a.labels = f then some a else lastVersion l f := by
  unfold lastVersion
  split_ifs with h
  · simp [List.filter_append, h]
  · simp [List.filter_append, h]

theorem mem_of_lastVersion {l : List Alert} {f : Fingerprint} {a : Alert}
    (h : lastVersion l f = some a) : a ∈ l ∧ fingerprint a.labels = f := by
  have hmem := List.mem_of_getLast? h
  simpa using hmem

end

section
variable [Regexp] [LabelHash]

theorem groupKey_congr {a b : Alert} (h : a.labels = b.labels) (route : Route) :
    groupKey a route = groupKey b route := by
  simp only [groupKey, getGroupLabels, h]

/-- The worker is processing a version of this alert. -/
def Worker.handles (f : Fingerprint) : Worker → Bool
  | .idle => false
  | .busy a _ _ _ => fingerprint a.labels = f

/-- For one alert the later versions have later timestamps. -/
def Ordered (s : State) : Op → Prop
  | .deliver a =>
    ∀ b ∈ s.delivered, fingerprint b.labels = fingerprint a.labels → b.updatedAt < a.updatedAt
  | _ => True

/-- The step of a call does not refuse the alert: the limit is not reached when a
group is to be created, and the retries are not used up. -/
def admitted (limit num : ℤ) : Worker → Bool
  | .busy _ _ (.create _) _ => !(decide (0 < limit) && decide (limit ≤ num))
  | .busy _ _ (.compareAndSwap _ _ retries) _ | .busy _ _ (.insertExisting _ _ retries) _ =>
    retries < 100
  | _ => true

/-- No worker receives a version of an alert while another worker is processing one,
and no call is refused. -/
def Exclusive (n : ℕ) (s : State) : Op → Prop
  | .receive w =>
    ∀ a ∈ s.chan.head?, ∀ w' < n, w' ≠ w → (s.workers w').handles (fingerprint a.labels) = false
  | .call w limit => admitted limit s.shared.aggrGroupsNum (s.workers w) = true
  | _ => True

instance (s : State) : (op : Op) → Decidable (Ordered s op)
  | .deliver a =>
    inferInstanceAs (Decidable (∀ b ∈ s.delivered,
      fingerprint b.labels = fingerprint a.labels → b.updatedAt < a.updatedAt))
  | .receive _ | .call _ _ | .tick _ | .list _ _ _ | .notified _ _ | .delete _ | .check _
  | .done _ | .visit _ _ _ | .maintain _ | .startTimer | .sweep _ | .sweepStart _ | .sweepNext
  | .stop =>
    isTrue trivial

instance (n : ℕ) (s : State) : (op : Op) → Decidable (Exclusive n s op)
  | .receive w =>
    inferInstanceAs (Decidable (∀ a ∈ s.chan.head?, ∀ w' < n, w' ≠ w →
      (s.workers w').handles (fingerprint a.labels) = false))
  | .call w limit =>
    inferInstanceAs (Decidable (admitted limit s.shared.aggrGroupsNum (s.workers w) = true))
  | .deliver _ | .tick _ | .list _ _ _ | .notified _ _ | .delete _ | .check _
  | .done _ | .visit _ _ _ | .maintain _ | .startTimer | .sweep _ | .sweepStart _ | .sweepNext
  | .stop =>
    isTrue trivial

/-- The channel is empty and none of the workers is processing an alert. -/
def Quiescent (n : ℕ) (s : State) : Prop := s.chan = [] ∧ ∀ w < n, (s.workers w).isIdle = true

instance (n : ℕ) (s : State) : Decidable (Quiescent n s) := inferInstanceAs (Decidable (_ ∧ _))

/-- A worker that has this alert has not yet put it into the group with this key. -/
def Pending (s : State) (i : ℕ) (k f : Fingerprint) : Prop :=
  ∃ w a route pc rest, s.workers w = .busy a route pc rest ∧ fingerprint a.labels = f ∧
    ((route.idx = i ∧ groupKey a route = k) ∧ pc.succeeded = false ∨
      ∃ r ∈ rest, r.idx = i ∧ groupKey a r = k)

/-- A flush has removed the alert from its group for the route as resolved. -/
def RemovedResolved (s : State) (a : Alert) (route : Route) : Prop :=
  ∃ x ∈ s.removed, x.route = route.idx ∧ x.key = groupKey a route ∧ x.alert = a ∧
    a.resolvedAt x.now = true

/-- The invariant of the runs in which receives are exclusive. -/
structure Current (root : Route) (n : ℕ) (S : Finset LabelSet) (s : State) : Prop where
  inv : Inv S s
  worker : ∀ w a route pc rest, s.workers w = .busy a route pc rest →
    w < n ∧ lastVersion s.received (fingerprint a.labels) = some a ∧
      (∀ r ∈ route :: rest, r ∈ root.matchNodes a.labels) ∧
      pc ≠ .returned .limited ∧ pc ≠ .returned .gaveUp
  alone : ∀ w w' a a' route route' pc pc' rest rest',
    s.workers w = .busy a route pc rest → s.workers w' = .busy a' route' pc' rest' →
    fingerprint a.labels = fingerprint a'.labels → w = w'
  versions : ∀ a ∈ s.delivered, ∀ b ∈ s.delivered,
    fingerprint a.labels = fingerprint b.labels → a.updatedAt = b.updatedAt → a = b
  placed : ∀ i k p f b, s.shared.mem.load i k = some p → s.shared.mem.stored p f = some b →
    ∃ r ∈ root.matchNodes b.labels, r.idx = i ∧ groupKey b r = k
  version : ∀ i k p f b, s.shared.mem.load i k = some p → s.shared.mem.stored p f = some b →
    lastVersion s.received f = some b ∨ Pending s i k f
  covered : ∀ f a, lastVersion s.received f = some a → ∀ r ∈ root.matchNodes a.labels,
    Holds s.shared.mem a r ∨ Pending s r.idx (groupKey a r) f ∨ RemovedResolved s a r

/-! ### What a step does to a worker -/

variable {root : Route} {n : ℕ} {S : Finset LabelSet} {s : State} {op : Op} {w : ℕ} {a : Alert}
  {route : Route} {pc : CallPC} {rest : List Route} {i : ℕ} {k f : Fingerprint}

/-- A busy worker had its alert before the step or has just received it. -/
theorem busy_before (hw : (next root s op).workers w = .busy a route pc rest) :
    (∃ route' pc' rest', s.workers w = .busy a route' pc' rest') ∨
      ∃ chan, op = .receive w ∧ s.chan = a :: chan := by
  cases became hw with
  | stayed _ hold => exact Or.inl ⟨_, _, _, hold⟩
  | received chan hop hchan _ _ => exact Or.inr ⟨chan, hop, hchan⟩
  | nextRoute _ _ _ _ hold _ => exact Or.inl ⟨_, _, _, hold⟩
  | stepped _ _ _ hold _ _ _ => exact Or.inl ⟨_, _, _, hold⟩

theorem received_of_ne (hop : ∀ w, op ≠ .receive w) : (next root s op).received = s.received := by
  cases op with
  | receive w => exact absurd rfl (hop w)
  | call | notified | delete | visit | startTimer | sweep | sweepStart | sweepNext =>
    simp only [next]
    split <;> rfl
  | _ => rfl

theorem next_receive {chan : List Alert} (hchan : s.chan = a :: chan) :
    next root s (.receive w) =
      { s with
        chan := chan
        received := s.received ++ [a]
        workers := Function.update s.workers w (routeAlert a (root.matchNodes a.labels)) } := by
  simp only [next, hchan]

/-- A step that is not refused does not end the call by a refusal. -/
theorem groupAlert_admitted {limit : ℤ} {sh : Shared}
    (h : admitted limit sh.aggrGroupsNum (.busy a route pc rest) = true)
    (hpc : ∀ outcome, pc ≠ .returned outcome) :
    (groupAlert a route limit sh pc).2 ≠ .returned .limited ∧
      (groupAlert a route limit sh pc).2 ≠ .returned .gaveUp := by
  cases pc with
  | returned outcome => exact absurd rfl (hpc outcome)
  | create el =>
    have hroom : limit ≤ 0 ∨ sh.aggrGroupsNum < limit := by simpa [admitted] using h
    have hlim : ¬ (0 < limit ∧ limit ≤ sh.aggrGroupsNum) := by omega
    simp only [groupAlert, if_neg hlim]
    cases el <;> simp
  | compareAndSwap ag el retries =>
    have hr : ¬ 100 < retries + 1 := by simpa [admitted] using h
    simp only [groupAlert, retry, if_neg hr]
    split_ifs <;> simp
  | insertExisting ag el retries =>
    have hr : ¬ 100 < retries + 1 := by simpa [admitted] using h
    simp only [groupAlert, retry, if_neg hr]
    split <;> simp
  | load | insertLoaded _ | loadOrStore _ _ | loadState _ =>
    simp only [groupAlert]
    split <;> simp
  | cancelOld _ _ | countLen _ | countNum _ | runAG _ => simp [groupAlert]

/-! ### The invariant is kept -/

theorem pending_of_received {chan : List Alert} (hchan : s.chan = a :: chan)
    {r : Route} (hr : r ∈ root.matchNodes a.labels) :
    Pending (next root s (.receive w)) r.idx (groupKey a r) (fingerprint a.labels) := by
  cases hnodes : root.matchNodes a.labels with
  | nil =>
    rw [hnodes] at hr
    cases hr
  | cons r' rest =>
    refine ⟨w, a, r', .load, rest, ?_, rfl, ?_⟩
    · rw [next_receive hchan]
      simp [hnodes, routeAlert]
    · rw [hnodes] at hr
      obtain rfl | hr := List.mem_cons.mp hr
      · exact Or.inl ⟨⟨rfl, rfl⟩, rfl⟩
      · exact Or.inr ⟨r, hr, rfl, rfl⟩

theorem removed_subset : s.removed ⊆ (next root s op).removed := by
  cases op with
  | delete p =>
    simp only [next]
    split
    · exact List.subset_append_left _ _
    · exact List.Subset.refl _
  | receive | call | notified | visit | startTimer | sweep | sweepStart | sweepNext =>
    simp only [next]
    split <;> exact List.Subset.refl _
  | _ => exact List.Subset.refl _

/-- A deletion by a flush is recorded with the version it deletes, which was resolved. -/
theorem removed_of_removes (hc : Current root n S s) {r : Route} (hholds : Holds s.shared.mem a r)
    (h : Removes s op a r) : RemovedResolved (next root s op) a r := by
  obtain ⟨q, hload, hstored⟩ := hholds
  obtain ⟨p, now, resolved, rfl, hpc, hload', b, hb, hlabels, hupd⟩ := h
  obtain rfl : q = p := Option.some.inj (hload.symm.trans hload')
  obtain ⟨hrec, hres⟩ := (hc.inv.mem.group q).marked now b (by rw [hpc]; exact ⟨rfl, hb⟩)
  have ha : a ∈ s.received := ((hc.inv.mem.group q).known _ a hstored).2
  obtain rfl : b = a := hc.versions b (List.mem_append_left _ hrec) a
    (List.mem_append_left _ ha) (by rw [hlabels]) hupd
  obtain ⟨-, hidx, hkey⟩ := hc.inv.mem.mapped _ _ _ hload
  refine ⟨⟨(s.shared.mem.heap q).route, fingerprint (s.shared.mem.heap q).labels, b, now⟩,
    ?_, hidx, hkey, rfl, hres⟩
  simp only [next, hpc]
  refine List.mem_append_right _ (List.mem_filterMap.mpr ⟨b, hb, ?_⟩)
  simp [hstored, Option.filter]

section
variable (hc : Current root n S s) (he : Enabled n S s op)
include hc he

/-- A version in a group of a map was there before, or it was put there by a worker
whose alert it is and whose route leads to this group. -/
theorem stored_next {p : ℕ} {b : Alert} (hload : (next root s op).shared.mem.load i k = some p)
    (hb : (next root s op).shared.mem.stored p f = some b) :
    (s.shared.mem.load i k = some p ∧ s.shared.mem.stored p f = some b) ∨
      ∃ w limit r pc rest, op = .call w limit ∧ s.workers w = .busy b r pc rest ∧
        r.idx = i ∧ groupKey b r = k ∧ f = fingerprint b.labels := by
  obtain ⟨act, heffect, hby⟩ := next_effect root hc.inv he
  obtain hold | ⟨rfl, hidx, hkey⟩ := heffect.load_or_publish hload
  · obtain ⟨hlt, hidx, hkey⟩ := hc.inv.mem.mapped _ _ _ hold
    obtain heq | ⟨b', rfl, hf, hb'⟩ | ⟨resolved, -, hnone, -⟩ := heffect.stored hlt f
    · exact Or.inl ⟨hold, heq.symm.trans hb⟩
    · obtain ⟨w, limit, r, pc, rest, hop, hw, hfound⟩ := hby
      obtain rfl : b' = b := Option.some.inj (hb'.symm.trans hb)
      have hr := (hc.inv.call w b' r pc rest hw).isFound hfound
      exact Or.inr ⟨w, limit, r, pc, rest, hop, hw, hr.idx.symm.trans hidx,
        hr.key.symm.trans hkey, hf⟩
    · cases hnone.symm.trans hb
  · obtain ⟨w, limit, a, r, pc, rest, hop, hw, hp⟩ := hby
    have hfresh := (hc.inv.call w a r pc rest hw).fresh hp
    have hold : s.shared.mem.stored p f = some b := by
      obtain heq | ⟨b', hact, -⟩ | ⟨resolved, hact, -⟩ := heffect.stored hfresh.lt f
      · exact heq.symm.trans hb
      · cases hact
      · cases hact
    rw [hfresh.stored] at hold
    split_ifs at hold with hf
    obtain rfl := Option.some.inj hold
    exact Or.inr ⟨w, limit, r, pc, rest, hop, hw, hfresh.idx.symm.trans hidx,
      hfresh.key.symm.trans hkey, hf⟩

theorem placed_next {p : ℕ} {b : Alert} (hload : (next root s op).shared.mem.load i k = some p)
    (hb : (next root s op).shared.mem.stored p f = some b) :
    ∃ r ∈ root.matchNodes b.labels, r.idx = i ∧ groupKey b r = k := by
  obtain ⟨hload', hb'⟩ | ⟨w, limit, r, pc, rest, -, hw, hidx, hkey, -⟩ :=
    stored_next hc he hload hb
  · exact hc.placed i k p f b hload' hb'
  · exact ⟨r, (hc.worker w b r pc rest hw).2.2.1 r List.mem_cons_self, hidx, hkey⟩

end

section
variable (hc : Current root n S s) (he : Enabled n S s op) (hx : Exclusive n s op)
include hc he hx

/-- No other worker is busy with the alert that is received. -/
theorem exclusive_received {w' : ℕ} {b : Alert} {chan : List Alert} (hop : op = .receive w')
    (hchan : s.chan = b :: chan) (hw : s.workers w = .busy a route pc rest) :
    fingerprint b.labels ≠ fingerprint a.labels := by
  subst hop
  have hne : w ≠ w' := by
    rintro rfl
    simp [Enabled, hw, Worker.isIdle] at he
  have hfree := hx b (by simp [hchan]) w (hc.worker w a route pc rest hw).1 hne
  intro heq
  simp [hw, Worker.handles, heq] at hfree

theorem worker_next (hw : (next root s op).workers w = .busy a route pc rest) :
    w < n ∧ lastVersion (next root s op).received (fingerprint a.labels) = some a ∧
      (∀ r ∈ route :: rest, r ∈ root.matchNodes a.labels) ∧
      pc ≠ .returned .limited ∧ pc ≠ .returned .gaveUp := by
  cases became hw with
  | stayed _ hold =>
    obtain ⟨hlt, hlast, hroutes, hpc⟩ := hc.worker w a route pc rest hold
    refine ⟨hlt, ?_, hroutes, hpc⟩
    by_cases hop : ∃ w', op = .receive w'
    · obtain ⟨w', rfl⟩ := hop
      cases hchan : s.chan with
      | nil => simpa only [next, hchan] using hlast
      | cons b chan =>
        have hne := exclusive_received hc he hx rfl hchan hold
        rw [next_receive hchan, lastVersion_append, if_neg hne]
        exact hlast
    · rw [received_of_ne fun w' h => hop ⟨w', h⟩]
      exact hlast
  | received chan hop hchan hnodes hpc =>
    subst hop hpc
    refine ⟨he.1, ?_, fun r hr => hnodes ▸ hr, by simp, by simp⟩
    rw [next_receive hchan, lastVersion_append, if_pos rfl]
  | nextRoute limit route' outcome hop hold hpc =>
    subst hop hpc
    obtain ⟨hlt, hlast, hroutes, -⟩ := hc.worker w a _ _ _ hold
    rw [received_of_ne (by simp)]
    exact ⟨hlt, hlast, fun r hr => hroutes r (List.mem_cons_of_mem _ hr), by simp, by simp⟩
  | stepped limit pc' hop hold hret _ hpc =>
    subst hop hpc
    obtain ⟨hlt, hlast, hroutes, -⟩ := hc.worker w a route pc' rest hold
    rw [received_of_ne (by simp)]
    have hexclusive := by simpa only [Exclusive, hold] using hx
    exact ⟨hlt, hlast, hroutes, groupAlert_admitted hexclusive hret⟩

theorem alone_next {w' : ℕ} {a' : Alert} {route' : Route} {pc' : CallPC} {rest' : List Route}
    (hw : (next root s op).workers w = .busy a route pc rest)
    (hw' : (next root s op).workers w' = .busy a' route' pc' rest')
    (hfp : fingerprint a.labels = fingerprint a'.labels) : w = w' := by
  obtain ⟨r, q, t, hold⟩ | ⟨chan, hop, hchan⟩ := busy_before hw
  · obtain ⟨r', q', t', hold'⟩ | ⟨chan, hop, hchan⟩ := busy_before hw'
    · exact hc.alone w w' a a' r r' q q' t t' hold hold' hfp
    · exact absurd hfp.symm (exclusive_received hc he hx hop hchan hold)
  · obtain ⟨r', q', t', hold'⟩ | ⟨chan', hop', -⟩ := busy_before hw'
    · exact absurd hfp (exclusive_received hc he hx hop hchan hold')
    · exact Op.receive.inj (hop.symm.trans hop')

/-- A worker that has still to come to a group keeps it in view, or it puts its
version, the last one, into the group. -/
theorem pending_next (h : Pending s i k f) :
    Pending (next root s op) i k f ∨
      ∃ a r, lastVersion (next root s op).received f = some a ∧ r.idx = i ∧ groupKey a r = k ∧
        Holds (next root s op).shared.mem a r := by
  obtain ⟨w, a, route, pc, rest, hw, hf, hpend⟩ := h
  obtain ⟨-, hlast, -, hlim, hgave⟩ := hc.worker w a route pc rest hw
  by_cases hop : ∃ limit, op = .call w limit
  · obtain ⟨limit, rfl⟩ := hop
    by_cases hret : ∃ outcome, pc = .returned outcome
    · obtain ⟨outcome, rfl⟩ := hret
      have hs : (CallPC.returned outcome).succeeded = true := by
        cases outcome with
        | inserted => rfl
        | limited => exact absurd rfl hlim
        | gaveUp => exact absurd rfl hgave
      obtain ⟨-, hs'⟩ | ⟨r, hr, hidx, hkey⟩ := hpend
      · cases hs.symm.trans hs'
      · cases rest with
        | nil => cases hr
        | cons r' rest =>
          refine Or.inl ⟨w, a, r', .load, rest, ?_, hf, ?_⟩
          · rw [next_returned hw]
            simp [routeAlert]
          · obtain rfl | hr := List.mem_cons.mp hr
            · exact Or.inl ⟨⟨hidx, hkey⟩, rfl⟩
            · exact Or.inr ⟨r, hr, hidx, hkey⟩
    · have hnext : next root s (.call w limit) = _ := next_call hw fun o ho => hret ⟨o, ho⟩
      have hw' : (next root s (.call w limit)).workers w =
          .busy a route (groupAlert a route limit s.shared pc).2 rest := by
        rw [hnext]
        simp
      obtain ⟨⟨hidx, hkey⟩, hs⟩ | hr := hpend
      · cases hs' : (groupAlert a route limit s.shared pc).2.succeeded with
        | false => exact Or.inl ⟨w, a, route, _, rest, hw', hf, Or.inl ⟨⟨hidx, hkey⟩, hs'⟩⟩
        | true =>
          obtain ⟨act, hstep⟩ :=
            groupAlert_step hc.inv.mem limit rfl (hc.inv.call w a route pc rest hw)
          refine Or.inr ⟨a, route, ?_, hidx, hkey, ?_⟩
          · rw [received_of_ne (by simp), ← hf]
            exact hlast
          · rw [hnext]
            exact hstep.holds hs' hs
      · exact Or.inl ⟨w, a, route, _, rest, hw', hf, Or.inr hr⟩
  · exact Or.inl ⟨w, a, route, pc, rest,
      busy_stays he hw fun limit h => hop ⟨limit, h⟩, hf, hpend⟩

theorem version_next (hinj : Set.InjOn fingerprint (S : Set LabelSet)) {p : ℕ} {b : Alert}
    (hload : (next root s op).shared.mem.load i k = some p)
    (hb : (next root s op).shared.mem.stored p f = some b) :
    lastVersion (next root s op).received f = some b ∨ Pending (next root s op) i k f := by
  obtain ⟨hload', hb'⟩ | ⟨w, limit, r, pc, rest, hop, hw, hidx, hkey, hf⟩ :=
    stored_next hc he hload hb
  · obtain hlast | hpend := hc.version i k p f b hload' hb'
    · by_cases hop : ∃ w, op = .receive w
      · obtain ⟨w, rfl⟩ := hop
        cases hchan : s.chan with
        | nil => exact Or.inl (by simpa only [next, hchan] using hlast)
        | cons a chan =>
          by_cases hfp : fingerprint a.labels = f
          · obtain ⟨hb, hfb⟩ := mem_of_lastVersion hlast
            have hlabels : b.labels = a.labels :=
              hinj (hc.inv.labels b (List.mem_append_left _ hb))
                (hc.inv.labels a (by simp [State.delivered, hchan])) (hfb.trans hfp.symm)
            obtain ⟨r, hr, rfl, rfl⟩ := hc.placed i k p f b hload' hb'
            rw [groupKey_congr hlabels, ← hfp]
            exact Or.inr (pending_of_received hchan (hlabels ▸ hr))
          · rw [next_receive hchan, lastVersion_append, if_neg hfp]
            exact Or.inl hlast
      · rw [received_of_ne fun w h => hop ⟨w, h⟩]
        exact Or.inl hlast
    · obtain hpend' | ⟨a, r, hlast, rfl, rfl, q, hq, hstored⟩ := pending_next hc he hx hpend
      · exact Or.inr hpend'
      · obtain rfl : q = p := Option.some.inj (hq.symm.trans hload)
        rw [(mem_of_lastVersion hlast).2] at hstored
        exact Or.inl (hlast.trans (hstored.symm.trans hb))
  · subst hop hf
    rw [received_of_ne (by simp)]
    exact Or.inl (hc.worker w b r pc rest hw).2.1

theorem covered_next (hinj : Set.InjOn fingerprint (S : Set LabelSet))
    (hlast : lastVersion (next root s op).received f = some a) {r : Route}
    (hr : r ∈ root.matchNodes a.labels) :
    Holds (next root s op).shared.mem a r ∨ Pending (next root s op) r.idx (groupKey a r) f ∨
      RemovedResolved (next root s op) a r := by
  have hstep (hold : lastVersion s.received f = some a) :
      Holds (next root s op).shared.mem a r ∨ Pending (next root s op) r.idx (groupKey a r) f ∨
        RemovedResolved (next root s op) a r := by
    obtain hholds | hpend | ⟨x, hx', hrest⟩ := hc.covered f a hold r hr
    · obtain hholds' | hover | hrem := holds_next root hinj hc.inv he hholds
      · exact Or.inl hholds'
      · obtain ⟨b, w, limit, r', pc, rest, p, hba, hlabels, -, hw, -⟩ := hover
        have hb := (hc.worker w b r' pc rest hw).2.1
        rw [hlabels, (mem_of_lastVersion hold).2, hold] at hb
        exact absurd (Option.some.inj hb).symm hba
      · exact Or.inr (Or.inr (removed_of_removes hc hholds hrem))
    · obtain hpend' | ⟨b, r', hlast', hidx, hkey, hholds⟩ := pending_next hc he hx hpend
      · exact Or.inr (Or.inl hpend')
      · obtain rfl : b = a := Option.some.inj (hlast'.symm.trans hlast)
        refine Or.inl ?_
        rw [Holds, hidx, hkey] at hholds
        exact hholds
    · exact Or.inr (Or.inr ⟨x, removed_subset hx', hrest⟩)
  by_cases hop : ∃ w, op = .receive w
  · obtain ⟨w, rfl⟩ := hop
    cases hchan : s.chan with
    | nil => exact hstep (by simpa only [next, hchan] using hlast)
    | cons b chan =>
      rw [next_receive hchan, lastVersion_append] at hlast
      split_ifs at hlast with hfp
      · obtain rfl := Option.some.inj hlast
        rw [← hfp]
        exact Or.inr (Or.inl (pending_of_received hchan hr))
      · exact hstep hlast
  · rw [received_of_ne fun w h => hop ⟨w, h⟩] at hlast
    exact hstep hlast

theorem current_next (hinj : Set.InjOn fingerprint (S : Set LabelSet)) (ho : Ordered s op) :
    Current root n S (next root s op) where
  inv := inv_next hc.inv he
  worker w a route pc rest hw := worker_next hc he hx hw
  alone w w' a a' route route' pc pc' rest rest' hw hw' hfp := alone_next hc he hx hw hw' hfp
  versions a ha b hb hfp hupd := by
    obtain heq | ⟨c, rfl, heq⟩ := delivered_next root s op
    · rw [heq] at ha hb
      exact hc.versions a ha b hb hfp hupd
    · simp only [heq, List.mem_append, List.mem_singleton] at ha hb
      obtain ha | rfl := ha
      · obtain hb | rfl := hb
        · exact hc.versions a ha b hb hfp hupd
        · exact absurd hupd (ho a ha hfp).ne
      · obtain hb | rfl := hb
        · exact absurd hupd (ho b hb hfp.symm).ne'
        · rfl
  placed i k p f b hload hb := placed_next hc he hload hb
  version i k p f b hload hb := version_next hc he hx hinj hload hb
  covered f a hlast r hr := covered_next hc he hx hinj hlast hr

end

theorem current_init : Current root n S (init : State) where
  inv := inv_init
  worker w a route pc rest h := by cases h
  alone w w' a a' route route' pc pc' rest rest' h := by cases h
  versions a ha := by simp [State.delivered, init] at ha
  placed i k p f b h := by simp [init, Memory.load] at h
  version i k p f b h := by simp [init, Memory.load] at h
  covered f a h := by simp [init, lastVersion] at h

/-- If no worker receives a version of an alert while another one is processing one,
and no call is refused, then whenever the channel is empty and the workers are idle,
every group that holds the alert holds the last delivered version, and for every
matching route this version is held or was removed by a flush as resolved. -/
theorem newest_version_kept (hinj : Set.InjOn fingerprint (S : Set LabelSet)) {ops : List Op}
    (hrun : Run (Guarded (fun s op => Ordered s op ∧ Exclusive n s op)
      (Fires (Enabled n S) (next root))) init ops s)
    (hq : Quiescent n s) (hlast : lastVersion s.delivered f = some a) :
    (∀ i k p b, s.shared.mem.load i k = some p → s.shared.mem.stored p f = some b → b = a) ∧
      ∀ r ∈ root.matchNodes a.labels, Holds s.shared.mem a r ∨ RemovedResolved s a r := by
  have hc : Current root n S s :=
    hrun.invariant (fun s op t hc hstep =>
      hstep.2.2 ▸ current_next hc hstep.2.1 hstep.1.2 hinj hstep.1.1) current_init
  have hidle : ∀ i k f, ¬ Pending s i k f := by
    rintro i k f ⟨w, b, route, pc, rest, hw, -⟩
    have hw' := hq.2 w (hc.worker w b route pc rest hw).1
    rw [hw] at hw'
    cases hw'
  rw [State.delivered, hq.1, List.append_nil] at hlast
  refine ⟨fun i k p b hload hb => ?_, fun r hr => ?_⟩
  · obtain hb' | hpend := hc.version i k p f b hload hb
    · exact Option.some.inj (hb'.symm.trans hlast)
    · exact absurd hpend (hidle i k f)
  · obtain hholds | hpend | hrem := hc.covered f a hlast r hr
    · exact Or.inl hholds
    · exact absurd hpend (hidle _ _ f)
    · exact Or.inr hrem

end

section
attribute [local instance] noRegexp fnvLabelHash

/-- Worker 0 receives the first version and worker 1 the second. Worker 1 creates the
group, and worker 0 inserts into it afterwards. -/
def overtakenRun : List Op :=
  [.deliver (nodeDown 0 1), .deliver (nodeDown 0 2), .receive 0, .receive 1] ++
    List.replicate 7 (.call 1 0) ++ List.replicate 3 (.call 0 0)

/-- The first version has overwritten the second, and no flush has run. -/
theorem overtakenRun_keeps_older :
    let s := overtakenRun.foldl (next singleRoute) init
    Set.InjOn fingerprint (({nodeLabels} : Finset LabelSet) : Set LabelSet) ∧
    Run (Guarded Ordered (Fires (Enabled 2 {nodeLabels}) (next singleRoute))) init
      overtakenRun s ∧
    Quiescent 2 s ∧ lastVersion s.delivered (fingerprint nodeLabels) = some (nodeDown 0 2) ∧
    s.shared.mem.load 0 (groupKey (nodeDown 0 2) singleRoute) = some 0 ∧
    s.shared.mem.stored 0 (fingerprint nodeLabels) = some (nodeDown 0 1) ∧
    s.removed.length = 0 :=
  ⟨by simp, Run.of_feasible_guarded (by decide +kernel), by decide +kernel, by decide +kernel,
    by decide +kernel, by decide +kernel, by decide +kernel⟩

/-- Worker 1 receives the second version when worker 0 has finished with the first. -/
def exclusiveRun : List Op :=
  [.deliver (nodeDown 0 1), .deliver (nodeDown 0 2), .receive 0] ++
    List.replicate 7 (.call 0 0) ++ [.receive 1] ++ List.replicate 3 (.call 1 0)

theorem newest_version_kept_exclusive :
    let s := exclusiveRun.foldl (next singleRoute) init
    s.shared.mem.stored 0 (fingerprint nodeLabels) = some (nodeDown 0 2) := by
  intro s
  have hrun : Run (Guarded (fun s op => Ordered s op ∧ Exclusive 2 s op)
      (Fires (Enabled 2 {nodeLabels}) (next singleRoute))) init exclusiveRun s :=
    Run.of_feasible_guarded (by decide +kernel)
  obtain ⟨b, hb⟩ : ∃ b, s.shared.mem.stored 0 (fingerprint nodeLabels) = some b :=
    Option.isSome_iff_exists.mp (by decide +kernel)
  have hlast : lastVersion s.delivered (fingerprint nodeLabels) = some (nodeDown 0 2) := by
    decide +kernel
  obtain ⟨hkept, -⟩ := newest_version_kept (by simp) hrun (by decide +kernel) hlast
  rw [hb, hkept 0 (groupKey (nodeDown 0 2) singleRoute) 0 b (by decide +kernel) hb]

end

end Alertmanager.Dispatcher
