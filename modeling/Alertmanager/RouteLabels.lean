import Alertmanager.AlertStore
import Alertmanager.Runs

/-!
# The cached labels of a route

`aggrGroup.RouteLabels` of `dispatch/dispatch.go` keeps the labels it has rendered,
tagged with the generation that it had read before it listed the alerts. Insertions
and the deletions of a flush change the alerts first and raise the generation
afterwards. Any number of calls and of changes run at once, one atomic step at a time;
each has a number of its own. The template engine is a parameter.
-/
namespace Alertmanager.RouteLabels

/-- `renderRouteLabels` of a group. -/
class Renderer where
  renderRouteLabels : List Alert → LabelSet

/-- What `RouteLabels` returns for the alerts it has listed. -/
def rendering [Renderer] (alerts : List Alert) : LabelSet :=
  if alerts.length = 0 then ∅ else Renderer.renderRouteLabels alerts

/-- `renderedRouteLabels`. -/
structure Rendered where
  gen : ℕ
  labels : LabelSet
  deriving DecidableEq

/-- Where a call of `RouteLabels` is, with what it has read. -/
inductive Call
  | idle
  | loaded (cached : Option Rendered)
  | missed (gen : ℕ)
  | listed (gen : ℕ) (alerts : List Alert)
  | returned (labels : LabelSet)
  deriving DecidableEq

/-- Where an insertion or a deletion is: `visible` is a change that the store shows and
for which the generation has not been raised yet, `void` one that was none. -/
inductive Change
  | idle
  | visible
  | completed
  | void
  deriving DecidableEq

structure State where
  alerts : AlertStore
  routeLabels : Option Rendered
  routeLabelsGen : ℕ
  calls : ℕ → Call
  changes : ℕ → Change

/-- A new group. -/
def init : State := ⟨.new, none, 0, fun _ => .idle, fun _ => .idle⟩

/-- The steps: `Set` of an insertion, `DeleteIfNotModified` of a flush,
`invalidateRouteLabels` of either, and the four accesses of a call. -/
inductive Op
  | set (k : ℕ) (a : Alert)
  | delete (k : ℕ) (resolved : List Alert)
  | invalidate (k : ℕ)
  | loadCached (i : ℕ)
  | loadGen (i : ℕ)
  | list (i : ℕ) (order : List Fingerprint)
  | store (i : ℕ)

/-- The generation is read, and the cached labels are returned if they are tagged with it. -/
def Call.loadGen (gen : ℕ) : Call → Call
  | .loaded (some r) => if r.gen = gen then .returned r.labels else .missed gen
  | .loaded none => .missed gen
  | c => c

def Call.list (alerts : List Alert) : Call → Call
  | .missed gen => .listed gen alerts
  | c => c

def State.setCall (s : State) (i : ℕ) (c : Call) : State :=
  { s with calls := Function.update s.calls i c }

def State.setChange (s : State) (k : ℕ) (c : Change) : State :=
  { s with changes := Function.update s.changes k c }

/-- The labels are stored with the generation of the call, and returned. -/
def State.store [Renderer] (s : State) (i : ℕ) : State :=
  match s.calls i with
  | .listed gen alerts =>
    { s with routeLabels := some ⟨gen, rendering alerts⟩ }.setCall i
      (.returned (rendering alerts))
  | _ => s

def next [LabelHash] [Renderer] (s : State) : Op → State
  | .set k a =>
    -- The store of a group has no limit, so that `Set` does not read the clock.
    let r := s.alerts.set 0 a
    { s with alerts := r.2 }.setChange k (if r.1 = none then .visible else .void)
  | .delete k resolved =>
    { s with alerts := s.alerts.deleteIfNotModified resolved true }.setChange k
      (if 0 < resolved.length then .visible else .void)
  | .invalidate k => { s with routeLabelsGen := s.routeLabelsGen + 1 }.setChange k .completed
  | .loadCached i => s.setCall i (.loaded s.routeLabels)
  | .loadGen i => s.setCall i ((s.calls i).loadGen s.routeLabelsGen)
  | .list i order => s.setCall i ((s.calls i).list (s.alerts.list order))
  | .store i => s.store i

def Call.isLoaded : Call → Bool
  | .loaded _ => true
  | _ => false

def Call.isMissed : Call → Bool
  | .missed _ => true
  | _ => false

def Call.isListed : Call → Bool
  | .listed .. => true
  | _ => false

/-- A call or a change takes its steps in order, and a list ranges over the store. -/
def Enabled (s : State) : Op → Prop
  | .set k _ | .delete k _ => s.changes k = .idle
  | .invalidate k => s.changes k = .visible
  | .loadCached i => s.calls i = .idle
  | .loadGen i => (s.calls i).isLoaded = true
  | .list i order => (s.calls i).isMissed = true ∧ GoMap.Ranges s.alerts.alerts order
  | .store i => (s.calls i).isListed = true

instance (s : State) : (op : Op) → Decidable (Enabled s op)
  | .set k _ | .delete k _ => inferInstanceAs (Decidable (s.changes k = .idle))
  | .invalidate k => inferInstanceAs (Decidable (s.changes k = .visible))
  | .loadCached i => inferInstanceAs (Decidable (s.calls i = .idle))
  | .loadGen i => inferInstanceAs (Decidable ((s.calls i).isLoaded = true))
  | .list i order => inferInstanceAs
      (Decidable ((s.calls i).isMissed = true ∧ GoMap.Ranges s.alerts.alerts order))
  | .store i => inferInstanceAs (Decidable ((s.calls i).isListed = true))

/-! ### The tags and the labels that are in use -/

/-- The labels that a call has in hand, with their tag. -/
def Call.rendered [Renderer] : Call → Option Rendered
  | .loaded cached => cached
  | .listed gen alerts => some ⟨gen, rendering alerts⟩
  | .idle | .missed _ | .returned _ => none

/-- The generation that a call has read. -/
def Call.gen : Call → Option ℕ
  | .missed gen | .listed gen _ => some gen
  | .idle | .loaded _ | .returned _ => none

section
variable [Renderer]

/-- What a step does to the calls, to the cache and to the generation: it leaves them
alone but for one call, which loads the cached labels, returns them if they are tagged
with the generation, reads the generation, lists the alerts, or stores what it has
rendered; or it raises the generation. -/
inductive Effect (s : State) : Op → State → Prop
  | change {op : Op} {t : State} (hcalls : t.calls = s.calls)
      (hcache : t.routeLabels = s.routeLabels) (hgen : t.routeLabelsGen = s.routeLabelsGen) :
      Effect s op t
  | invalidate (k : ℕ) : Effect s (.invalidate k)
      ({ s with routeLabelsGen := s.routeLabelsGen + 1 }.setChange k .completed)
  | load (i : ℕ) : Effect s (.loadCached i) (s.setCall i (.loaded s.routeLabels))
  | hit (i : ℕ) (r : Rendered) (hcall : (s.calls i).rendered = some r)
      (htag : r.gen = s.routeLabelsGen) : Effect s (.loadGen i) (s.setCall i (.returned r.labels))
  | miss (i : ℕ) : Effect s (.loadGen i) (s.setCall i (.missed s.routeLabelsGen))
  | list (i gen : ℕ) (order : List Fingerprint) (hcall : (s.calls i).gen = some gen) :
      Effect s (.list i order) (s.setCall i (.listed gen (s.alerts.list order)))
  | store (i : ℕ) (r : Rendered) (hcall : (s.calls i).rendered = some r)
      (hgen : (s.calls i).gen = some r.gen) :
      Effect s (.store i) ({ s with routeLabels := some r }.setCall i (.returned r.labels))

theorem next_effect [LabelHash] {s : State} {op : Op} (h : Enabled s op) :
    Effect s op (next s op) := by
  cases op with
  | set k a => exact .change rfl rfl rfl
  | delete k resolved => exact .change rfl rfl rfl
  | invalidate k => exact .invalidate k
  | loadCached i => exact .load i
  | loadGen i =>
    cases hcall : s.calls i with
    | loaded cached =>
      cases cached with
      | none =>
        simp only [next, hcall, Call.loadGen]
        exact .miss i
      | some r =>
        simp only [next, hcall, Call.loadGen]
        split_ifs with htag
        · exact .hit i r (by rw [hcall, Call.rendered]) htag
        · exact .miss i
    | _ => simp [Enabled, hcall, Call.isLoaded] at h
  | list i order =>
    cases hcall : s.calls i with
    | missed gen =>
      simp only [next, hcall, Call.list]
      exact .list i gen order (by rw [hcall, Call.gen])
    | _ => simp [Enabled, hcall, Call.isMissed] at h
  | store i =>
    cases hcall : s.calls i with
    | listed gen alerts =>
      simp only [next, State.store, hcall]
      exact .store i ⟨gen, rendering alerts⟩ (by rw [hcall, Call.rendered])
        (by rw [hcall, Call.gen])
    | _ => simp [Enabled, hcall, Call.isListed] at h

/-- All labels that are cached or in the hand of a call. -/
structure Carries (P : Rendered → Prop) (s : State) : Prop where
  cached : ∀ r ∈ s.routeLabels, P r
  held : ∀ i, ∀ r ∈ (s.calls i).rendered, P r

/-- Only a list brings in new labels. -/
theorem Carries.step {P P' : Rendered → Prop} {s t : State} {op : Op} (h : Carries P s)
    (heff : Effect s op t) (hP : ∀ r, P r → P' r)
    (hlist : ∀ i gen order, op = .list i order → (s.calls i).gen = some gen →
      P' ⟨gen, rendering (s.alerts.list order)⟩) : Carries P' t := by
  have hkept : Carries P' s :=
    ⟨fun r hr => hP r (h.cached r hr), fun i r hr => hP r (h.held i r hr)⟩
  -- Every other call has what it had.
  have hcall : ∀ {u : State} {i : ℕ} {c : Call}, u.calls = Function.update s.calls i c →
      (∀ r ∈ c.rendered, P' r) → ∀ j, ∀ r ∈ (u.calls j).rendered, P' r := by
    intro u i c hu hc j r hr
    rw [hu] at hr
    by_cases hj : j = i
    · subst hj
      rw [Function.update_self] at hr
      exact hc r hr
    · rw [Function.update_of_ne hj] at hr
      exact hkept.held j r hr
  cases heff with
  | change hcalls hcache hgen => exact ⟨hcache ▸ hkept.cached, hcalls ▸ hkept.held⟩
  | invalidate k => exact ⟨hkept.cached, hkept.held⟩
  | load i => exact ⟨hkept.cached, hcall rfl hkept.cached⟩
  | hit i r _ _ => exact ⟨hkept.cached, hcall rfl (by rintro r ⟨⟩)⟩
  | miss i => exact ⟨hkept.cached, hcall rfl (by rintro r ⟨⟩)⟩
  | list i gen order hgen =>
    refine ⟨hkept.cached, hcall rfl ?_⟩
    rintro r ⟨⟩
    exact hlist i gen order rfl hgen
  | store i r hr _ =>
    refine ⟨?_, hcall rfl (by rintro r ⟨⟩)⟩
    rintro r ⟨⟩
    exact hkept.held i r hr

/-- No tag is ahead of the generation. -/
structure Tagged (s : State) : Prop where
  rendered : Carries (fun r => r.gen ≤ s.routeLabelsGen) s
  gen : ∀ i, ∀ g ∈ (s.calls i).gen, g ≤ s.routeLabelsGen

theorem Effect.gen_le {s t : State} {op : Op} (h : Effect s op t) :
    s.routeLabelsGen ≤ t.routeLabelsGen := by
  cases h with
  | change _ _ hgen => exact hgen.ge
  | invalidate k => exact Nat.le_succ _
  | _ => exact le_rfl

/-- A call has read its generation before this step, or reads the current one. -/
theorem Effect.call_gen {s t : State} {op : Op} (h : Effect s op t) {i g : ℕ}
    (hg : (t.calls i).gen = some g) : (s.calls i).gen = some g ∨ g = s.routeLabelsGen := by
  have hother : ∀ {j : ℕ} {c : Call}, ((Function.update s.calls j c) i).gen = some g → i ≠ j →
      (s.calls i).gen = some g := by
    intro j c hu hj
    rwa [Function.update_of_ne hj] at hu
  cases h with
  | change hcalls _ _ =>
    rw [hcalls] at hg
    exact Or.inl hg
  | invalidate k => exact Or.inl hg
  | load j | hit j _ _ _ | store j _ _ _ =>
    by_cases hj : i = j
    · subst hj
      simp [State.setCall, Call.gen] at hg
    · exact Or.inl (hother hg hj)
  | miss j =>
    by_cases hj : i = j
    · subst hj
      simp only [State.setCall, Function.update_self, Call.gen, Option.some.injEq] at hg
      exact Or.inr hg.symm
    · exact Or.inl (hother hg hj)
  | list j gen order hgen =>
    by_cases hj : i = j
    · subst hj
      simp only [State.setCall, Function.update_self, Call.gen] at hg
      exact Or.inl (hgen.trans hg)
    · exact Or.inl (hother hg hj)

theorem tagged_step {s t : State} {op : Op} (h : Tagged s) (heff : Effect s op t) : Tagged t := by
  refine ⟨h.rendered.step heff (fun r hr => hr.trans heff.gen_le) ?_, fun i g hg => ?_⟩
  · intro i gen order _ hgen
    exact (h.gen i gen hgen).trans heff.gen_le
  · obtain hbefore | rfl := heff.call_gen hg
    · exact (h.gen i g hbefore).trans heff.gen_le
    · exact heff.gen_le

theorem tagged_init : Tagged init where
  rendered := ⟨by rintro r ⟨⟩, by rintro i r ⟨⟩⟩
  gen := by rintro i g ⟨⟩

/-! ### Labels that were rendered after a change -/

variable [LabelHash]

/-- The labels were rendered from a list that one of the steps has read. -/
def RenderedSince (s₁ : State) (past : List Op) (labels : LabelSet) : Prop :=
  ∃ before j order after, past = before ++ .list j order :: after ∧
    labels = rendering ((before.foldl next s₁).alerts.list order)

theorem RenderedSince.append {s₁ : State} {past : List Op} {labels : LabelSet}
    (h : RenderedSince s₁ past labels) (op : Op) : RenderedSince s₁ (past ++ [op]) labels := by
  obtain ⟨before, j, order, after, rfl, hlabels⟩ := h
  exact ⟨before, j, order, after ++ [op], by simp, hlabels⟩

/-- In the steps since `s₁`, labels with a later tag are labels from a later list. -/
structure Since (s₁ : State) (past : List Op) (s : State) : Prop where
  reached : s = past.foldl next s₁
  gen_le : s₁.routeLabelsGen ≤ s.routeLabelsGen
  rendered : Carries (fun r => s₁.routeLabelsGen < r.gen → RenderedSince s₁ past r.labels) s

theorem since_refl {s₁ : State} (h : Tagged s₁) : Since s₁ [] s₁ where
  reached := rfl
  gen_le := le_rfl
  rendered :=
    ⟨fun r hr hlt => absurd (h.rendered.cached r hr) (not_le.mpr hlt),
      fun i r hr hlt => absurd (h.rendered.held i r hr) (not_le.mpr hlt)⟩

theorem since_step {s₁ s t : State} {past : List Op} {op : Op} (h : Since s₁ past s)
    (hstep : Fires Enabled next s op t) : Since s₁ (past ++ [op]) t := by
  obtain ⟨hen, rfl⟩ := hstep
  have heff := next_effect hen
  refine ⟨?_, h.gen_le.trans heff.gen_le, ?_⟩
  · rw [h.reached, List.foldl_append, List.foldl_cons, List.foldl_nil]
  · refine h.rendered.step heff (fun r hr hlt => (hr hlt).append op) ?_
    rintro i gen order rfl - -
    exact ⟨past, i, order, [], rfl, by rw [h.reached]⟩

/-- The generation is raised before the change is completed. -/
structure Completing (s₁ : State) (k : ℕ) (s : State) : Prop where
  gen_le : s₁.routeLabelsGen ≤ s.routeLabelsGen
  change : s.changes k = .visible ∨ s₁.routeLabelsGen < s.routeLabelsGen

theorem completing_step {s₁ s t : State} {k : ℕ} {op : Op} (h : Completing s₁ k s)
    (hstep : Fires Enabled next s op t) : Completing s₁ k t := by
  obtain ⟨hen, rfl⟩ := hstep
  have hle := (next_effect hen).gen_le
  refine ⟨h.gen_le.trans hle, ?_⟩
  obtain hvisible | hlt := h.change
  · by_cases hop : op = .invalidate k
    · subst hop
      exact Or.inr (Nat.lt_succ_of_le h.gen_le)
    · left
      have hne : ∀ {k'}, s.changes k' = .idle → k ≠ k' := by
        rintro k' hidle rfl
        rw [hvisible] at hidle
        cases hidle
      cases op with
      | set k' a | delete k' resolved =>
        simp only [next, State.setChange, Function.update_of_ne (hne hen)]
        exact hvisible
      | invalidate k' =>
        have hk : k ≠ k' := by
          rintro rfl
          exact hop rfl
        simp only [next, State.setChange, Function.update_of_ne hk]
        exact hvisible
      | store i =>
        simp only [next, State.store]
        split
        · exact hvisible
        · exact hvisible
      | loadCached i | loadGen i | list i order => exact hvisible
  · exact Or.inr (hlt.trans_le hle)

/-- A call that has begun after the change was completed. -/
structure Late (s₁ : State) (i : ℕ) (past : List Op) (s : State) : Prop where
  since : Since s₁ past s
  completed : s₁.routeLabelsGen < s.routeLabelsGen
  gen : ∀ g ∈ (s.calls i).gen, s₁.routeLabelsGen < g
  returned : ∀ labels, s.calls i = .returned labels → RenderedSince s₁ past labels

theorem late_step {s₁ s t : State} {i : ℕ} {past : List Op} {op : Op} (h : Late s₁ i past s)
    (hstep : Fires Enabled next s op t) : Late s₁ i (past ++ [op]) t := by
  have hsince := since_step h.since hstep
  obtain ⟨hen, rfl⟩ := hstep
  have heff := next_effect hen
  refine ⟨hsince, h.completed.trans_le heff.gen_le, fun g hg => ?_, fun labels hret => ?_⟩
  · obtain hbefore | rfl := heff.call_gen hg
    · exact h.gen g hbefore
    · exact h.completed
  · have hother : ∀ {j : ℕ} {c : Call}, (Function.update s.calls j c) i = .returned labels →
        i ≠ j → RenderedSince s₁ (past ++ [op]) labels := by
      intro j c hu hj
      rw [Function.update_of_ne hj] at hu
      exact (h.returned labels hu).append op
    generalize hu : next s op = u at heff hret
    cases heff with
    | change hcalls _ _ =>
      rw [hcalls] at hret
      exact (h.returned labels hret).append op
    | invalidate k => exact (h.returned labels hret).append _
    | load j | miss j | list j _ _ _ =>
      by_cases hj : i = j
      · subst hj
        simp [State.setCall] at hret
      · exact hother hret hj
    | hit j r hr htag =>
      by_cases hj : i = j
      · subst hj
        simp only [State.setCall, Function.update_self, Call.returned.injEq] at hret
        subst hret
        exact (h.since.rendered.held i r hr (htag ▸ h.completed)).append _
      · exact hother hret hj
    | store j r hr hgen =>
      by_cases hj : i = j
      · subst hj
        simp only [State.setCall, Function.update_self, Call.returned.injEq] at hret
        subst hret
        exact (h.since.rendered.held i r hr (h.gen _ hgen)).append _
      · exact hother hret hj

/-- Cached labels are never stale: a call that starts after a change has raised the
generation returns labels rendered from a list that was read after the change was
visible in the store. -/
theorem routeLabels_never_stale {s₁ s₂ s₃ : State} {ops₀ ops₁ ops₂ : List Op} {k i : ℕ}
    {labels : LabelSet} (h₀ : Run (Fires Enabled next) init ops₀ s₁)
    (hvisible : s₁.changes k = .visible) (h₁ : Run (Fires Enabled next) s₁ ops₁ s₂)
    (hcompleted : s₂.changes k = .completed) (hidle : s₂.calls i = .idle)
    (h₂ : Run (Fires Enabled next) s₂ ops₂ s₃) (hreturned : s₃.calls i = .returned labels) :
    ∃ before j order after u, ops₁ ++ ops₂ = before ++ .list j order :: after ∧
      Run (Fires Enabled next) s₁ before u ∧ Enabled u (.list j order) ∧
      labels = rendering (u.alerts.list order) := by
  have htagged : Tagged s₁ :=
    h₀.invariant (fun s op t hs hstep => by
      obtain ⟨hen, rfl⟩ := hstep
      exact tagged_step hs (next_effect hen)) tagged_init
  have hsince : Since s₁ ops₁ s₂ :=
    h₁.history (I := Since s₁) (fun _ _ _ _ => since_step) (since_refl htagged)
  have hgen : s₁.routeLabelsGen < s₂.routeLabelsGen := by
    have hcompleting : Completing s₁ k s₂ :=
      h₁.invariant (I := Completing s₁ k) (fun _ _ _ => completing_step) ⟨le_rfl, Or.inl hvisible⟩
    refine hcompleting.change.resolve_left ?_
    rw [hcompleted]
    simp
  have hlate : Late s₁ i ops₁ s₂ :=
    { since := hsince
      completed := hgen
      gen := by simp [hidle, Call.gen]
      returned := by simp [hidle] }
  have hend : Late s₁ i (ops₁ ++ ops₂) s₃ :=
    h₂.history (I := Late s₁ i) (fun _ _ _ _ => late_step) hlate
  obtain ⟨before, j, order, after, hops, hlabels⟩ := hend.returned labels hreturned
  have hrun := h₁.append h₂
  rw [hops] at hrun
  obtain ⟨u, v, hbefore, hlist, -⟩ := hrun.split
  exact ⟨before, j, order, after, u, hops, hbefore, hlist.1, by rw [hlabels, hbefore.eq_foldl]⟩

end

section
attribute [local instance] fnvLabelHash

/-- A route label with the number of alerts. -/
local instance countRenderer : Renderer :=
  ⟨fun alerts => List.toFinmap [⟨str "alerts", str (toString alerts.length)⟩]⟩

def someAlert : Alert :=
  ⟨List.toFinmap [⟨str "alertname", str "Down"⟩], ∅, 1, 0, [], 1, false⟩

/-- A slow call lists the empty store before the insertion and overwrites the cache after
it. The next call finds the old tag and renders again. -/
theorem routeLabels_never_stale_slow_call :
    let ops₀ : List Op := [.loadCached 0, .loadGen 0, .list 0 [], .set 0 someAlert]
    let fps := [fingerprint someAlert.labels]
    let ops₁ : List Op :=
      [.invalidate 0, .loadCached 1, .loadGen 1, .list 1 fps, .store 1, .store 0]
    let ops₂ : List Op := [.loadCached 2, .loadGen 2, .list 2 fps, .store 2]
    let s₁ := ops₀.foldl next init
    ∃ before j order after u, ops₁ ++ ops₂ = before ++ .list j order :: after ∧
      Run (Fires Enabled next) s₁ before u ∧ Enabled u (.list j order) ∧
      List.toFinmap [⟨str "alerts", str "1"⟩] = rendering (u.alerts.list order) := by
  intro ops₀ fps ops₁ ops₂ s₁
  have h₀ : Run (Fires Enabled next) init ops₀ s₁ := Run.of_feasible (by decide +kernel)
  have h₁ : Run (Fires Enabled next) s₁ ops₁ (ops₁.foldl next s₁) :=
    Run.of_feasible (by decide +kernel)
  have h₂ : Run (Fires Enabled next) (ops₁.foldl next s₁) ops₂
      (ops₂.foldl next (ops₁.foldl next s₁)) := Run.of_feasible (by decide +kernel)
  exact routeLabels_never_stale (k := 0) (i := 2) h₀ (by decide +kernel) h₁ (by decide +kernel)
    (by decide +kernel) h₂ (by decide +kernel)

end

end Alertmanager.RouteLabels
