import Alertmanager.GroupMuting
import Alertmanager.ReceiverIntegrations
import Alertmanager.StagePhases

/-!
# The pipelines of a process

The dispatcher hands each flush of a group to the pipeline of its receiver. What the muting
stages leave is fanned out to the integrations, each of which goes through its own stages;
all of them, for all groups, write to one notification log, which is collected and merges
what other nodes have logged. Whatever the interleaving, a flush that ends without an error
has had each of its firing alerts sent by every integration unless the alert was muted, and
no `Notify` call carries a muted one.
-/
namespace Alertmanager.ReceiverPipelines

open Notify
open Nflog (Log MeshEntry stateKey)
open GroupMuting (Execution GroupMarker Intervener multiStage muteStage)

/-! ### What the muting stages leave -/

section
variable {τ : Type} {iv : Intervener τ} {opts : RouteOpts} {routeID groupKey : GoString}
  {m m' : GroupMarker} {e : Execution} {alerts passed : List Alert}

/-- The alerts of a flush that are neither inhibited nor silenced. -/
def unmuted (e : Execution) : List Alert :=
  e.alerts.filter fun a => !e.inhibited a.labels && !e.silenced a.labels

theorem mem_unmuted {a : Alert} : a ∈ unmuted e ↔
    a ∈ e.alerts ∧ e.inhibited a.labels = false ∧ e.silenced a.labels = false := by
  simp [unmuted]

theorem multiStage_mute (mutes : LabelSet → Bool) (ss : List GroupMuting.Stage) :
    multiStage (muteStage mutes :: ss) m alerts =
      multiStage ss m (alerts.filter fun a => !mutes a.labels) := by
  cases alerts with
  | nil => cases ss <;> rfl
  | cons a alerts => rfl

theorem multiStage_ok :
    multiStage [fun m alerts => (m, .ok alerts)] m alerts = (m, .ok alerts) := by
  cases alerts <;> rfl

/-- What the stages before the receiver hand on: at a muted time nothing, else the alerts
that are not muted. -/
theorem exec_passed (hdef : iv.Defines opts) (hreceiver : e.receiver = .ok)
    (h : e.exec iv opts routeID groupKey m = (m', .ok passed)) :
    passed = if iv.Muting opts e.now then [] else unmuted e := by
  unfold Execution.exec at h
  by_cases hnil : e.alerts = []
  · rw [hnil, GroupMuting.multiStage_nil] at h
    obtain rfl := Except.ok.inj (Prod.mk.inj h).2
    simp [unmuted, hnil]
  · rw [GroupMuting.multiStage_cons _ _ m hnil] at h
    cases hready : e.ready with
    | error err => simp [GroupMuting.gossipSettleStage, hready] at h
    | ok u =>
      simp only [GroupMuting.gossipSettleStage, hready] at h
      rw [multiStage_mute] at h
      have hunmuted : unmuted e = (e.alerts.filter fun a => !e.inhibited a.labels).filter
          fun a => !e.silenced a.labels := by
        rw [List.filter_filter, unmuted]
        simp only [Bool.and_comm]
      rw [hunmuted]
      by_cases hpassing : (e.alerts.filter fun a => !e.inhibited a.labels) = []
      · rw [hpassing, GroupMuting.multiStage_nil] at h
        rw [← Except.ok.inj (Prod.mk.inj h).2, hpassing, List.filter_nil, ite_self]
      · obtain ⟨mutedBy, htime, -⟩ := GroupMuting.timeStages_eq m _ hdef hpassing
          [muteStage e.silenced, fun m alerts => (m, e.receiver alerts)]
        rw [htime, multiStage_mute, hreceiver, multiStage_ok] at h
        rw [← Except.ok.inj (Prod.mk.inj h).2]
        split_ifs <;> rfl

end

/-! ### The process -/

/-- What a process has from its configuration: the time intervals and the receivers of
`reload`, and for each group the options and the ID of its route, and its key. -/
structure Process (γ : Type*) (τ : Type) where
  intervener : Intervener τ
  receivers : GoMap GoString (List NamedIntegration)
  opts : γ → RouteOpts
  routeID : γ → GoString
  groupKey : γ → GoString

/-- A `Notify` call that has succeeded, by an integration for a flush of a group. -/
structure Call (γ : Type*) where
  index : γ × ℕ
  flush : Execution
  alerts : List Alert

/-- `flow` has the flushes whose alerts are with the integrations; `finished` tells which
ones have ended without an error. -/
structure State (γ : Type*) where
  time : ℤ
  log : Log
  marker : GroupMarker
  flow : γ → Option Execution
  phase : γ × ℕ → Phase
  calls : List (Call γ)
  finished : List (γ × Execution × Bool)

inductive Op (γ : Type*)
  | tick (d : ℤ)
  | flush (g : γ) (e : Execution) (wait : ℤ)
  | stage (g : γ) (k : ℕ) (op : StageOp)
  | finish (g : γ)
  | merge (b : Nflog.Payload) (order : List GoString)
  | gc (order : List GoString)

section
variable {γ : Type*} {τ : Type}

/-- The integrations of the stage that `RoutingStage` finds for a group. -/
def Process.stages (P : Process γ τ) (g : γ) : Option (List Integration) :=
  (P.receivers.lookup (P.opts g).receiver).map (createReceiverStage (P.opts g).receiver)

/-- The integration at an index of the fanout. -/
def Process.target (P : Process γ τ) (i : γ × ℕ) : Option Target :=
  (P.stages i.1).bind fun stages =>
    stages[i.2]?.map fun integration => ⟨integration, P.groupKey i.1, (P.opts i.1).repeatInterval⟩

/-- How an integration of the fanout has ended, if it has: with or without an error. -/
def ended : Phase → Option Bool
  | .returned _ (.ok _) => some true
  | .returned _ (.error _) | .canceled => some false
  | .idle | .waiting _ _ _ | .retrying _ _ _ | .logging _ _ _ => none

/-- The stages before the `FanoutStage`, executed for a flush. -/
def Process.handed (P : Process γ τ) (g : γ) (e : Execution) (m : GroupMarker) :
    GroupMarker × Except GoString (List Alert) :=
  Execution.exec { e with receiver := .ok } P.intervener (P.opts g) (P.routeID g) (P.groupKey g) m

variable [DecidableEq γ]

/-- The alerts are with the integrations, which all wait at first. -/
def Process.fanout (P : Process γ τ) (s : State γ) (g : γ) (e : Execution) (wait : ℤ)
    (alerts : List Alert) : State γ :=
  { s with
    flow := Function.update s.flow g (some e)
    phase := fun i =>
      if i.1 = g then
        match P.target i with
        | some T => .waiting (T.context e.now) alerts (s.time + wait)
        | none => .idle
      else s.phase i }

/-- `RoutingStage.Exec` for a flush, up to the `FanoutStage`. -/
def Process.start (P : Process γ τ) (s : State γ) (g : γ) (e : Execution) (wait : ℤ) : State γ :=
  match P.stages g with
  | none => { s with finished := s.finished ++ [(g, e, false)] }
  | some _ =>
    match P.handed g e s.marker with
    | (m, .error _) => { s with marker := m, finished := s.finished ++ [(g, e, false)] }
    | (m, .ok []) => { s with marker := m, finished := s.finished ++ [(g, e, true)] }
    | (m, .ok (a :: as)) => P.fanout { s with marker := m } g e wait (a :: as)

def State.move (s : State γ) (i : γ × ℕ) (e : Execution) (p : Phase) (out : Output) : State γ :=
  { s with
    log := out.log
    phase := Function.update s.phase i p
    calls := s.calls ++ out.notified.map fun sent => ⟨i, e, sent⟩ }

/-- The steps. A group has one flush at a time. A message that is merged is an entry of
another node, and `elsewhere` are the alerts that were sent there under each key. -/
inductive Step [XXHash] [Nflog.Proto] (P : Process γ τ) (elsewhere : GoString → UInt64 → Prop) :
    State γ → Op γ → State γ → Prop
  | tick {s : State γ} (d : ℤ) (hd : 0 ≤ d) :
      Step P elsewhere s (.tick d) { s with time := s.time + d }
  | flush {s : State γ} (g : γ) (e : Execution) (wait : ℤ) (hidle : s.flow g = none)
      (flushNow : ℤ) (hflush : flushNow ≤ s.time) (stored : List Alert)
      (halerts : e.alerts = (AggrGroup.copies flushNow stored).1) :
      Step P elsewhere s (.flush g e wait) (P.start s g e wait)
  | stage {s : State γ} (g : γ) (k : ℕ) {op : StageOp} {e : Execution} {T : Target} {p : Phase}
      {out : Output} (hflow : s.flow g = some e) (hT : P.target (g, k) = some T)
      (h : Move T s.time s.log op (s.phase (g, k)) p out) :
      Step P elsewhere s (.stage g k op) (s.move (g, k) e p out)
  | finish {s : State γ} (g : γ) {e : Execution} {stages : List Integration}
      (hflow : s.flow g = some e) (hstages : P.stages g = some stages)
      (hended : ∀ k < stages.length, ended (s.phase (g, k)) ≠ none) :
      Step P elsewhere s (.finish g)
        { s with
          flow := Function.update s.flow g none
          finished := s.finished ++ [(g, e, (List.range stages.length).all fun k =>
            ended (s.phase (g, k)) == some true)] }
  | merge {s : State γ} {b : Nflog.Payload} (entry : MeshEntry) (hmarshal : entry.marshal = some b)
      (htrue : ∀ h ∈ entry.entry.firingAlerts, elsewhere entry.key h) (order : List GoString) :
      Step P elsewhere s (.merge b order) { s with log := (s.log.merge b s.time order).2.1 }
  | gc {s : State γ} (order : List GoString) :
      Step P elsewhere s (.gc order) { s with log := (s.log.gc s.time order).2.1 }

end

/-! ### The entries of the integrations -/

section
variable {γ : Type*} {τ : Type} {P : Process γ τ}

theorem target_eq_some {i : γ × ℕ} {T : Target} (h : P.target i = some T) :
    ∃ integrations, P.receivers.lookup (P.opts i.1).receiver = some integrations ∧
      (createReceiverStage (P.opts i.1).receiver integrations)[i.2]? = some T.integration ∧
      T.key = stateKey (P.groupKey i.1) T.integration.recv := by
  obtain ⟨stages, hstages, hget⟩ := Option.bind_eq_some_iff.mp h
  obtain ⟨integrations, hlookup, rfl⟩ := Option.map_eq_some_iff.mp hstages
  obtain ⟨integration, hintegration, rfl⟩ := Option.map_eq_some_iff.mp hget
  exact ⟨integrations, hlookup, hintegration, rfl⟩

theorem lt_of_target {g : γ} {k : ℕ} {T : Target} (h : P.target (g, k) = some T)
    {stages : List Integration} (hstages : P.stages g = some stages) : k < stages.length := by
  obtain ⟨stages', hstages', hget⟩ := Option.bind_eq_some_iff.mp h
  obtain rfl := Option.some.inj (hstages.symm.trans hstages')
  obtain ⟨integration, hintegration, -⟩ := Option.map_eq_some_iff.mp hget
  exact (List.getElem?_eq_some_iff.mp hintegration).1

theorem ended_eq_true {p : Phase} (h : ended p = some true) :
    ∃ alerts rest, p = .returned alerts (.ok rest) := by
  cases p with
  | returned alerts r =>
    cases r with
    | error err => cases h
    | ok rest => exact ⟨alerts, rest, rfl⟩
  | idle | waiting | retrying | logging | canceled => cases h

/-- The integrations of every receiver have entries of their own, and no two groups have the
same key. -/
structure Process.WellFormed (P : Process γ τ) : Prop where
  separate : ∀ name integrations, P.receivers.lookup name = some integrations →
    Separate name integrations
  groupKey_injective : Function.Injective P.groupKey

/-- Different integrations, or different groups, have different keys. -/
theorem Process.WellFormed.eq_of_key (hP : P.WellFormed) {i j : γ × ℕ} {T T' : Target}
    (hi : P.target i = some T) (hj : P.target j = some T') (h : T.key = T'.key) : i = j := by
  obtain ⟨is, his, hgeti, hkeyi⟩ := target_eq_some hi
  obtain ⟨js, hjs, hgetj, hkeyj⟩ := target_eq_some hj
  rw [hkeyi, hkeyj] at h
  obtain ⟨hgroup, -, hindex⟩ := eq_of_stateKey hP.separate his hjs hgeti hgetj h
  exact Prod.ext (hP.groupKey_injective hgroup) hindex

/-! ### Runs -/

variable [XXHash] {elsewhere : GoString → UInt64 → Prop} {s s' : State γ} {op : Op γ}

/-- An alert with this hash was sent as firing under the key: elsewhere, or by the
integration with this index. -/
def State.Sent (elsewhere : GoString → UInt64 → Prop) (s : State γ) (i : γ × ℕ) (key : GoString)
    (h : UInt64) : Prop :=
  elsewhere key h ∨ ∃ c ∈ s.calls, c.index = i ∧ ∃ a ∈ c.alerts, a.endsAt = 0 ∧ hashAlert a = h

theorem State.Sent.mono (hcalls : s.calls ⊆ s'.calls) {i : γ × ℕ} {key : GoString} {h : UInt64}
    (hs : s.Sent elsewhere i key h) : s'.Sent elsewhere i key h :=
  hs.imp_right fun ⟨c, hc, hrest⟩ => ⟨c, hcalls hc, hrest⟩

/-- What is with the integrations, and what they have sent, is not muted. -/
structure Unmuted (P : Process γ τ) (s : State γ) : Prop where
  staged : ∀ i T, P.target i = some T → (s.phase i).Staged T s.time
  flow : ∀ g e, s.flow g = some e → ¬P.intervener.Muting (P.opts g) e.now ∧
    ∀ k T, P.target (g, k) = some T → (s.phase (g, k)).Carries (unmuted e)
  calls : ∀ c ∈ s.calls, ¬P.intervener.Muting (P.opts c.index.1) c.flush.now ∧
    c.alerts ⊆ unmuted c.flush

/-- The phases, the log and the ended flushes tell the truth about what was sent. -/
structure Sound (P : Process γ τ) (elsewhere : GoString → UInt64 → Prop) (s : State γ) : Prop
    extends Unmuted P s where
  told : ∀ i T, P.target i = some T → (s.phase i).Told (s.Sent elsewhere i T.key)
  entry : ∀ i T, P.target i = some T → ∀ e, s.log.st.lookup T.key = some e →
    ∀ h ∈ e.entry.firingAlerts, s.Sent elsewhere i T.key h
  finished : ∀ g e, (g, e, true) ∈ s.finished → ¬P.intervener.Muting (P.opts g) e.now →
    ∀ k T, P.target (g, k) = some T → ∀ a ∈ unmuted e, a.endsAt = 0 →
      s.Sent elsewhere (g, k) T.key (hashAlert a)

variable [DecidableEq γ]

section
variable (hdef : ∀ g, P.intervener.Defines (P.opts g))
include hdef

omit [XXHash] in
/-- A flush fails, or the muting stages leave nothing, or what they leave goes to the
integrations. -/
theorem start_cases (s : State γ) (g : γ) (e : Execution) (wait : ℤ) :
    ∃ m, P.start s g e wait = { s with marker := m, finished := s.finished ++ [(g, e, false)] } ∨
      (P.start s g e wait = { s with marker := m, finished := s.finished ++ [(g, e, true)] } ∧
        (¬P.intervener.Muting (P.opts g) e.now → unmuted e = [])) ∨
      P.start s g e wait = P.fanout { s with marker := m } g e wait (unmuted e) ∧
        ¬P.intervener.Muting (P.opts g) e.now ∧ unmuted e ≠ [] := by
  unfold Process.start
  split
  · exact ⟨s.marker, Or.inl rfl⟩
  · rcases hexec : P.handed g e s.marker with ⟨m, err | passed⟩
    · exact ⟨m, Or.inl rfl⟩
    · have hpassed := exec_passed (hdef g) rfl hexec
      change passed = if P.intervener.Muting (P.opts g) e.now then [] else unmuted e at hpassed
      cases passed with
      | nil =>
        refine ⟨m, Or.inr (Or.inl ⟨rfl, fun hmuting => ?_⟩)⟩
        rw [if_neg hmuting] at hpassed
        exact hpassed.symm
      | cons a as =>
        have hmuting : ¬P.intervener.Muting (P.opts g) e.now := by
          intro hmuting
          rw [if_pos hmuting] at hpassed
          cases hpassed
        rw [if_neg hmuting] at hpassed
        refine ⟨m, Or.inr (Or.inr ⟨?_, hmuting, hpassed ▸ List.cons_ne_nil a as⟩)⟩
        rw [← hpassed]

theorem Unmuted.start (hs : Unmuted P s) {g : γ} (e : Execution) (wait : ℤ) {flushNow : ℤ}
    (hflush : flushNow ≤ s.time) {stored : List Alert}
    (halerts : e.alerts = (AggrGroup.copies flushNow stored).1) :
    Unmuted P (P.start s g e wait) := by
  obtain ⟨m, hstart | ⟨hstart, -⟩ | ⟨hstart, hmuting, hne⟩⟩ := start_cases hdef s g e wait
  · rw [hstart]
    exact ⟨hs.staged, hs.flow, hs.calls⟩
  · rw [hstart]
    exact ⟨hs.staged, hs.flow, hs.calls⟩
  · rw [hstart]
    refine ⟨fun i T hT => ?_, fun g' e' he' => ?_, hs.calls⟩
    · simp only [Process.fanout, hT]
      split_ifs
      · have hsub : (unmuted e).Sublist (AggrGroup.copies flushNow stored).1 := by
          rw [← halerts]
          exact List.filter_sublist
        exact ⟨⟨e.now, rfl⟩, (settled_copies hsub).mono hflush, hne⟩
      · exact hs.staged i T hT
    · simp only [Process.fanout, Function.update_apply] at he' ⊢
      split_ifs at he' ⊢ with hg
      · obtain rfl := Option.some.inj he'
        rw [hg]
        refine ⟨hmuting, fun k T hT => ?_⟩
        simp only [hT]
        rfl
      · exact hs.flow g' e' he'

theorem unmuted_step [Nflog.Proto] (hs : Unmuted P s)
    (h : Step P elsewhere s op s') : Unmuted P s' := by
  cases h with
  | tick d hd =>
    refine ⟨fun i T hT => ?_, hs.flow, hs.calls⟩
    exact (hs.staged i T hT).mono (by simp only; omega)
  | flush g e wait hidle flushNow hflush stored halerts =>
    exact hs.start hdef e wait hflush halerts
  | @stage g k o e T p out hflow hT h =>
    obtain ⟨hmuting, hcarries⟩ := hs.flow g e hflow
    have hout := h.outcome (hs.staged _ T hT)
    obtain ⟨hcarries', hsub⟩ := hout.carries (hcarries k T hT)
    refine ⟨?_, fun g' e' he' => ⟨(hs.flow g' e' he').1, fun k' T' hT' => ?_⟩, fun c hc => ?_⟩
    · refine (Function.forall_update_iff s.phase fun i q => ∀ T, P.target i = some T →
        q.Staged T s.time).mpr ⟨fun T' hT' => ?_, fun i _ => hs.staged i⟩
      obtain rfl := Option.some.inj (hT.symm.trans hT')
      exact hout.staged (hs.staged _ T hT)
    · simp only [State.move, Function.update_apply]
      split_ifs with hi
      · obtain ⟨rfl, rfl⟩ := Prod.mk.inj hi
        obtain rfl := Option.some.inj (hflow.symm.trans he')
        exact hcarries'
      · exact (hs.flow g' e' he').2 k' T' hT'
    · obtain hc | hc := List.mem_append.mp hc
      · exact hs.calls c hc
      · obtain ⟨sent, hsent, rfl⟩ := List.mem_map.mp hc
        exact ⟨hmuting, hsub sent hsent⟩
  | finish g hflow hstages hended =>
    refine ⟨hs.staged, fun g' e' he' => ?_, hs.calls⟩
    simp only [Function.update_apply] at he'
    split_ifs at he'
    exact hs.flow g' e' he'
  | merge entry hmarshal htrue order => exact ⟨hs.staged, hs.flow, hs.calls⟩
  | gc order => exact ⟨hs.staged, hs.flow, hs.calls⟩

end

variable [Nflog.Proto]

theorem Sound.move (hP : P.WellFormed) (hs : Sound P elsewhere s) {g : γ} {k : ℕ} {o : StageOp}
    {e : Execution} {T : Target} {p : Phase} {out : Output} (hT : P.target (g, k) = some T)
    (h : Move T s.time s.log o (s.phase (g, k)) p out)
    (hunmuted : Unmuted P (s.move (g, k) e p out)) :
    Sound P elsewhere (s.move (g, k) e p out) := by
  have hout := h.outcome (hs.staged _ T hT)
  obtain ⟨htold, hentry, -⟩ := hout.truthful (hs.told _ T hT) (hs.entry _ T hT)
  have hmono : s.calls ⊆ (s.move (g, k) e p out).calls := List.subset_append_left _ _
  refine ⟨hunmuted, ?_, ?_, ?_⟩
  · refine (Function.forall_update_iff s.phase fun i q => ∀ T, P.target i = some T →
      q.Told ((s.move (g, k) e p out).Sent elsewhere i T.key)).mpr
        ⟨fun T' hT' => ?_, fun i _ T' hT' => (hs.told i T' hT').mono fun h hh => hh.mono hmono⟩
    obtain rfl := Option.some.inj (hT.symm.trans hT')
    refine htold.mono fun h hh => hh.elim (fun hh => hh.mono hmono) fun ⟨sent, hsent, ha⟩ => ?_
    exact Or.inr ⟨_, List.mem_append_right _ (List.mem_map_of_mem hsent), rfl, ha⟩
  · intro i T' hT' e' he' h hh
    by_cases hkey : T'.key = T.key
    · obtain rfl := hP.eq_of_key hT' hT hkey
      obtain rfl := Option.some.inj (hT.symm.trans hT')
      exact (hentry e' he' h hh).mono hmono
    · have hsame : out.log.st.lookup T'.key = some e' := he'
      rw [hout.lookup_of_ne hkey] at hsame
      exact (hs.entry i T' hT' e' hsame h hh).mono hmono
  · intro g' e' he' hmuting' k' T' hT' a ha hend
    exact (hs.finished g' e' he' hmuting' k' T' hT' a ha hend).mono hmono

theorem sound_step (hdef : ∀ g, P.intervener.Defines (P.opts g)) (hP : P.WellFormed)
    (hs : Sound P elsewhere s) (h : Step P elsewhere s op s') : Sound P elsewhere s' := by
  have hunmuted := unmuted_step hdef hs.toUnmuted h
  cases h with
  | tick d hd => exact ⟨hunmuted, hs.told, hs.entry, hs.finished⟩
  | flush g e wait hidle flushNow hflush stored halerts =>
    obtain ⟨m, hstart | ⟨hstart, hnone⟩ | ⟨hstart, -, -⟩⟩ := start_cases hdef s g e wait
    · rw [hstart] at hunmuted ⊢
      refine ⟨hunmuted, hs.told, hs.entry, fun g' e' he' => hs.finished g' e' ?_⟩
      simpa using he'
    · rw [hstart] at hunmuted ⊢
      refine ⟨hunmuted, hs.told, hs.entry, fun g' e' he' hmuting k T hT a ha => ?_⟩
      obtain he' | he' := List.mem_append.mp he'
      · exact hs.finished g' e' he' hmuting k T hT a ha
      · obtain ⟨rfl, rfl, -⟩ : g' = g ∧ e' = e ∧ true = true := by simpa using he'
        rw [hnone hmuting] at ha
        cases ha
    · rw [hstart] at hunmuted ⊢
      refine ⟨hunmuted, fun i T hT => ?_, hs.entry, hs.finished⟩
      simp only [Process.fanout, hT]
      split_ifs
      · trivial
      · exact hs.told i T hT
  | stage g k hflow hT h => exact hs.move hP hT h hunmuted
  | @finish g e stages hflow hstages hended =>
    refine ⟨hunmuted, hs.told, hs.entry, fun g' e' he' hmuting' k T hT a ha hend => ?_⟩
    obtain he' | he' := List.mem_append.mp he'
    · exact hs.finished g' e' he' hmuting' k T hT a ha hend
    · simp only [List.mem_singleton, Prod.mk.injEq] at he'
      obtain ⟨rfl, rfl, hall⟩ := he'
      have hk := List.mem_range.mpr (lt_of_target hT hstages)
      obtain ⟨as, rest, hphase⟩ := ended_eq_true
        (beq_iff_eq.mp (List.all_eq_true.mp hall.symm k hk))
      have htold := hs.told _ T hT
      have hcarries := (hs.flow g' e' hflow).2 k T hT
      rw [hphase] at htold hcarries
      obtain rfl : as = unmuted e' := hcarries
      exact htold _ (List.mem_map_of_mem (List.mem_filter.mpr ⟨ha, by simpa using hend⟩))
  | merge entry hmarshal htrue order =>
    refine ⟨hunmuted, hs.told, fun i T hT e he h hh => ?_, hs.finished⟩
    obtain hold | ⟨hkey, hnew⟩ := Log.lookup_merge_cases hmarshal s.log s.time order T.key
    · exact hs.entry i T hT e (hold ▸ he) h hh
    · obtain rfl := Option.some.inj (hnew.symm.trans he)
      exact Or.inl (hkey ▸ htrue h hh)
  | gc order =>
    refine ⟨hunmuted, hs.told, fun i T hT e he => ?_, hs.finished⟩
    exact hs.entry i T hT e (Nflog.lookup_of_gcLoop s.time order 0 he)

/-- A process that has started nothing yet. -/
structure Initial (s : State γ) : Prop where
  flow : ∀ g, s.flow g = none
  phase : ∀ i, s.phase i = .idle
  calls : s.calls = []
  finished : s.finished = []

omit [DecidableEq γ] [Nflog.Proto] in
theorem Initial.unmuted (hs : Initial s) : Unmuted P s where
  staged i T _ := by
    rw [hs.phase i]
    trivial
  flow g e he := by
    rw [hs.flow g] at he
    cases he
  calls c hc := by
    rw [hs.calls] at hc
    cases hc

omit [DecidableEq γ] [Nflog.Proto] in
theorem Initial.sound (hs : Initial s) (hlog : ∀ i T, P.target i = some T →
    ∀ e, s.log.st.lookup T.key = some e → ∀ h ∈ e.entry.firingAlerts, elsewhere T.key h) :
    Sound P elsewhere s where
  toUnmuted := hs.unmuted
  told i T _ := by
    rw [hs.phase i]
    trivial
  entry i T hT e he h hh := Or.inl (hlog i T hT e he h hh)
  finished g e he := by
    rw [hs.finished] at he
    cases he

variable {s₀ : State γ} {ops : List (Op γ)}

/-- If a flush at a time that is not muted has ended without an error, then every integration
of its receiver has sent each of its firing alerts that is neither inhibited nor silenced:
for this flush or an earlier one, or on a node that has logged it. The receivers are those
that `reload` builds. -/
theorem sent_of_finished (hdef : ∀ g, P.intervener.Defines (P.opts g))
    {new : GoString → ℕ → Except GoString Bool} {active : List GoString}
    {rcvs : List ReceiverConfig}
    (hbuild : buildReceivers (buildReceiverIntegrations new) active ∅ rcvs = .ok P.receivers)
    (hrcvs : ∀ nc ∈ rcvs, (47 ∉ nc.name ∧ 58 ∉ nc.name) ∧ ∀ c ∈ configured nc, c.2 ≤ 2 ^ 32)
    (hkeys : Function.Injective P.groupKey) (hinit : Initial s₀)
    (hlog : ∀ i T, P.target i = some T → ∀ e, s₀.log.st.lookup T.key = some e →
      ∀ h ∈ e.entry.firingAlerts, elsewhere T.key h)
    (hrun : Run (Step P elsewhere) s₀ ops s) {g : γ} {e : Execution}
    (hfinished : (g, e, true) ∈ s.finished) (hmuting : ¬P.intervener.Muting (P.opts g) e.now)
    {k : ℕ} {T : Target} (hT : P.target (g, k) = some T) {a : Alert} (ha : a ∈ e.alerts)
    (hfiring : a.endsAt = 0) (hinhibited : e.inhibited a.labels = false)
    (hsilenced : e.silenced a.labels = false) :
    s.Sent elsewhere (g, k) T.key (hashAlert a) := by
  have hP : P.WellFormed := ⟨separate_of_buildReceivers hrcvs (by simp) hbuild, hkeys⟩
  have hsound := hrun.invariant (fun _ _ _ => sound_step hdef hP) (hinit.sound hlog)
  exact hsound.finished g e hfinished hmuting k T hT a
    (mem_unmuted.mpr ⟨ha, hinhibited, hsilenced⟩) hfiring

end

section
attribute [local instance] fnvXXHash Nflog.zeroProto

/-- A team with a topic and a project. -/
def team : ReceiverConfig :=
  { ReceiverConfig.named (str "team") with snsConfigs := [none], jiraConfigs := [none] }

/-- The team is not notified at night. -/
def teamProcess : Process Unit (ℤ × ℤ) where
  intervener := GroupMuting.nightIntervener
  receivers := (∅ : GoMap GoString (List NamedIntegration)).insert (str "team")
    [⟨true, str "sns", 0⟩, ⟨true, str "jira", 0⟩]
  opts _ := { GroupMuting.nightOpts with receiver := str "team", repeatInterval := 50 }
  routeID _ := str "r"
  groupKey _ := str "g"

theorem defined_team (g : Unit) : teamProcess.intervener.Defines (teamProcess.opts g) :=
  ⟨GroupMuting.night_defined.mute, GroupMuting.night_defined.active⟩

def teamTopic : Target :=
  ⟨⟨true, str "team", str "sns", 0⟩, str "g", (teamProcess.opts ()).repeatInterval⟩

/-- A flush in the day, of two alerts the second of which is silenced. -/
def dayFlush : Execution where
  now := 10
  alerts := [diskFull "x" 0, diskFull "y" 0]
  ready := .ok ()
  inhibited _ := false
  silenced labels := labels.lookup (str "instance") == some (str "y")
  receiver := .ok

def beforeFlush : State Unit where
  time := 10
  log := emptyLog
  marker := ∅
  flow _ := none
  phase _ := .idle
  calls := []
  finished := []

/-- The two integrations take their steps in turns. -/
def dayRun : List (Op Unit) :=
  [.flush () dayFlush 0, .stage () 0 .dedup, .stage () 1 .dedup,
    .stage () 1 (.retry [.tick .success] id), .stage () 0 (.retry [.tick .success] id),
    .stage () 0 .setNotifies, .stage () 1 .setNotifies, .finish ()]

set_option maxRecDepth 4000 in
theorem run_day : ∃ s, Run (Step teamProcess fun _ _ => False) beforeFlush dayRun s ∧
    s.finished = [((), dayFlush, true)] ∧
    s.calls = [⟨((), 1), dayFlush, [diskFull "x" 0]⟩, ⟨((), 0), dayFlush, [diskFull "x" 0]⟩] := by
  have hrun : Run (Step teamProcess fun _ _ => False) beforeFlush dayRun _ :=
    .cons (.flush () dayFlush 0 rfl 10 le_rfl [diskFull "x" 0, diskFull "y" 0] rfl)
    (.cons (.stage () 0 rfl rfl (.dedup (by decide +kernel) rfl))
    (.cons (.stage () 1 rfl rfl (.dedup (by decide +kernel) rfl))
    (.cons (.stage () 1 rfl rfl (.retry rfl))
    (.cons (.stage () 0 rfl rfl (.retry rfl))
    (.cons (.stage () 0 rfl rfl (.setNotifies rfl))
    (.cons (.stage () 1 rfl rfl (.setNotifies rfl))
    (.cons (.finish () rfl rfl (by decide +kernel)) (.nil _))))))))
  exact ⟨_, hrun, rfl, rfl⟩

theorem initial_beforeFlush : Initial beforeFlush := ⟨fun _ => rfl, fun _ => rfl, rfl, rfl⟩

theorem log_beforeFlush : ∀ i T, teamProcess.target i = some T → ∀ e,
    beforeFlush.log.st.lookup T.key = some e → ∀ h ∈ e.entry.firingAlerts, False := by
  intro i T _ e he
  simp [beforeFlush, emptyLog] at he

/-- The topic is sent the alert that is not silenced. -/
theorem day_alert_sent : ∃ s, Run (Step teamProcess fun _ _ => False) beforeFlush dayRun s ∧
    s.Sent (fun _ _ => False) ((), 0) teamTopic.key (hashAlert (diskFull "x" 0)) := by
  obtain ⟨s, hrun, hfinished, -⟩ := run_day
  have hbuild : buildReceivers (buildReceiverIntegrations fun _ _ => .ok true) [str "team"] ∅
    [team] = .ok teamProcess.receivers := rfl
  refine ⟨s, hrun, ?_⟩
  exact sent_of_finished defined_team hbuild (List.forall_mem_singleton.mpr ⟨by decide, by decide⟩)
    (fun _ _ _ => rfl) initial_beforeFlush log_beforeFlush hrun
    (hfinished ▸ List.mem_singleton_self ((), dayFlush, true)) (by decide +kernel)
    (k := 0) rfl List.mem_cons_self rfl rfl rfl

end

end Alertmanager.ReceiverPipelines
