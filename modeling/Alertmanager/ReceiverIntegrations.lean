import Alertmanager.ConfigReferences
import Alertmanager.LogKeys
import Alertmanager.NotifyStages

/-!
# The integrations of a receiver

`BuildReceiverIntegrations` names the integrations of a receiver and numbers those of the same
name, and `createReceiverStage` puts name and number into the receiver under which the
notification log keeps their entries. So no two integrations share an entry, in the map that
`reload` builds for the routes of a configuration.
-/
namespace Alertmanager.ReceiverPipelines

open Notify
open Nflog (stateKey)

/-- `notify.Integration`. -/
structure NamedIntegration where
  sendResolved : Bool
  name : GoString
  idx : ℕ

/-- The integrations in the order of `BuildReceiverIntegrations`, each with the number of its
configurations. -/
def configured (nc : ReceiverConfig) : List (GoString × ℕ) :=
  [(str "webhook", nc.webhookConfigs.length), (str "email", nc.emailConfigs.length),
    (str "pagerduty", nc.pagerdutyConfigs.length), (str "opsgenie", nc.opsGenieConfigs.length),
    (str "wechat", nc.wechatConfigs.length), (str "slack", nc.slackConfigs.length),
    (str "victorops", nc.victorOpsConfigs.length), (str "pushover", nc.pushoverConfigs.length),
    (str "sns", nc.snsConfigs.length), (str "telegram", nc.telegramConfigs.length),
    (str "discord", nc.discordConfigs.length), (str "webex", nc.webexConfigs.length),
    (str "msteams", nc.msteamsConfigs.length), (str "msteamsv2", nc.msteamsV2Configs.length),
    (str "jira", nc.jiraConfigs.length), (str "incidentio", nc.incidentioConfigs.length),
    (str "rocketchat", nc.rocketchatConfigs.length),
    (str "mattermost", nc.mattermostConfigs.length)]

/-- The calls of `add`. -/
def added (nc : ReceiverConfig) : List (GoString × ℕ) :=
  (configured nc).flatMap fun c => (List.range c.2).map fun i => (c.1, i)

/-- `BuildReceiverIntegrations`, where `new` gives the error of a constructor, or
`SendResolved` of the configuration. The errors are joined. -/
def buildReceiverIntegrations (new : GoString → ℕ → Except GoString Bool) (nc : ReceiverConfig) :
    Except GoString (List NamedIntegration) :=
  let integrations := (added nc).filterMap fun c =>
    (new c.1 c.2).toOption.map fun sendResolved => ⟨sendResolved, c.1, c.2⟩
  let errs := (added nc).filterMap fun c =>
    match new c.1 c.2 with
    | .error err => some err
    | .ok _ => none
  match errs with
  | [] => .ok integrations
  | err :: errs => .error (((err :: errs).intersperse (str "\n")).flatten)

/-- `createReceiverStage`: the integrations of the `FanoutStage`, with their log receivers. -/
def createReceiverStage (name : GoString) (integrations : List NamedIntegration) :
    List Integration :=
  integrations.map fun i => ⟨i.sendResolved, ⟨name, i.name, UInt32.ofNat i.idx⟩⟩

/-- The integrations have log receivers of their own, with names that have no separators. -/
def Separate (name : GoString) (integrations : List NamedIntegration) : Prop :=
  (∀ i ∈ createReceiverStage name integrations, i.recv.Plain) ∧
    ((createReceiverStage name integrations).map Integration.recv).Nodup

def integrationNames : List GoString :=
  [str "webhook", str "email", str "pagerduty", str "opsgenie", str "wechat", str "slack",
    str "victorops", str "pushover", str "sns", str "telegram", str "discord", str "webex",
    str "msteams", str "msteamsv2", str "jira", str "incidentio", str "rocketchat",
    str "mattermost"]

theorem map_fst_configured (nc : ReceiverConfig) :
    (configured nc).map Prod.fst = integrationNames := rfl

theorem plain_integrationNames : ∀ name ∈ integrationNames, 47 ∉ name ∧ 58 ∉ name := by decide

theorem nodup_integrationNames : integrationNames.Nodup := by decide

/-- The receivers differ in the name of the integration or in the index. -/
theorem nodup_added {nc : ReceiverConfig} (hlen : ∀ c ∈ configured nc, c.2 ≤ 2 ^ 32) :
    ((added nc).map fun c => (c.1, UInt32.ofNat c.2)).Nodup := by
  simp only [added, List.map_flatMap, List.map_map, Function.comp_def]
  refine List.nodup_flatMap.mpr ⟨fun c hc => ?_, ?_⟩
  · refine List.nodup_range.map_on fun i hi j hj hij => ?_
    have hnat := congrArg UInt32.toNat (Prod.mk.inj hij).2
    have hle := hlen c hc
    rw [List.mem_range] at hi hj
    rw [UInt32.toNat_ofNat_of_lt' (hi.trans_le hle), UInt32.toNat_ofNat_of_lt' (hj.trans_le hle)]
      at hnat
    exact hnat
  · have hnames : ((configured nc).map Prod.fst).Nodup := nodup_integrationNames
    refine (List.pairwise_map.mp hnames).imp fun hne p hp hq => ?_
    obtain ⟨i, -, rfl⟩ := List.mem_map.mp hp
    obtain ⟨j, -, heq⟩ := List.mem_map.mp hq
    exact hne (Prod.mk.inj heq).1.symm

theorem map_filterMap_sublist {α β γ : Type*} {f : α → Option β} {g : β → γ} {k : α → γ}
    (h : ∀ a b, f a = some b → g b = k a) (l : List α) :
    ((l.filterMap f).map g).Sublist (l.map k) := by
  induction l with
  | nil => exact List.Sublist.refl _
  | cons a l ih =>
    cases hf : f a with
    | none =>
      rw [List.filterMap_cons_none hf]
      exact ih.cons _
    | some b =>
      rw [List.filterMap_cons_some hf, List.map_cons, List.map_cons, h a b hf]
      exact ih.cons_cons _

theorem groupName_eq {name : GoString} {integrations : List NamedIntegration} {k : ℕ}
    {i : Integration} (h : (createReceiverStage name integrations)[k]? = some i) :
    i.recv.groupName = name := by
  obtain ⟨j, -, rfl⟩ := List.mem_map.mp (List.mem_of_getElem? h)
  rfl

/-- The log key tells the group, the receiver and the integration. -/
theorem eq_of_stateKey {receivers : GoMap GoString (List NamedIntegration)}
    (h : ∀ name integrations, receivers.lookup name = some integrations →
      Separate name integrations) {name name' : GoString}
    {integrations integrations' : List NamedIntegration}
    (hlookup : receivers.lookup name = some integrations)
    (hlookup' : receivers.lookup name' = some integrations') {k k' : ℕ} {i i' : Integration}
    (hi : (createReceiverStage name integrations)[k]? = some i)
    (hi' : (createReceiverStage name' integrations')[k']? = some i') {gkey gkey' : GoString}
    (hkey : stateKey gkey i.recv = stateKey gkey' i'.recv) :
    gkey = gkey' ∧ name = name' ∧ k = k' := by
  obtain ⟨hplain, hnodup⟩ := h name integrations hlookup
  obtain ⟨hgroup, hrecv⟩ := stateKey_injOn (hplain i (List.mem_of_getElem? hi))
    ((h name' integrations' hlookup').1 i' (List.mem_of_getElem? hi')) hkey
  obtain rfl : name = name' := by rw [← groupName_eq hi, hrecv, groupName_eq hi']
  obtain rfl := Option.some.inj (hlookup.symm.trans hlookup')
  refine ⟨hgroup, rfl, ?_⟩
  have hlt := (List.getElem?_eq_some_iff.mp hi).1
  refine (List.getElem?_inj (by simpa using hlt) hnodup).mp ?_
  rw [List.getElem?_map, List.getElem?_map, hi, hi', Option.map_some, Option.map_some, hrecv]

variable {new : GoString → ℕ → Except GoString Bool}

theorem separate_build {nc : ReceiverConfig} {integrations : List NamedIntegration}
    (hname : 47 ∉ nc.name ∧ 58 ∉ nc.name) (hlen : ∀ c ∈ configured nc, c.2 ≤ 2 ^ 32)
    (h : buildReceiverIntegrations new nc = .ok integrations) :
    Separate nc.name integrations := by
  have hbuilt : integrations = (added nc).filterMap fun c =>
      (new c.1 c.2).toOption.map fun sendResolved => ⟨sendResolved, c.1, c.2⟩ := by
    simp only [buildReceiverIntegrations] at h
    split at h
    · exact (Except.ok.inj h).symm
    · cases h
  constructor
  · intro i hi
    obtain ⟨j, hj, rfl⟩ := List.mem_map.mp hi
    rw [hbuilt] at hj
    obtain ⟨c, hc, hnew⟩ := List.mem_filterMap.mp hj
    obtain ⟨sendResolved, -, rfl⟩ := Option.map_eq_some_iff.mp hnew
    obtain ⟨d, hd, hc⟩ := List.mem_flatMap.mp hc
    obtain ⟨k, -, rfl⟩ := List.mem_map.mp hc
    have hd : d.1 ∈ integrationNames := by
      rw [← map_fst_configured nc]
      exact List.mem_map_of_mem hd
    exact ⟨hname, plain_integrationNames d.1 hd⟩
  · have hsub : (integrations.map fun i => (i.name, UInt32.ofNat i.idx)).Sublist
        ((added nc).map fun c => (c.1, UInt32.ofNat c.2)) := by
      rw [hbuilt]
      refine map_filterMap_sublist (fun c i hi => ?_) (added nc)
      obtain ⟨sendResolved, -, rfl⟩ := Option.map_eq_some_iff.mp hi
      rfl
    have hnodup := hsub.nodup (nodup_added hlen)
    rw [createReceiverStage, List.map_map]
    refine List.Nodup.of_map (fun r : Nflog.Receiver => (r.integration, r.idx)) ?_
    simpa only [List.map_map, Function.comp_def] using hnodup

section
variable {active : List GoString} {rcvs : List ReceiverConfig}
  (hrcvs : ∀ nc ∈ rcvs, (47 ∉ nc.name ∧ 58 ∉ nc.name) ∧ ∀ c ∈ configured nc, c.2 ≤ 2 ^ 32)
  {m receivers : GoMap GoString (List NamedIntegration)}
  (hm : ∀ name integrations, m.lookup name = some integrations → Separate name integrations)
  (h : buildReceivers (buildReceiverIntegrations new) active m rcvs = .ok receivers)
include hrcvs hm h

theorem separate_of_buildReceivers :
    ∀ name integrations, receivers.lookup name = some integrations →
      Separate name integrations := by
  induction rcvs generalizing m with
  | nil =>
    obtain rfl := Except.ok.inj h
    exact hm
  | cons rcv rcvs ih =>
    obtain ⟨⟨hname, hlen⟩, hrcvs⟩ := List.forall_mem_cons.mp hrcvs
    rw [buildReceivers] at h
    split_ifs at h
    · obtain ⟨integrations, hbuild, h⟩ := bind_eq_ok.mp h
      refine ih hrcvs (fun name is hl => ?_) h
      rw [GoMap.lookup_insert_eq] at hl
      split_ifs at hl with hsame
      · obtain rfl := Option.some.inj hl
        exact hsame ▸ separate_build hname hlen hbuild
      · exact hm name is hl
    · exact ih hrcvs hm h

/-- In the map that `reload` builds no two integrations, of one receiver or of two, share a
log entry. -/
theorem separate_buildReceivers :
    ∀ name integrations, receivers.lookup name = some integrations →
      Separate name integrations ∧
      ∀ name' integrations', receivers.lookup name' = some integrations' →
        ∀ (k k' : ℕ) (i i' : Integration), (createReceiverStage name integrations)[k]? = some i →
          (createReceiverStage name' integrations')[k']? = some i' →
          ∀ gkey gkey', stateKey gkey i.recv = stateKey gkey' i'.recv →
            gkey = gkey' ∧ name = name' ∧ k = k' := by
  have hseparate := separate_of_buildReceivers hrcvs hm h
  intro name integrations hlookup
  refine ⟨hseparate name integrations hlookup, ?_⟩
  intro name' integrations' hlookup' k k' i i' hi hi' gkey gkey' hkey
  exact eq_of_stateKey hseparate hlookup hlookup' hi hi' hkey

end

/-- A receiver with two topics. -/
def twoTopics : ReceiverConfig :=
  ⟨str "t", [], [], [], [], [], [], [], [], [], [], [none, none], [], [], [], [], [], [], []⟩

theorem two_topics_separate :
    ∃ receivers, buildReceivers (buildReceiverIntegrations fun _ _ => .ok true) [str "t"] ∅
        [twoTopics] = .ok receivers ∧
      ∀ name integrations, receivers.lookup name = some integrations →
        Separate name integrations ∧ ∀ (k k' : ℕ) (i i' : Integration),
          (createReceiverStage name integrations)[k]? = some i →
          (createReceiverStage name integrations)[k']? = some i' →
          ∀ gkey, stateKey gkey i.recv = stateKey gkey i'.recv → k = k' := by
  have hplain : ∀ nc ∈ [twoTopics], (47 ∉ nc.name ∧ 58 ∉ nc.name) ∧
      ∀ c ∈ configured nc, c.2 ≤ 2 ^ 32 :=
    List.forall_mem_singleton.mpr ⟨by decide, by decide⟩
  obtain ⟨receivers, hbuild⟩ : ∃ receivers, buildReceivers
      (buildReceiverIntegrations fun _ _ => .ok true) [str "t"] ∅ [twoTopics] = .ok receivers :=
    ⟨_, rfl⟩
  refine ⟨receivers, hbuild, fun name integrations hlookup => ?_⟩
  obtain ⟨hseparate, hkeys⟩ :=
    separate_buildReceivers hplain (by simp) hbuild name integrations hlookup
  exact ⟨hseparate, fun k k' i i' hi hi' gkey hkey =>
    (hkeys name integrations hlookup k k' i i' hi hi' gkey gkey hkey).2.2⟩

end Alertmanager.ReceiverPipelines
