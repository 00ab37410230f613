import Alertmanager.Config

/-!
# Nil pointers in a configuration

Loading is described by the list of the checks that it makes, in the order in which it
makes them: each is a condition on the decoded configuration, under which either an
error is reported or a nil pointer is followed. Loading ends with the first fault of
the list. So it never follows a nil pointer exactly when every nil pointer that it
would follow comes after an error that it reports.
-/
namespace Alertmanager

/-- A check that reports an error. -/
def failing (bad : Prop) [Decidable bad] (text : GoString) : Option Abort :=
  if bad then some (.error text) else none

/-- The use of a pointer. -/
def following (isNil : Prop) [Decidable isNil] : Option Abort :=
  if isNil then some .nilDereference else none

theorem faultOf_reject (bad : Prop) [Decidable bad] (text : GoString) :
    faultOf (reject bad text) = failing bad text := by
  unfold reject failing
  split <;> rfl

theorem faultOf_require {α : Type} (text : GoString) (p : Option α) :
    faultOf (require text p) = failing p.isNone text := by
  cases p <;> rfl

theorem faultOf_deref {α : Type} (p : Option α) : faultOf (deref p) = following p.isNone := by
  cases p <;> rfl

/-- A function that ends with a single check. -/
theorem faultOf_last {c : Option Abort} {x : Except Abort Unit} (h : faultOf x = c) :
    faultOf x = firstFault [c] := by
  rw [h]
  cases c <;> rfl

/-! ### The global block -/

namespace GlobalConfig

def slackChecks (g : GlobalConfig) : List (Option Abort) :=
  if g.hasSlackAppToken ∧ g.hasSlackAPIURL then
    [following g.slackAPIURL.isNone, following g.slackAppURL.isNone,
      failing (g.slackAPIURL.map URL.string ≠ g.slackAppURL.map URL.string) slackClash]
  else []

def checks (g : GlobalConfig) : List (Option Abort) :=
  failing (g.slackAppToken ≠ [] ∧ g.slackAppTokenFile ≠ []) (atMostOne "slack_app_token") ::
  failing (g.slackAPIURL ≠ none ∧ g.slackAPIURLFile ≠ []) (atMostOne "slack_api_url") ::
  (g.slackChecks ++
  [failing (g.opsGenieAPIKey ≠ [] ∧ g.opsGenieAPIKeyFile ≠ []) (atMostOne "opsgenie_api_key"),
    failing (g.victorOpsAPIKey ≠ [] ∧ g.victorOpsAPIKeyFile ≠ []) (atMostOne "victorops_api_key"),
    failing (g.telegramBotToken ≠ [] ∧ g.telegramBotTokenFile ≠ [])
      (atMostOne "telegram_bot_token"),
    failing (g.smtpAuthPassword ≠ [] ∧ g.smtpAuthPasswordFile ≠ [])
      (atMostOne "smtp_auth_password"),
    failing (g.rocketchatToken ≠ none ∧ g.rocketchatTokenFile ≠ [])
      (atMostOne "rocketchat_token"),
    failing (g.rocketchatTokenID ≠ none ∧ g.rocketchatTokenIDFile ≠ [])
      (atMostOne "rocketchat_token_id"),
    failing (g.smtpAuthSecret ≠ [] ∧ g.smtpAuthSecretFile ≠ []) (atMostOne "smtp_auth_secret"),
    failing (g.weChatAPISecret ≠ [] ∧ g.weChatAPISecretFile ≠ []) (atMostOne "wechat_api_secret"),
    failing (g.mattermostWebhookURL ≠ none ∧ g.mattermostWebhookURLFile ≠ [])
      (atMostOne "mattermost_webhook_url")])

theorem faultOf_checkSlack (g : GlobalConfig) :
    faultOf g.checkSlack = firstFault g.slackChecks := by
  unfold GlobalConfig.checkSlack slackChecks
  split
  · refine faultOf_bind_cons (faultOf_deref _) fun apiURL hapi => ?_
    refine faultOf_bind_cons (faultOf_deref _) fun appURL happ => faultOf_last ?_
    obtain ⟨hapi, happ⟩ : g.slackAPIURL = some apiURL ∧ g.slackAppURL = some appURL := by
      cases h : g.slackAPIURL <;> cases h' : g.slackAppURL <;> simp_all [deref]
    rw [faultOf_reject, hapi, happ]
    simp [failing]
  · rfl

theorem faultOf_check (g : GlobalConfig) : faultOf g.check = firstFault g.checks := by
  refine faultOf_bind_cons (faultOf_reject _ _) fun _ _ => ?_
  refine faultOf_bind_cons (faultOf_reject _ _) fun _ _ => ?_
  refine faultOf_bind g.faultOf_checkSlack fun _ _ => ?_
  iterate 8 refine faultOf_bind_cons (faultOf_reject _ _) fun _ _ => ?_
  exact faultOf_last (faultOf_reject _ _)

end GlobalConfig

/-! ### One integration -/

section
variable (g : GlobalConfig)

def emailChecks (ec : EmailConfig) : List (Option Abort) :=
  [failing ((if ec.smarthost ≠ ⟨[], []⟩ then ec.smarthost else g.smtpSmarthost).string = [])
      (str "no global SMTP smarthost set"),
    failing (cmpOr ec.fromAddress g.smtpFrom = []) (str "no global SMTP from set")]

theorem faultOf_checkEmail (ec : EmailConfig) :
    faultOf (checkEmail g ec) = firstFault (emailChecks g ec) := by
  refine faultOf_bind_cons (faultOf_reject _ _) fun _ _ => ?_
  exact faultOf_bind_cons (faultOf_reject _ _) fun _ _ => rfl

/-- The global HTTP configuration is copied, without a look whether there is one. -/
def slackConfigChecks (sc : SlackConfig) : List (Option Abort) :=
  let s := sc.filled g
  [failing s.appURL.isNone (str "no global Slack App URL set"),
    failing (s.apiURL = none ∧ s.apiURLFile = [] ∧ ¬ s.hasAppToken)
      (str "no Slack API URL nor App token set either inline or in a file"),
    following (sc.httpConfig = none ∧ g.httpConfig = none),
    failing (s.hasAppToken ∧ (sc.httpConfig.or g.httpConfig).bind (·.authorization) ≠ none)
      (str "http authorization can't be set when using Slack App tokens")]

theorem faultOf_ownHTTPConfig (own : Option HTTPClientConfig) :
    faultOf (ownHTTPConfig g own) = following (own = none ∧ g.httpConfig = none) := by
  cases own <;> cases h : g.httpConfig <;> simp [ownHTTPConfig, deref, following, h]

theorem ownHTTPConfig_eq_ok {own : Option HTTPClientConfig} {http : HTTPClientConfig}
    (h : ownHTTPConfig g own = .ok http) : own.or g.httpConfig = some http := by
  cases own <;> cases hg : g.httpConfig <;> simp_all [ownHTTPConfig, deref]

theorem faultOf_checkSlack (sc : SlackConfig) :
    faultOf (checkSlack g sc) = firstFault (slackConfigChecks g sc) := by
  refine faultOf_bind_cons (faultOf_require _ _) fun appURL _ => ?_
  refine faultOf_bind_cons (faultOf_reject _ _) fun _ _ => ?_
  refine faultOf_bind_cons (faultOf_ownHTTPConfig g _) fun http hhttp => ?_
  refine faultOf_bind_cons ?_ fun _ _ => ?_
  · rw [faultOf_reject, ownHTTPConfig_eq_ok g hhttp]
    rfl
  · split <;> rfl

def urlChecks (url : Option URL) (text : GoString) (c : HTTPIntegration URLSettings) :
    List (Option Abort) :=
  [failing (c.settings.url.or url).isNone text]

theorem faultOf_checkURL (url : Option URL) (text : GoString) (c : HTTPIntegration URLSettings) :
    faultOf (checkURL g url text c) = firstFault (urlChecks url text c) :=
  faultOf_bind_cons (faultOf_require _ _) fun _ _ => rfl

def keyChecks (s : KeySettings) (apiKey apiKeyFile text : GoString) : List (Option Abort) :=
  [failing ((s.apiKey = [] ∧ s.apiKeyFile = []) ∧ apiKey = [] ∧ apiKeyFile = []) text]

theorem faultOf_fillKey (s : KeySettings) (apiKey apiKeyFile text : GoString) :
    faultOf (s.fillKey apiKey apiKeyFile text) =
      firstFault (keyChecks s apiKey apiKeyFile text) := by
  unfold KeySettings.fillKey keyChecks
  split
  · refine faultOf_bind_cons ?_ fun _ _ => rfl
    simp [faultOf_reject, *]
  · simp [failing, *]

def keyedChecks (apiURL : Option URL) (noURL apiKey apiKeyFile noKey : GoString)
    (c : HTTPIntegration KeySettings) : List (Option Abort) :=
  failing (c.settings.apiURL.or apiURL).isNone noURL ::
    keyChecks c.settings apiKey apiKeyFile noKey

theorem faultOf_checkKeyed (apiURL : Option URL) (noURL apiKey apiKeyFile noKey : GoString)
    (c : HTTPIntegration KeySettings) :
    faultOf (checkKeyed g apiURL noURL apiKey apiKeyFile noKey c) =
      firstFault (keyedChecks apiURL noURL apiKey apiKeyFile noKey c) := by
  refine faultOf_bind_cons (faultOf_require _ _) fun url _ => ?_
  exact (faultOf_map _ _).trans (faultOf_fillKey _ _ _ _)

def telegramChecks (c : TelegramConfig) : List (Option Abort) :=
  keyChecks c.settings g.telegramBotToken g.telegramBotTokenFile
    (str "missing bot_token or bot_token_file on telegram_config")

theorem faultOf_checkTelegram (c : TelegramConfig) :
    faultOf (checkTelegram g c) = firstFault (telegramChecks g c) :=
  (faultOf_map _ _).trans (faultOf_fillKey _ _ _ _)

def wechatChecks (c : WechatConfig) : List (Option Abort) :=
  [failing (c.settings.apiURL.or g.weChatAPIURL).isNone (str "no global Wechat URL set"),
    failing ((c.settings.apiSecret = [] ∧ c.settings.apiSecretFile = []) ∧
        g.weChatAPISecret = [] ∧ g.weChatAPISecretFile = [])
      (str "no global Wechat Api Secret set either inline or in a file"),
    failing (cmpOr c.settings.corpID g.weChatAPICorpID = []) (str "no global Wechat CorpID set")]

theorem faultOf_checkWechat (c : WechatConfig) :
    faultOf (checkWechat g c) = firstFault (wechatChecks g c) := by
  refine faultOf_bind_cons (faultOf_require _ _) fun _ _ => ?_
  refine faultOf_bind_cons (faultOf_reject _ _) fun _ _ => ?_
  exact faultOf_bind_cons (faultOf_reject _ _) fun _ _ => rfl

def webhookURLChecks (text : GoString) (c : HTTPIntegration WebhookSettings) :
    List (Option Abort) :=
  [failing c.settings.missing text]

theorem faultOf_checkWebhookURL (text : GoString) (c : HTTPIntegration WebhookSettings) :
    faultOf (checkWebhookURL g text c) = firstFault (webhookURLChecks text c) :=
  faultOf_bind_cons (faultOf_reject _ _) fun _ _ => rfl

/-- The proxy of the global HTTP configuration is read, without a look whether there is
one. -/
def msteamsV2Checks (c : MSTeamsV2Config) : List (Option Abort) :=
  [following (c.httpConfig.bind (·.proxyURL) = none ∧ g.httpConfig = none),
    failing c.settings.missing (str "no msteamsv2 webhook URL or URLFile provided")]

theorem faultOf_withProxy (own : Option HTTPClientConfig) :
    faultOf (withProxy g own) =
      following (own.bind (·.proxyURL) = none ∧ g.httpConfig = none) := by
  cases own with
  | none => cases h : g.httpConfig <;> simp [withProxy, deref, following, h]
  | some http =>
    cases hp : http.proxyURL <;> cases h : g.httpConfig <;>
      simp [withProxy, deref, following, h, hp]

theorem faultOf_checkMSTeamsV2 (c : MSTeamsV2Config) :
    faultOf (checkMSTeamsV2 g c) = firstFault (msteamsV2Checks g c) := by
  refine faultOf_bind_cons (faultOf_withProxy g _) fun _ _ => ?_
  exact faultOf_bind_cons (faultOf_reject _ _) fun _ _ => rfl

def mattermostChecks (c : MattermostConfig) : List (Option Abort) :=
  [failing (c.settings.missing ∧ g.mattermostWebhookURL = none ∧ g.mattermostWebhookURLFile = [])
    (str "missing webhook_url or webhook_url_file on mattermost_config")]

theorem faultOf_checkMattermost (c : MattermostConfig) :
    faultOf (checkMattermost g c) = firstFault (mattermostChecks g c) :=
  faultOf_bind_cons (faultOf_reject _ _) fun _ _ => rfl

def rocketchatChecks (c : RocketchatConfig) : List (Option Abort) :=
  [failing ((c.settings.tokenID = none ∧ c.settings.tokenIDFile = []) ∧
        g.rocketchatTokenID = none ∧ g.rocketchatTokenIDFile = [])
      (str "no global Rocketchat TokenID set either inline or in a file"),
    failing ((c.settings.token = none ∧ c.settings.tokenFile = []) ∧
        g.rocketchatToken = none ∧ g.rocketchatTokenFile = [])
      (str "no global Rocketchat Token set either inline or in a file")]

theorem faultOf_checkRocketchat (c : RocketchatConfig) :
    faultOf (checkRocketchat g c) = firstFault (rocketchatChecks g c) := by
  refine faultOf_bind_cons (faultOf_reject _ _) fun _ _ => ?_
  exact faultOf_bind_cons (faultOf_reject _ _) fun _ _ => rfl

end

/-! ### Receivers -/

section
variable {α : Type}

def elementChecks (missing : String) (checks : α → List (Option Abort)) :
    Option α → List (Option Abort)
  | none => [some (.error (str missing))]
  | some c => checks c

theorem faultOf_checkEach {check : α → Except Abort α} {checks : α → List (Option Abort)}
    (h : ∀ c, faultOf (check c) = firstFault (checks c)) (missing : String)
    (cs : List (Option α)) :
    faultOf (checkEach missing check cs) =
      firstFault (cs.flatMap (elementChecks missing checks)) := by
  refine faultOf_mapM cs fun c => ?_
  cases c with
  | none => rfl
  | some c => exact (faultOf_map _ _).trans (h c)

theorem faultOf_fillEach {check : α → Except Abort α} {checks : α → List (Option Abort)}
    (h : ∀ c, faultOf (check c) = firstFault (checks c)) (zero : α) (cs : List (Option α)) :
    faultOf (fillEach zero check cs) = firstFault (cs.flatMap fun c => checks (c.getD zero)) :=
  faultOf_mapM cs fun _ => (faultOf_map _ _).trans (h _)

end

/-- The checks of a receiver: of a list in which nil is replaced, those of the zero
value. -/
def ReceiverConfig.checks (g : GlobalConfig) (rcv : ReceiverConfig) : List (Option Abort) :=
  [rcv.webhookConfigs.flatMap (elementChecks "missing webhook config" fun _ => []),
    rcv.emailConfigs.flatMap (elementChecks "missing email config" (emailChecks g)),
    rcv.slackConfigs.flatMap fun c => slackConfigChecks g (c.getD zeroSlackConfig),
    rcv.pushoverConfigs.flatMap (elementChecks "missing pushover config" fun _ => []),
    rcv.pagerdutyConfigs.flatMap (elementChecks "missing pagerduty config"
      (urlChecks g.pagerdutyURL (str "no global PagerDuty URL set"))),
    rcv.incidentioConfigs.flatMap (elementChecks "missing incidentio config" fun _ => []),
    rcv.opsGenieConfigs.flatMap fun c =>
      keyedChecks g.opsGenieAPIURL (str "no global OpsGenie URL set") g.opsGenieAPIKey
        g.opsGenieAPIKeyFile (str "no global OpsGenie API Key set either inline or in a file")
        (c.getD zeroOpsGenieConfig),
    rcv.wechatConfigs.flatMap fun c => wechatChecks g (c.getD zeroWechatConfig),
    rcv.victorOpsConfigs.flatMap (elementChecks "missing victorops config"
      (keyedChecks g.victorOpsAPIURL (str "no global VictorOps URL set") g.victorOpsAPIKey
        g.victorOpsAPIKeyFile (str "no global VictorOps API Key set"))),
    rcv.snsConfigs.flatMap (elementChecks "missing sns config" fun _ => []),
    rcv.telegramConfigs.flatMap (elementChecks "missing telegram config" (telegramChecks g)),
    rcv.discordConfigs.flatMap (elementChecks "missing discord config"
      (webhookURLChecks (str "no discord webhook URL or URLFile provided"))),
    rcv.webexConfigs.flatMap (elementChecks "missing webex config"
      (urlChecks g.webexAPIURL (str "no global Webex URL set"))),
    rcv.msteamsConfigs.flatMap (elementChecks "missing msteams config"
      (webhookURLChecks (str "no msteams webhook URL or URLFile provided"))),
    rcv.msteamsV2Configs.flatMap (elementChecks "missing msteamsv2 config" (msteamsV2Checks g)),
    rcv.jiraConfigs.flatMap (elementChecks "missing jira config"
      (urlChecks g.jiraAPIURL (str "no global Jira Cloud URL set"))),
    rcv.rocketchatConfigs.flatMap fun c => rocketchatChecks g (c.getD zeroRocketchatConfig),
    rcv.mattermostConfigs.flatMap (elementChecks "missing mattermost config"
      (mattermostChecks g))].flatten

theorem ReceiverConfig.faultOf_check (g : GlobalConfig) (rcv : ReceiverConfig) :
    faultOf (rcv.check g) = firstFault (rcv.checks g) := by
  have hHTTP (c : HTTPIntegration Unit) : faultOf (checkHTTP g c) = firstFault [] := rfl
  refine faultOf_bind_flatten (faultOf_checkEach hHTTP _ _) fun _ _ => ?_
  refine faultOf_bind_flatten (faultOf_checkEach (faultOf_checkEmail g) _ _) fun _ _ => ?_
  refine faultOf_bind_flatten (faultOf_fillEach (faultOf_checkSlack g) _ _) fun _ _ => ?_
  refine faultOf_bind_flatten (faultOf_checkEach hHTTP _ _) fun _ _ => ?_
  refine faultOf_bind_flatten (faultOf_checkEach (faultOf_checkURL g _ _) _ _) fun _ _ => ?_
  refine faultOf_bind_flatten (faultOf_checkEach hHTTP _ _) fun _ _ => ?_
  refine faultOf_bind_flatten (faultOf_fillEach (faultOf_checkKeyed g _ _ _ _ _) _ _)
    fun _ _ => ?_
  refine faultOf_bind_flatten (faultOf_fillEach (faultOf_checkWechat g) _ _) fun _ _ => ?_
  refine faultOf_bind_flatten (faultOf_checkEach (faultOf_checkKeyed g _ _ _ _ _) _ _)
    fun _ _ => ?_
  refine faultOf_bind_flatten (faultOf_checkEach hHTTP _ _) fun _ _ => ?_
  refine faultOf_bind_flatten (faultOf_checkEach (faultOf_checkTelegram g) _ _) fun _ _ => ?_
  refine faultOf_bind_flatten (faultOf_checkEach (faultOf_checkWebhookURL g _) _ _) fun _ _ => ?_
  refine faultOf_bind_flatten (faultOf_checkEach (faultOf_checkURL g _ _) _ _) fun _ _ => ?_
  refine faultOf_bind_flatten (faultOf_checkEach (faultOf_checkWebhookURL g _) _ _) fun _ _ => ?_
  refine faultOf_bind_flatten (faultOf_checkEach (faultOf_checkMSTeamsV2 g) _ _) fun _ _ => ?_
  refine faultOf_bind_flatten (faultOf_checkEach (faultOf_checkURL g _ _) _ _) fun _ _ => ?_
  refine faultOf_bind_flatten (faultOf_fillEach (faultOf_checkRocketchat g) _ _) fun _ _ => ?_
  exact faultOf_bind_flatten (faultOf_checkEach (faultOf_checkMattermost g) _ _) fun _ _ => rfl

section
variable [Unicode]

def receiversChecks (g : GlobalConfig) (names : List GoString) :
    List ReceiverConfig → List (Option Abort)
  | [] => []
  | rcv :: rcvs =>
    failing (rcv.name ∈ names) (quoting "notification config name " rcv.name " is not unique") ::
      (rcv.checks g ++ receiversChecks g (names ++ [rcv.name]) rcvs)

theorem faultOf_checkReceivers (g : GlobalConfig) (rcvs : List ReceiverConfig)
    (names : List GoString) :
    faultOf (checkReceivers g names rcvs) = firstFault (receiversChecks g names rcvs) := by
  induction rcvs generalizing names with
  | nil => rfl
  | cons rcv rcvs ih =>
    refine faultOf_bind_cons (faultOf_reject _ _) fun _ _ => ?_
    refine faultOf_bind (rcv.faultOf_check g) fun rcv' _ => ?_
    exact (faultOf_map (rcv' :: ·) _).trans (ih _)

/-! ### The routing tree -/

section
variable [Regexp]

def rootChecks : RouteConfig → List (Option Abort)
  | .nil => [some (.error (str "no routes provided"))]
  | .node cr _ =>
    [failing (cr.receiver = []) (str "root route must specify a default receiver"),
      failing (GoMap.len cr.matchEq > 0 ∨ GoMap.len cr.matchRE > 0 ∨ cr.matchers ≠ [])
        (str "root route must not have any matchers"),
      failing (cr.muteTimeIntervals ≠ [])
        (str "root route must not have any mute time intervals"),
      failing (cr.activeTimeIntervals ≠ [])
        (str "root route must not have any active time intervals")]

omit [Unicode] in
theorem faultOf_checkRoot (cr : RouteConfig) :
    faultOf (checkRoot cr) = firstFault (rootChecks cr) := by
  cases cr with
  | nil => rfl
  | node cr routes =>
    iterate 3 refine faultOf_bind_cons (faultOf_reject _ _) fun _ _ => ?_
    exact faultOf_last (faultOf_reject _ _)

mutual

def treeChecks (receivers : List GoString) : RouteConfig → List (Option Abort)
  | .nil => [some .nilDereference]
  | .node cr routes =>
    treesChecks receivers routes ++
      [failing (cr.receiver ≠ [] ∧ cr.receiver ∉ receivers)
        (quoting "undefined receiver " cr.receiver " used in route")]

def treesChecks (receivers : List GoString) : List RouteConfig → List (Option Abort)
  | [] => []
  | cr :: crs => treeChecks receivers cr ++ treesChecks receivers crs

end

mutual

theorem faultOf_checkReceiver (receivers : List GoString) :
    ∀ cr, faultOf (checkReceiver receivers cr) = firstFault (treeChecks receivers cr)
  | .nil => rfl
  | .node _ routes =>
    faultOf_bind (faultOf_checkReceiverAll receivers routes)
      fun _ _ => faultOf_last (faultOf_reject _ _)

theorem faultOf_checkReceiverAll (receivers : List GoString) :
    ∀ crs, faultOf (checkReceiverAll receivers crs) = firstFault (treesChecks receivers crs)
  | [] => rfl
  | cr :: crs =>
    faultOf_bind (faultOf_checkReceiver receivers cr)
      fun _ _ => faultOf_checkReceiverAll receivers crs

end

def definedChecks (timeIntervals names : List GoString) : List (Option Abort) :=
  names.map fun ti =>
    failing (ti ∉ timeIntervals) (quoting "undefined time interval " ti " used in route")

omit [Regexp] in
theorem faultOf_checkDefined (timeIntervals names : List GoString) :
    faultOf (checkDefined timeIntervals names) =
      firstFault (definedChecks timeIntervals names) := by
  rw [definedChecks, List.map_eq_flatMap]
  exact faultOf_forM names fun ti => faultOf_last (faultOf_reject _ _)

mutual

def intervalChecks (timeIntervals : List GoString) : RouteConfig → List (Option Abort)
  | .nil => [some .nilDereference]
  | .node cr routes =>
    intervalsChecks timeIntervals routes ++
      (definedChecks timeIntervals cr.activeTimeIntervals ++
        definedChecks timeIntervals cr.muteTimeIntervals)

def intervalsChecks (timeIntervals : List GoString) : List RouteConfig → List (Option Abort)
  | [] => []
  | cr :: crs => intervalChecks timeIntervals cr ++ intervalsChecks timeIntervals crs

end

mutual

theorem faultOf_checkTimeInterval (timeIntervals : List GoString) :
    ∀ cr, faultOf (checkTimeInterval timeIntervals cr) =
      firstFault (intervalChecks timeIntervals cr)
  | .nil => rfl
  | .node _ routes =>
    faultOf_bind (faultOf_checkTimeIntervalAll timeIntervals routes) fun _ _ =>
      faultOf_bind (faultOf_checkDefined timeIntervals _) fun _ _ =>
        faultOf_checkDefined timeIntervals _

theorem faultOf_checkTimeIntervalAll (timeIntervals : List GoString) :
    ∀ crs, faultOf (checkTimeIntervalAll timeIntervals crs) =
      firstFault (intervalsChecks timeIntervals crs)
  | [] => rfl
  | cr :: crs =>
    faultOf_bind (faultOf_checkTimeInterval timeIntervals cr) fun _ _ =>
      faultOf_checkTimeIntervalAll timeIntervals crs

end

end

def uniqueChecks {τ : Type} (kind : String) (names : List GoString) :
    List (NamedIntervals τ) → List (Option Abort)
  | [] => []
  | mt :: mts =>
    failing (mt.name ∈ names) (quoting (kind ++ " ") mt.name " is not unique") ::
      uniqueChecks kind (names ++ [mt.name]) mts

theorem faultOf_checkUnique {τ : Type} (kind : String) (mts : List (NamedIntervals τ))
    (names : List GoString) :
    faultOf (checkUnique kind names mts) = firstFault (uniqueChecks kind names mts) := by
  induction mts generalizing names with
  | nil => rfl
  | cons mt mts ih => exact faultOf_bind_cons (faultOf_reject _ _) fun _ _ => ih _

theorem checkUnique_eq_ok {τ : Type} {kind : String} {mts : List (NamedIntervals τ)}
    {names names' : List GoString} (h : checkUnique kind names mts = .ok names') :
    names' = names ++ mts.map (·.name) := by
  induction mts generalizing names with
  | nil => simpa using (Except.ok.inj h).symm
  | cons mt mts ih =>
    obtain ⟨_, -, h⟩ := bind_eq_ok.mp h
    simpa using ih h

end

/-! ### The pointers that `resolveFilepaths` follows -/

section
variable {α : Type}

def nils (cs : List (Option α)) : List (Option Abort) := cs.map fun c => following c.isNone

theorem faultOf_followEach (cs : List (Option α)) :
    faultOf (followEach cs) = firstFault (nils cs) := by
  rw [nils, List.map_eq_flatMap]
  refine faultOf_forM cs fun c => ?_
  cases c <;> rfl

theorem firstFault_nils {cs : List (Option α)} : firstFault (nils cs) = none ↔ none ∉ cs := by
  rw [firstFault_eq_none, nils, List.forall_mem_map]
  constructor
  · intro h hnone
    simpa [following] using h none hnone
  · intro h c hc
    obtain ⟨c, rfl⟩ := Option.ne_none_iff_exists'.mp fun hnone => h (hnone ▸ hc)
    rfl

/-- The checks keep the nils of a list where they are. -/
theorem nils_of_mapM {f : Option α → Except Abort (Option α)} {cs cs' : List (Option α)}
    (hf : ∀ c c', f c = .ok c' → c'.isNone = c.isNone) (h : cs.mapM f = .ok cs') :
    nils cs' = nils cs :=
  map_eq_of_mapM (fun c c' hc => by rw [hf c c' hc]) h

theorem checkElement_eq_ok {missing : GoString} {check : α → Except Abort α} {c c' : Option α}
    (h : checkElement missing check c = .ok c') : c'.isNone = false ∧ c.isNone = false := by
  obtain ⟨found, hfound, h⟩ := bind_eq_ok.mp h
  obtain ⟨filled, -, rfl⟩ := map_eq_ok.mp h
  cases c with
  | none => cases hfound
  | some c => exact ⟨rfl, rfl⟩

theorem nils_checkEach {missing : String} {check : α → Except Abort α} {cs cs' : List (Option α)}
    (h : checkEach missing check cs = .ok cs') : nils cs' = nils cs :=
  nils_of_mapM (fun c c' hc => by
    obtain ⟨h', h⟩ := checkElement_eq_ok hc
    rw [h', h]) h

theorem not_mem_checkEach {missing : String} {check : α → Except Abort α}
    {cs cs' : List (Option α)} (h : checkEach missing check cs = .ok cs') : none ∉ cs' := by
  intro hnone
  obtain ⟨c, -, hc⟩ := exists_of_mem_mapM h hnone
  cases (checkElement_eq_ok hc).1

theorem nils_fillEach {zero : α} {check : α → Except Abort α} {cs cs' : List (Option α)}
    (h : fillEach zero check cs = .ok cs') : nils cs' = nils cs :=
  nils_of_mapM (fun c c' hc => by
    obtain ⟨filled, -, h⟩ := bind_eq_ok.mp hc
    obtain rfl := Except.ok.inj h
    rw [Option.isNone_map]) h

end

namespace ReceiverConfig

def followed (rcv : ReceiverConfig) : List (Option Abort) :=
  [nils rcv.opsGenieConfigs, nils rcv.pagerdutyConfigs, nils rcv.pushoverConfigs,
    nils rcv.slackConfigs, nils rcv.victorOpsConfigs, nils rcv.webhookConfigs,
    nils rcv.wechatConfigs, nils rcv.snsConfigs, nils rcv.telegramConfigs,
    nils rcv.discordConfigs, nils rcv.webexConfigs, nils rcv.msteamsConfigs,
    nils rcv.msteamsV2Configs, nils rcv.jiraConfigs, nils rcv.rocketchatConfigs,
    nils rcv.mattermostConfigs].flatten

theorem faultOf_resolveFilepaths (rcv : ReceiverConfig) :
    faultOf rcv.resolveFilepaths = firstFault rcv.followed := by
  iterate 15 refine faultOf_bind_flatten (faultOf_followEach _) fun _ _ => ?_
  rw [List.flatten_singleton]
  exact faultOf_followEach _

/-- No list of integrations contains nil. -/
structure NoNil (rcv : ReceiverConfig) : Prop where
  discord : none ∉ rcv.discordConfigs
  email : none ∉ rcv.emailConfigs
  incidentio : none ∉ rcv.incidentioConfigs
  pagerduty : none ∉ rcv.pagerdutyConfigs
  slack : none ∉ rcv.slackConfigs
  webhook : none ∉ rcv.webhookConfigs
  opsGenie : none ∉ rcv.opsGenieConfigs
  wechat : none ∉ rcv.wechatConfigs
  pushover : none ∉ rcv.pushoverConfigs
  victorOps : none ∉ rcv.victorOpsConfigs
  sns : none ∉ rcv.snsConfigs
  telegram : none ∉ rcv.telegramConfigs
  webex : none ∉ rcv.webexConfigs
  msteams : none ∉ rcv.msteamsConfigs
  msteamsV2 : none ∉ rcv.msteamsV2Configs
  jira : none ∉ rcv.jiraConfigs
  rocketchat : none ∉ rcv.rocketchatConfigs
  mattermost : none ∉ rcv.mattermostConfigs

/-- What the validation of a receiver leaves: the nils of the lists that
`resolveFilepaths` reads, and none in the two lists that it does not read. -/
theorem check_eq_ok {g : GlobalConfig} {rcv rcv' : ReceiverConfig} (h : rcv.check g = .ok rcv') :
    rcv'.name = rcv.name ∧ rcv'.followed = rcv.followed ∧ none ∉ rcv'.emailConfigs ∧
      none ∉ rcv'.incidentioConfigs := by
  simp only [ReceiverConfig.check, bind_eq_ok] at h
  obtain ⟨wh, hwh, ec, hec, sc, hsc, poc, hpoc, pdc, hpdc, iio, hiio, ogc, hogc, wcc, hwcc, voc,
    hvoc, sns, hsns, tg, htg, dc, hdc, wx, hwx, mst, hmst, mst2, hmst2, jira, hjira, rc, hrc, mm,
    hmm, h⟩ := h
  obtain rfl := Except.ok.inj h
  refine ⟨rfl, ?_, not_mem_checkEach hec, not_mem_checkEach hiio⟩
  simp only [followed, nils_checkEach hwh, nils_fillEach hsc, nils_checkEach hpoc,
    nils_checkEach hpdc, nils_fillEach hogc, nils_fillEach hwcc, nils_checkEach hvoc,
    nils_checkEach hsns, nils_checkEach htg, nils_checkEach hdc, nils_checkEach hwx,
    nils_checkEach hmst, nils_checkEach hmst2, nils_checkEach hjira, nils_fillEach hrc,
    nils_checkEach hmm]

theorem noNil_of_followed {rcv : ReceiverConfig} (h : firstFault rcv.followed = none)
    (hemail : none ∉ rcv.emailConfigs) (hincidentio : none ∉ rcv.incidentioConfigs) :
    rcv.NoNil := by
  simp only [followed, firstFault_flatten_eq_none, List.forall_mem_cons, firstFault_nils] at h
  obtain ⟨opsGenie, pagerduty, pushover, slack, victorOps, webhook, wechat, sns, telegram,
    discord, webex, msteams, msteamsV2, jira, rocketchat, mattermost, -⟩ := h
  constructor <;> assumption

end ReceiverConfig

section
variable [Unicode]

/-- The loop over the receivers keeps what the validation of each keeps. -/
theorem checkReceivers_eq_ok {g : GlobalConfig} {rcvs rcvs' : List ReceiverConfig}
    {names : List GoString} (h : checkReceivers g names rcvs = .ok rcvs') :
    rcvs'.map (·.name) = rcvs.map (·.name) ∧
      rcvs'.flatMap ReceiverConfig.followed = rcvs.flatMap ReceiverConfig.followed ∧
      ∀ rcv ∈ rcvs', none ∉ rcv.emailConfigs ∧ none ∉ rcv.incidentioConfigs := by
  induction rcvs generalizing names rcvs' with
  | nil =>
    obtain rfl := Except.ok.inj h
    exact ⟨rfl, rfl, by simp⟩
  | cons rcv rcvs ih =>
    simp only [checkReceivers, bind_eq_ok] at h
    obtain ⟨-, -, rcv', hrcv, rcvs'', hrcvs, h⟩ := h
    obtain rfl := Except.ok.inj h
    obtain ⟨hname, hfollowed, hrest⟩ := ReceiverConfig.check_eq_ok hrcv
    obtain ⟨hnames, hfollowed', hrest'⟩ := ih hrcvs
    refine ⟨?_, ?_, List.forall_mem_cons.mpr ⟨hrest, hrest'⟩⟩
    · rw [List.map_cons, List.map_cons, hname, hnames]
    · rw [List.flatMap_cons, List.flatMap_cons, hfollowed, hfollowed']

section
variable [Regexp]

mutual

/-- No child route at any depth is nil. -/
def RouteConfig.NoNil : RouteConfig → Prop
  | .nil => False
  | .node _ routes => RouteConfig.NoneNil routes

def RouteConfig.NoneNil : List RouteConfig → Prop
  | [] => True
  | cr :: crs => cr.NoNil ∧ RouteConfig.NoneNil crs

end

mutual

theorem noNil_of_checkReceiver {receivers : List GoString} :
    ∀ {cr : RouteConfig}, checkReceiver receivers cr = .ok () → cr.NoNil
  | .nil, h => by cases h
  | .node _ routes, h => by
    obtain ⟨_, hroutes, -⟩ := bind_eq_ok.mp h
    exact noneNil_of_checkReceiverAll hroutes

theorem noneNil_of_checkReceiverAll {receivers : List GoString} :
    ∀ {crs : List RouteConfig}, checkReceiverAll receivers crs = .ok () → RouteConfig.NoneNil crs
  | [], _ => trivial
  | _ :: _, h => by
    obtain ⟨_, hcr, hcrs⟩ := bind_eq_ok.mp h
    exact ⟨noNil_of_checkReceiver hcr, noneNil_of_checkReceiverAll hcrs⟩

end

namespace Config
variable {τ : Type}

/-! ### The whole configuration -/

def timeIntervalNames (cfg : Config τ) : List GoString :=
  cfg.muteTimeIntervals.map (·.name) ++ cfg.timeIntervals.map (·.name)

/-- What the validation establishes when it accepts. -/
structure Accepted (cfg loaded : Config τ) : Prop where
  route : loaded.route = cfg.route
  global : loaded.global.isSome
  receivers : ∃ g, checkReceivers g [] cfg.receivers = .ok loaded.receivers
  root : checkRoot cfg.route = .ok ()
  tree : checkReceiver (cfg.receivers.map (·.name)) cfg.route = .ok ()
  muteTimeIntervals : loaded.muteTimeIntervals = cfg.muteTimeIntervals
  timeIntervals : loaded.timeIntervals = cfg.timeIntervals
  intervals : checkTimeInterval cfg.timeIntervalNames cfg.route = .ok ()

theorem accepted_of_unmarshalYAML {cfg loaded : Config τ} (h : cfg.unmarshalYAML = .ok loaded) :
    cfg.Accepted loaded := by
  simp only [unmarshalYAML, bind_eq_ok] at h
  obtain ⟨_, -, receivers, hreceivers, _, hroot, _, htree, mutes, hmutes, tiNames, hnames, _,
    hintervals, h⟩ := h
  obtain rfl := Except.ok.inj h
  obtain rfl := checkUnique_eq_ok hnames
  obtain rfl := checkUnique_eq_ok hmutes
  exact ⟨rfl, rfl, ⟨_, hreceivers⟩, hroot, htree, rfl, rfl, hintervals⟩

/-- The checks that the validation makes. -/
def validationChecks (cfg : Config τ) : List (Option Abort) :=
  let g := cfg.global.getD defaultGlobalConfig
  [g.checks, receiversChecks g [] cfg.receivers, rootChecks cfg.route,
    treeChecks (cfg.receivers.map (·.name)) cfg.route,
    uniqueChecks "mute time interval" [] cfg.muteTimeIntervals,
    uniqueChecks "time interval" (cfg.muteTimeIntervals.map (·.name)) cfg.timeIntervals,
    intervalChecks cfg.timeIntervalNames cfg.route].flatten

/-- The checks that loading makes, as conditions on the decoded configuration. -/
def checks (cfg : Config τ) : List (Option Abort) :=
  cfg.validationChecks ++ cfg.receivers.flatMap ReceiverConfig.followed

theorem faultOf_unmarshalYAML (cfg : Config τ) :
    faultOf cfg.unmarshalYAML = firstFault cfg.validationChecks := by
  refine faultOf_bind_flatten (GlobalConfig.faultOf_check _) fun _ _ => ?_
  refine faultOf_bind_flatten (faultOf_checkReceivers _ _ _) fun _ _ => ?_
  refine faultOf_bind_flatten (faultOf_checkRoot _) fun _ _ => ?_
  refine faultOf_bind_flatten (faultOf_checkReceiver _ _) fun _ _ => ?_
  refine faultOf_bind_flatten (faultOf_checkUnique _ _ _) fun mutes hmutes => ?_
  obtain rfl := checkUnique_eq_ok hmutes
  refine faultOf_bind_flatten (faultOf_checkUnique _ _ _) fun tiNames hnames => ?_
  obtain rfl := checkUnique_eq_ok hnames
  exact faultOf_bind_flatten (faultOf_checkTimeInterval _ _) fun _ _ => rfl

omit [Unicode] in
theorem faultOf_resolveFilepaths {cfg : Config τ} (h : cfg.global.isSome) :
    faultOf cfg.resolveFilepaths =
      firstFault (cfg.receivers.flatMap ReceiverConfig.followed) := by
  obtain ⟨g, hg⟩ := Option.isSome_iff_exists.mp h
  rw [resolveFilepaths, hg]
  exact faultOf_forM _ ReceiverConfig.faultOf_resolveFilepaths

theorem faultOf_load (cfg : Config τ) : faultOf cfg.load = firstFault cfg.checks := by
  refine faultOf_bind cfg.faultOf_unmarshalYAML fun loaded hloaded => ?_
  have haccepted := accepted_of_unmarshalYAML hloaded
  obtain ⟨g, hreceivers⟩ := haccepted.receivers
  rw [← (checkReceivers_eq_ok hreceivers).2.1]
  exact (faultOf_map _ _).trans (faultOf_resolveFilepaths haccepted.global)

theorem noNil_of_load {cfg loaded : Config τ} (h : cfg.load = .ok loaded) :
    (∀ rcv ∈ loaded.receivers, rcv.NoNil) ∧ loaded.route.NoNil := by
  have hfault : firstFault cfg.checks = none := by rw [← faultOf_load, h, faultOf_ok]
  simp only [load, bind_eq_ok] at h
  obtain ⟨loaded', hloaded, _, -, h⟩ := h
  obtain rfl := Except.ok.inj h
  have haccepted := accepted_of_unmarshalYAML hloaded
  obtain ⟨g, hreceivers⟩ := haccepted.receivers
  obtain ⟨-, hfollowed, hrest⟩ := checkReceivers_eq_ok hreceivers
  refine ⟨fun rcv hrcv => ?_, haccepted.route ▸ noNil_of_checkReceiver haccepted.tree⟩
  obtain ⟨hemail, hincidentio⟩ := hrest rcv hrcv
  refine ReceiverConfig.noNil_of_followed ?_ hemail hincidentio
  rw [firstFault_eq_none] at hfault ⊢
  intro c hc
  refine hfault c (List.mem_append_right _ ?_)
  rw [← hfollowed]
  exact List.mem_flatMap.mpr ⟨rcv, hrcv, hc⟩

/-- Every nil pointer that would be followed comes after an error that is reported. -/
def NilsReported (cfg : Config τ) : Prop :=
  ∀ before after, cfg.checks = before ++ some .nilDereference :: after →
    ∃ text, some (.error text) ∈ before

theorem nilsReported_iff {cfg : Config τ} :
    cfg.NilsReported ↔ firstFault cfg.checks ≠ some .nilDereference := by
  constructor
  · intro h hfirst
    obtain ⟨before, after, hchecks, hbefore⟩ := firstFault_eq_some.mp hfirst
    obtain ⟨text, htext⟩ := h before after hchecks
    cases hbefore _ htext
  · intro h before after hchecks
    by_contra hnone
    refine h ?_
    rw [hchecks, firstFault_append]
    cases hbefore : firstFault before with
    | none => rfl
    | some e =>
      obtain ⟨before', after', rfl, -⟩ := firstFault_eq_some.mp hbefore
      cases e with
      | error text => exact absurd ⟨text, by simp⟩ hnone
      | nilDereference => rfl

/-- Loading either reports an error or completes, without following a nil pointer, and
leaves no nil in a list of integrations or of child routes, exactly when every nil
pointer that would be followed comes after an error that is reported. -/
theorem load_never_crashes_iff (cfg : Config τ) :
    (cfg.load ≠ .error .nilDereference ∧ ∀ loaded, cfg.load = .ok loaded →
      (∀ rcv ∈ loaded.receivers, rcv.NoNil) ∧ loaded.route.NoNil) ↔ cfg.NilsReported := by
  rw [nilsReported_iff, ← faultOf_load]
  constructor
  · rintro ⟨h, -⟩ hfault
    cases hload : cfg.load with
    | ok loaded => simp [hload] at hfault
    | error e =>
      rw [hload] at hfault h
      exact h (congrArg _ (Option.some.inj hfault))
  · intro h
    refine ⟨fun hload => h ?_, fun loaded => noNil_of_load⟩
    rw [hload, faultOf_error]

end Config

end

end

/-! ### Configurations that are not refused -/

/-- A receiver without integrations. -/
def ReceiverConfig.named (name : GoString) : ReceiverConfig :=
  ⟨name, [], [], [], [], [], [], [], [], [], [], [], [], [], [], [], [], [], []⟩

/-- A route that names a receiver and nothing else. -/
def RouteFields.to [Regexp] (receiver : GoString) : RouteFields :=
  ⟨receiver, none, false, ∅, ∅, [], [], [], false, none, none, none, ∅⟩

section
attribute [local instance] noRegexp asciiUnicode

/-- A configuration with one receiver, which the root names. -/
def slackConfiguration (g : GlobalConfig) (slackConfigs : List (Option SlackConfig))
    (routes : List RouteConfig) : Config Unit where
  global := some g
  route := .node (.to (str "team")) routes
  receivers := [{ ReceiverConfig.named (str "team") with slackConfigs := slackConfigs }]
  muteTimeIntervals := []
  timeIntervals := []

/-- The default global block with a Slack API URL. -/
def slackGlobal : GlobalConfig :=
  { defaultGlobalConfig with slackAPIURL := some ⟨str "https://slack.example", str "/hook", []⟩ }

/-- The condition is met by a Slack integration that takes the global API URL, and by a null
one while the global block is refused. -/
example : (slackConfiguration slackGlobal [some zeroSlackConfig] []).NilsReported ∧
    (slackConfiguration { slackGlobal with slackAPIURLFile := str "url" } [none] []).NilsReported :=
  ⟨Config.nilsReported_iff.mpr (by decide), Config.nilsReported_iff.mpr (by decide)⟩

/-- Four configurations that crash the process: a null element of `slack_configs`; a Slack
integration while the global `http_config` is null; a global app token together with a file
to read the API URL from; a null child route. -/
theorem nullConfigurations_crash :
    (slackConfiguration slackGlobal [none] []).load = .error .nilDereference ∧
      (slackConfiguration { slackGlobal with httpConfig := none } [some zeroSlackConfig] []).load =
        .error .nilDereference ∧
      (slackConfiguration { defaultGlobalConfig with
          slackAppToken := str "token", slackAPIURLFile := str "url" } [] []).load =
        .error .nilDereference ∧
      (slackConfiguration defaultGlobalConfig [] [.nil]).load = .error .nilDereference :=
  ⟨rfl, rfl, rfl, rfl⟩

end

end Alertmanager
