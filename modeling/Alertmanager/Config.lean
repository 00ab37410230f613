import Alertmanager.FirstFault
import Alertmanager.RouteConfig

/-!
# Loading a configuration

What `Config.UnmarshalYAML` of `config/config.go` does after decoding, and
`resolveFilepaths`. Every pointer of the decoded value may be nil. The validation
fills in global settings and checks the result, receiver by receiver and integration
by integration, then the routing tree. It may return an error or follow a nil pointer.
Of `resolveFilepaths` the model keeps the pointers that it follows: the paths that it
rewrites are read by none of the other functions.

Where the code stores a pointer of the global block in an integration, the model
stores the value it points to.
-/
namespace Alertmanager

/-- How a function ends that does not return a value. -/
inductive Abort
  | error (text : GoString)
  | nilDereference
  deriving DecidableEq

/-- An error is returned under a condition. -/
def reject (bad : Prop) [Decidable bad] (text : GoString) : Except Abort Unit :=
  if bad then .error (.error text) else .ok ()

/-- An error is returned if a pointer is nil. -/
def require {α : Type} (text : GoString) : Option α → Except Abort α
  | some a => .ok a
  | none => .error (.error text)

/-- A pointer is followed. -/
def deref {α : Type} : Option α → Except Abort α
  | some a => .ok a
  | none => .error .nilDereference

/-- `cmp.Or` on strings. -/
def cmpOr (a b : GoString) : GoString := if a ≠ [] then a else b

/-! ### The decoded value -/

/-- A URL, cut before and after its path. -/
structure URL where
  base : GoString
  path : GoString
  rest : GoString
  deriving DecidableEq

def URL.string (u : URL) : GoString := u.base ++ u.path ++ u.rest

/-- The path gets a slash at its end. -/
def URL.withSlash (u : URL) : URL :=
  if u.path.getLast? = some 47 then u else { u with path := u.path ++ [47] }

structure TLSConfig where
  serverName : GoString
  insecureSkipVerify : Bool
  deriving DecidableEq

structure Authorization where
  type : GoString
  credentials : GoString
  credentialsFile : GoString
  deriving DecidableEq

structure HTTPClientConfig where
  authorization : Option Authorization
  proxyURL : Option URL
  deriving DecidableEq

structure HostPort where
  host : GoString
  port : GoString
  deriving DecidableEq

/-- `HostPort.String`. -/
def HostPort.string (hp : HostPort) : GoString :=
  if hp.host = [] ∧ hp.port = [] then []
  else if 58 ∈ hp.host then str "[" ++ hp.host ++ str "]:" ++ hp.port
  else hp.host ++ str ":" ++ hp.port

structure GlobalConfig where
  httpConfig : Option HTTPClientConfig
  jiraAPIURL : Option URL
  smtpFrom : GoString
  smtpHello : GoString
  smtpSmarthost : HostPort
  smtpAuthUsername : GoString
  smtpAuthPassword : GoString
  smtpAuthPasswordFile : GoString
  smtpAuthSecret : GoString
  smtpAuthSecretFile : GoString
  smtpAuthIdentity : GoString
  smtpRequireTLS : Bool
  smtpTLSConfig : Option TLSConfig
  smtpForceImplicitTLS : Option Bool
  slackAPIURL : Option URL
  slackAPIURLFile : GoString
  slackAppToken : GoString
  slackAppTokenFile : GoString
  slackAppURL : Option URL
  pagerdutyURL : Option URL
  opsGenieAPIURL : Option URL
  opsGenieAPIKey : GoString
  opsGenieAPIKeyFile : GoString
  weChatAPIURL : Option URL
  weChatAPISecret : GoString
  weChatAPISecretFile : GoString
  weChatAPICorpID : GoString
  victorOpsAPIURL : Option URL
  victorOpsAPIKey : GoString
  victorOpsAPIKeyFile : GoString
  telegramAPIUrl : Option URL
  telegramBotToken : GoString
  telegramBotTokenFile : GoString
  webexAPIURL : Option URL
  rocketchatAPIURL : Option URL
  rocketchatToken : Option GoString
  rocketchatTokenFile : GoString
  rocketchatTokenID : Option GoString
  rocketchatTokenIDFile : GoString
  mattermostWebhookURL : Option URL
  mattermostWebhookURLFile : GoString

/-- `DefaultGlobalConfig`. -/
def defaultGlobalConfig : GlobalConfig where
  httpConfig := some ⟨none, none⟩
  jiraAPIURL := none
  smtpFrom := []
  smtpHello := str "localhost"
  smtpSmarthost := ⟨[], []⟩
  smtpAuthUsername := []
  smtpAuthPassword := []
  smtpAuthPasswordFile := []
  smtpAuthSecret := []
  smtpAuthSecretFile := []
  smtpAuthIdentity := []
  smtpRequireTLS := true
  smtpTLSConfig := some ⟨[], false⟩
  smtpForceImplicitTLS := none
  slackAPIURL := none
  slackAPIURLFile := []
  slackAppToken := []
  slackAppTokenFile := []
  slackAppURL := some ⟨str "https://slack.com", str "/api/chat.postMessage", []⟩
  pagerdutyURL := some ⟨str "https://events.pagerduty.com", str "/v2/enqueue", []⟩
  opsGenieAPIURL := some ⟨str "https://api.opsgenie.com", str "/", []⟩
  opsGenieAPIKey := []
  opsGenieAPIKeyFile := []
  weChatAPIURL := some ⟨str "https://qyapi.weixin.qq.com", str "/cgi-bin/", []⟩
  weChatAPISecret := []
  weChatAPISecretFile := []
  weChatAPICorpID := []
  victorOpsAPIURL :=
    some ⟨str "https://alert.victorops.com", str "/integrations/generic/20131114/alert/", []⟩
  victorOpsAPIKey := []
  victorOpsAPIKeyFile := []
  telegramAPIUrl := some ⟨str "https://api.telegram.org", [], []⟩
  telegramBotToken := []
  telegramBotTokenFile := []
  webexAPIURL := some ⟨str "https://webexapis.com", str "/v1/messages", []⟩
  rocketchatAPIURL := some ⟨str "https://open.rocket.chat", str "/", []⟩
  rocketchatToken := none
  rocketchatTokenFile := []
  rocketchatTokenID := none
  rocketchatTokenIDFile := []
  mattermostWebhookURL := none
  mattermostWebhookURLFile := []

structure EmailConfig where
  tlsConfig : Option TLSConfig
  smarthost : HostPort
  fromAddress : GoString
  hello : GoString
  authUsername : GoString
  authPassword : GoString
  authPasswordFile : GoString
  authSecret : GoString
  authSecretFile : GoString
  authIdentity : GoString
  requireTLS : Option Bool
  forceImplicitTLS : Option Bool

/-- An integration that is reached over HTTP, with its other settings. -/
structure HTTPIntegration (F : Type) where
  httpConfig : Option HTTPClientConfig
  settings : F

structure SlackSettings where
  appURL : Option URL
  appToken : GoString
  appTokenFile : GoString
  apiURL : Option URL
  apiURLFile : GoString

/-- The settings of an integration with an API URL of its own. -/
structure URLSettings where
  url : Option URL

/-- The settings of an integration with an API URL and a key. -/
structure KeySettings where
  apiURL : Option URL
  apiKey : GoString
  apiKeyFile : GoString

structure WechatSettings where
  apiURL : Option URL
  apiSecret : GoString
  apiSecretFile : GoString
  corpID : GoString

/-- The settings of an integration that posts to a webhook URL. -/
structure WebhookSettings where
  webhookURL : Option URL
  webhookURLFile : GoString

structure RocketchatSettings where
  apiURL : Option URL
  tokenID : Option GoString
  tokenIDFile : GoString
  token : Option GoString
  tokenFile : GoString

abbrev WebhookConfig := HTTPIntegration Unit
abbrev PushoverConfig := HTTPIntegration Unit
abbrev IncidentioConfig := HTTPIntegration Unit
abbrev SNSConfig := HTTPIntegration Unit
abbrev SlackConfig := HTTPIntegration SlackSettings
abbrev PagerdutyConfig := HTTPIntegration URLSettings
abbrev WebexConfig := HTTPIntegration URLSettings
abbrev JiraConfig := HTTPIntegration URLSettings
abbrev OpsGenieConfig := HTTPIntegration KeySettings
abbrev VictorOpsConfig := HTTPIntegration KeySettings
abbrev TelegramConfig := HTTPIntegration KeySettings
abbrev WechatConfig := HTTPIntegration WechatSettings
abbrev DiscordConfig := HTTPIntegration WebhookSettings
abbrev MSTeamsConfig := HTTPIntegration WebhookSettings
abbrev MSTeamsV2Config := HTTPIntegration WebhookSettings
abbrev MattermostConfig := HTTPIntegration WebhookSettings
abbrev RocketchatConfig := HTTPIntegration RocketchatSettings

/-- A `config.Receiver`. -/
structure ReceiverConfig where
  name : GoString
  discordConfigs : List (Option DiscordConfig)
  emailConfigs : List (Option EmailConfig)
  incidentioConfigs : List (Option IncidentioConfig)
  pagerdutyConfigs : List (Option PagerdutyConfig)
  slackConfigs : List (Option SlackConfig)
  webhookConfigs : List (Option WebhookConfig)
  opsGenieConfigs : List (Option OpsGenieConfig)
  wechatConfigs : List (Option WechatConfig)
  pushoverConfigs : List (Option PushoverConfig)
  victorOpsConfigs : List (Option VictorOpsConfig)
  snsConfigs : List (Option SNSConfig)
  telegramConfigs : List (Option TelegramConfig)
  webexConfigs : List (Option WebexConfig)
  msteamsConfigs : List (Option MSTeamsConfig)
  msteamsV2Configs : List (Option MSTeamsV2Config)
  jiraConfigs : List (Option JiraConfig)
  rocketchatConfigs : List (Option RocketchatConfig)
  mattermostConfigs : List (Option MattermostConfig)

/-- A `MuteTimeInterval` or a `TimeInterval`. -/
structure NamedIntervals (τ : Type) where
  name : GoString
  timeIntervals : List τ

structure Config [Regexp] (τ : Type) where
  global : Option GlobalConfig
  route : RouteConfig
  receivers : List ReceiverConfig
  muteTimeIntervals : List (NamedIntervals τ)
  timeIntervals : List (NamedIntervals τ)

/-! ### The global block -/

def GlobalConfig.hasSlackAppToken (g : GlobalConfig) : Prop :=
  g.slackAppToken ≠ [] ∨ g.slackAppTokenFile ≠ []
  deriving Decidable

def GlobalConfig.hasSlackAPIURL (g : GlobalConfig) : Prop :=
  g.slackAPIURL ≠ none ∨ g.slackAPIURLFile ≠ []
  deriving Decidable

def slackClash : GoString :=
  str ("at most one of slack_app_token/slack_app_token_file & " ++
    "slack_api_url/slack_api_url_file must be configured")

/-- An app token and an API URL go together only if the two URLs are the same. -/
def GlobalConfig.checkSlack (g : GlobalConfig) : Except Abort Unit :=
  if g.hasSlackAppToken ∧ g.hasSlackAPIURL then do
    let apiURL ← deref g.slackAPIURL
    let appURL ← deref g.slackAppURL
    reject (apiURL.string ≠ appURL.string) slackClash
  else .ok ()

/-- The error of a setting that is given both directly and by a file to read it from. -/
def atMostOne (setting : String) : GoString :=
  str ("at most one of " ++ setting ++ " & " ++ setting ++ "_file must be configured")

def GlobalConfig.check (g : GlobalConfig) : Except Abort Unit := do
  reject (g.slackAppToken ≠ [] ∧ g.slackAppTokenFile ≠ []) (atMostOne "slack_app_token")
  reject (g.slackAPIURL ≠ none ∧ g.slackAPIURLFile ≠ []) (atMostOne "slack_api_url")
  g.checkSlack
  reject (g.opsGenieAPIKey ≠ [] ∧ g.opsGenieAPIKeyFile ≠ []) (atMostOne "opsgenie_api_key")
  reject (g.victorOpsAPIKey ≠ [] ∧ g.victorOpsAPIKeyFile ≠ []) (atMostOne "victorops_api_key")
  reject (g.telegramBotToken ≠ [] ∧ g.telegramBotTokenFile ≠ []) (atMostOne "telegram_bot_token")
  reject (g.smtpAuthPassword ≠ [] ∧ g.smtpAuthPasswordFile ≠ []) (atMostOne "smtp_auth_password")
  reject (g.rocketchatToken ≠ none ∧ g.rocketchatTokenFile ≠ []) (atMostOne "rocketchat_token")
  reject (g.rocketchatTokenID ≠ none ∧ g.rocketchatTokenIDFile ≠ [])
    (atMostOne "rocketchat_token_id")
  reject (g.smtpAuthSecret ≠ [] ∧ g.smtpAuthSecretFile ≠ []) (atMostOne "smtp_auth_secret")
  reject (g.weChatAPISecret ≠ [] ∧ g.weChatAPISecretFile ≠ []) (atMostOne "wechat_api_secret")
  reject (g.mattermostWebhookURL ≠ none ∧ g.mattermostWebhookURLFile ≠ [])
    (atMostOne "mattermost_webhook_url")

/-! ### One integration

Each function fills in global settings where the integration has none of its own, and
checks the result. -/

section
variable {F : Type} (g : GlobalConfig)

def HTTPIntegration.withHTTP (c : HTTPIntegration F) : HTTPIntegration F :=
  { c with httpConfig := c.httpConfig.or g.httpConfig }

/-- An integration of which only the HTTP configuration may be global. -/
def checkHTTP (c : HTTPIntegration Unit) : Except Abort (HTTPIntegration Unit) := .ok (c.withHTTP g)

def checkEmail (ec : EmailConfig) : Except Abort EmailConfig := do
  let smarthost := if ec.smarthost ≠ ⟨[], []⟩ then ec.smarthost else g.smtpSmarthost
  reject (smarthost.string = []) (str "no global SMTP smarthost set")
  let fromAddress := cmpOr ec.fromAddress g.smtpFrom
  reject (fromAddress = []) (str "no global SMTP from set")
  let noPassword := ec.authPassword = [] ∧ ec.authPasswordFile = []
  let noSecret := ec.authSecret = [] ∧ ec.authSecretFile = []
  pure {
    tlsConfig := ec.tlsConfig.or g.smtpTLSConfig
    smarthost := smarthost
    fromAddress := fromAddress
    hello := cmpOr ec.hello g.smtpHello
    authUsername := cmpOr ec.authUsername g.smtpAuthUsername
    authPassword := if noPassword then g.smtpAuthPassword else ec.authPassword
    authPasswordFile := if noPassword then g.smtpAuthPasswordFile else ec.authPasswordFile
    authSecret := if noSecret then g.smtpAuthSecret else ec.authSecret
    authSecretFile := if noSecret then g.smtpAuthSecretFile else ec.authSecretFile
    authIdentity := cmpOr ec.authIdentity g.smtpAuthIdentity
    requireTLS := some (ec.requireTLS.getD g.smtpRequireTLS)
    forceImplicitTLS := ec.forceImplicitTLS.or g.smtpForceImplicitTLS }

/-- The settings of a Slack integration after the global ones have been filled in: the
app token only if there is neither an authorization nor an API URL. -/
def SlackConfig.filled (sc : SlackConfig) : SlackSettings :=
  let own := sc.settings
  let globalToken := own.appToken = [] ∧ own.appTokenFile = [] ∧
    sc.httpConfig.bind (·.authorization) = none ∧ own.apiURL = none
  let globalAPIURL := own.apiURL = none ∧ own.apiURLFile = []
  { appURL := own.appURL.or g.slackAppURL
    appToken := if globalToken then g.slackAppToken else own.appToken
    appTokenFile := if globalToken then g.slackAppTokenFile else own.appTokenFile
    apiURL := if globalAPIURL then g.slackAPIURL else own.apiURL
    apiURLFile := if globalAPIURL then g.slackAPIURLFile else own.apiURLFile }

def SlackSettings.hasAppToken (s : SlackSettings) : Prop :=
  s.appToken ≠ [] ∨ s.appTokenFile ≠ []
  deriving Decidable

/-- The HTTP configuration of its own, or a copy of the global one. -/
def ownHTTPConfig : Option HTTPClientConfig → Except Abort HTTPClientConfig
  | some http => .ok http
  | none => deref g.httpConfig

def checkSlack (sc : SlackConfig) : Except Abort SlackConfig := do
  let s := sc.filled g
  let appURL ← require (str "no global Slack App URL set") s.appURL
  reject (s.apiURL = none ∧ s.apiURLFile = [] ∧ ¬ s.hasAppToken)
    (str "no Slack API URL nor App token set either inline or in a file")
  let http ← ownHTTPConfig g sc.httpConfig
  reject (s.hasAppToken ∧ http.authorization ≠ none)
    (str "http authorization can't be set when using Slack App tokens")
  if s.hasAppToken then
    pure {
      httpConfig := some
        { http with authorization := some ⟨str "Bearer", s.appToken, s.appTokenFile⟩ }
      settings := { s with apiURL := some appURL } }
  else
    pure { httpConfig := some http, settings := s }

/-- An integration that needs a URL. -/
def checkURL (url : Option URL) (text : GoString) (c : HTTPIntegration URLSettings) :
    Except Abort (HTTPIntegration URLSettings) := do
  let url ← require text (c.settings.url.or url)
  pure { c.withHTTP g with settings := { url := some url } }

def checkPagerduty : PagerdutyConfig → Except Abort PagerdutyConfig :=
  checkURL g g.pagerdutyURL (str "no global PagerDuty URL set")

def checkWebex : WebexConfig → Except Abort WebexConfig :=
  checkURL g g.webexAPIURL (str "no global Webex URL set")

def checkJira : JiraConfig → Except Abort JiraConfig :=
  checkURL g g.jiraAPIURL (str "no global Jira Cloud URL set")

/-- The key of its own, or the global one, of which there must be one then. -/
def KeySettings.fillKey (s : KeySettings) (apiKey apiKeyFile text : GoString) :
    Except Abort KeySettings :=
  if s.apiKey = [] ∧ s.apiKeyFile = [] then do
    reject (apiKey = [] ∧ apiKeyFile = []) text
    pure { s with apiKey := apiKey, apiKeyFile := apiKeyFile }
  else .ok s

/-- An integration that needs a URL, with a slash at its end, and a key. -/
def checkKeyed (apiURL : Option URL) (noURL apiKey apiKeyFile noKey : GoString)
    (c : HTTPIntegration KeySettings) : Except Abort (HTTPIntegration KeySettings) := do
  let url ← require noURL (c.settings.apiURL.or apiURL)
  let settings ←
    { c.settings with apiURL := some url.withSlash }.fillKey apiKey apiKeyFile noKey
  pure { c.withHTTP g with settings := settings }

def checkOpsGenie : OpsGenieConfig → Except Abort OpsGenieConfig :=
  checkKeyed g g.opsGenieAPIURL (str "no global OpsGenie URL set") g.opsGenieAPIKey
    g.opsGenieAPIKeyFile (str "no global OpsGenie API Key set either inline or in a file")

def checkVictorOps : VictorOpsConfig → Except Abort VictorOpsConfig :=
  checkKeyed g g.victorOpsAPIURL (str "no global VictorOps URL set") g.victorOpsAPIKey
    g.victorOpsAPIKeyFile (str "no global VictorOps API Key set")

/-- The URL of a Telegram integration may stay unset. -/
def checkTelegram (c : TelegramConfig) : Except Abort TelegramConfig := do
  let settings ← { c.settings with apiURL := c.settings.apiURL.or g.telegramAPIUrl }.fillKey
    g.telegramBotToken g.telegramBotTokenFile
    (str "missing bot_token or bot_token_file on telegram_config")
  pure { c.withHTTP g with settings := settings }

def checkWechat (c : WechatConfig) : Except Abort WechatConfig := do
  let url ← require (str "no global Wechat URL set") (c.settings.apiURL.or g.weChatAPIURL)
  let noSecret := c.settings.apiSecret = [] ∧ c.settings.apiSecretFile = []
  reject (noSecret ∧ g.weChatAPISecret = [] ∧ g.weChatAPISecretFile = [])
    (str "no global Wechat Api Secret set either inline or in a file")
  let corpID := cmpOr c.settings.corpID g.weChatAPICorpID
  reject (corpID = []) (str "no global Wechat CorpID set")
  pure { c.withHTTP g with
    settings := {
      apiURL := some url.withSlash
      apiSecret := if noSecret then g.weChatAPISecret else c.settings.apiSecret
      apiSecretFile := if noSecret then g.weChatAPISecretFile else c.settings.apiSecretFile
      corpID := corpID } }

def WebhookSettings.missing (s : WebhookSettings) : Prop :=
  s.webhookURL = none ∧ s.webhookURLFile = []
  deriving Decidable

/-- An integration that needs a webhook URL of its own. -/
def checkWebhookURL (text : GoString) (c : HTTPIntegration WebhookSettings) :
    Except Abort (HTTPIntegration WebhookSettings) := do
  reject c.settings.missing text
  pure (c.withHTTP g)

def checkDiscord : DiscordConfig → Except Abort DiscordConfig :=
  checkWebhookURL g (str "no discord webhook URL or URLFile provided")

def checkMSTeams : MSTeamsConfig → Except Abort MSTeamsConfig :=
  checkWebhookURL g (str "no msteams webhook URL or URLFile provided")

/-- An HTTP configuration without a proxy takes the proxy of the global one. -/
def withProxy : Option HTTPClientConfig → Except Abort HTTPClientConfig
  | none => deref g.httpConfig
  | some http =>
    if http.proxyURL = none then do
      let global ← deref g.httpConfig
      pure { http with proxyURL := global.proxyURL }
    else .ok http

def checkMSTeamsV2 (c : MSTeamsV2Config) : Except Abort MSTeamsV2Config := do
  let http ← withProxy g c.httpConfig
  reject c.settings.missing (str "no msteamsv2 webhook URL or URLFile provided")
  pure { c with httpConfig := some http }

def checkMattermost (c : MattermostConfig) : Except Abort MattermostConfig := do
  reject (c.settings.missing ∧ g.mattermostWebhookURL = none ∧ g.mattermostWebhookURLFile = [])
    (str "missing webhook_url or webhook_url_file on mattermost_config")
  pure { c.withHTTP g with
    settings :=
      if c.settings.missing then ⟨g.mattermostWebhookURL, g.mattermostWebhookURLFile⟩
      else c.settings }

def checkRocketchat (c : RocketchatConfig) : Except Abort RocketchatConfig := do
  let noTokenID := c.settings.tokenID = none ∧ c.settings.tokenIDFile = []
  let noToken := c.settings.token = none ∧ c.settings.tokenFile = []
  reject (noTokenID ∧ g.rocketchatTokenID = none ∧ g.rocketchatTokenIDFile = [])
    (str "no global Rocketchat TokenID set either inline or in a file")
  reject (noToken ∧ g.rocketchatToken = none ∧ g.rocketchatTokenFile = [])
    (str "no global Rocketchat Token set either inline or in a file")
  pure { c.withHTTP g with
    settings := {
      apiURL := c.settings.apiURL.or g.rocketchatAPIURL
      tokenID := if noTokenID then g.rocketchatTokenID else c.settings.tokenID
      tokenIDFile := if noTokenID then g.rocketchatTokenIDFile else c.settings.tokenIDFile
      token := if noToken then g.rocketchatToken else c.settings.token
      tokenFile := if noToken then g.rocketchatTokenFile else c.settings.tokenFile } }

end

/-! ### Receivers -/

section
variable {α : Type}

/-- One element of a list in which nil is an error. -/
def checkElement (missing : GoString) (check : α → Except Abort α) (c : Option α) :
    Except Abort (Option α) := do
  let c ← require missing c
  some <$> check c

def checkEach (missing : String) (check : α → Except Abort α) (cs : List (Option α)) :
    Except Abort (List (Option α)) :=
  cs.mapM (checkElement (str missing) check)

/-- One element of a list in which nil is replaced by a zero value. The replacement is
stored in the loop variable only, so that the element of the list stays nil. -/
def fillElement (zero : α) (check : α → Except Abort α) (c : Option α) :
    Except Abort (Option α) := do
  let filled ← check (c.getD zero)
  pure (c.map fun _ => filled)

def fillEach (zero : α) (check : α → Except Abort α) (cs : List (Option α)) :
    Except Abort (List (Option α)) :=
  cs.mapM (fillElement zero check)

end

def zeroSlackConfig : SlackConfig := ⟨none, ⟨none, [], [], none, []⟩⟩

def zeroOpsGenieConfig : OpsGenieConfig := ⟨none, ⟨none, [], []⟩⟩

def zeroWechatConfig : WechatConfig := ⟨none, ⟨none, [], [], []⟩⟩

def zeroRocketchatConfig : RocketchatConfig := ⟨none, ⟨none, none, [], none, []⟩⟩

/-- The lists of integrations, in the order in which they are checked. -/
def ReceiverConfig.check (g : GlobalConfig) (rcv : ReceiverConfig) :
    Except Abort ReceiverConfig := do
  let webhookConfigs ← checkEach "missing webhook config" (checkHTTP g) rcv.webhookConfigs
  let emailConfigs ← checkEach "missing email config" (checkEmail g) rcv.emailConfigs
  let slackConfigs ← fillEach zeroSlackConfig (checkSlack g) rcv.slackConfigs
  let pushoverConfigs ← checkEach "missing pushover config" (checkHTTP g) rcv.pushoverConfigs
  let pagerdutyConfigs ←
    checkEach "missing pagerduty config" (checkPagerduty g) rcv.pagerdutyConfigs
  let incidentioConfigs ←
    checkEach "missing incidentio config" (checkHTTP g) rcv.incidentioConfigs
  let opsGenieConfigs ← fillEach zeroOpsGenieConfig (checkOpsGenie g) rcv.opsGenieConfigs
  let wechatConfigs ← fillEach zeroWechatConfig (checkWechat g) rcv.wechatConfigs
  let victorOpsConfigs ←
    checkEach "missing victorops config" (checkVictorOps g) rcv.victorOpsConfigs
  let snsConfigs ← checkEach "missing sns config" (checkHTTP g) rcv.snsConfigs
  let telegramConfigs ← checkEach "missing telegram config" (checkTelegram g) rcv.telegramConfigs
  let discordConfigs ← checkEach "missing discord config" (checkDiscord g) rcv.discordConfigs
  let webexConfigs ← checkEach "missing webex config" (checkWebex g) rcv.webexConfigs
  let msteamsConfigs ← checkEach "missing msteams config" (checkMSTeams g) rcv.msteamsConfigs
  let msteamsV2Configs ←
    checkEach "missing msteamsv2 config" (checkMSTeamsV2 g) rcv.msteamsV2Configs
  let jiraConfigs ← checkEach "missing jira config" (checkJira g) rcv.jiraConfigs
  let rocketchatConfigs ←
    fillEach zeroRocketchatConfig (checkRocketchat g) rcv.rocketchatConfigs
  let mattermostConfigs ←
    checkEach "missing mattermost config" (checkMattermost g) rcv.mattermostConfigs
  pure { name := rcv.name, discordConfigs, emailConfigs, incidentioConfigs, pagerdutyConfigs,
         slackConfigs, webhookConfigs, opsGenieConfigs, wechatConfigs, pushoverConfigs,
         victorOpsConfigs, snsConfigs, telegramConfigs, webexConfigs, msteamsConfigs,
         msteamsV2Configs, jiraConfigs, rocketchatConfigs, mattermostConfigs }

section
variable [Unicode]

/-- An error text that quotes a name. -/
def quoting (before : String) (name : GoString) (after : String) : GoString :=
  str before ++ Strconv.quote name ++ str after

/-- The loop over the receivers, with the names of those before. -/
def checkReceivers (g : GlobalConfig) (names : List GoString) :
    List ReceiverConfig → Except Abort (List ReceiverConfig)
  | [] => .ok []
  | rcv :: rcvs => do
      reject (rcv.name ∈ names) (quoting "notification config name " rcv.name " is not unique")
      let rcv' ← rcv.check g
      let rcvs' ← checkReceivers g (names ++ [rcv.name]) rcvs
      pure (rcv' :: rcvs')

/-! ### The routing tree -/

section
variable [Regexp]

/-- The root is the fallback for all alerts. -/
def checkRoot : RouteConfig → Except Abort Unit
  | .nil => .error (.error (str "no routes provided"))
  | .node cr _ => do
      reject (cr.receiver = []) (str "root route must specify a default receiver")
      reject (GoMap.len cr.matchEq > 0 ∨ GoMap.len cr.matchRE > 0 ∨ cr.matchers ≠ [])
        (str "root route must not have any matchers")
      reject (cr.muteTimeIntervals ≠ []) (str "root route must not have any mute time intervals")
      reject (cr.activeTimeIntervals ≠ [])
        (str "root route must not have any active time intervals")

mutual

def checkReceiver (receivers : List GoString) : RouteConfig → Except Abort Unit
  | .nil => .error .nilDereference
  | .node cr routes => do
      checkReceiverAll receivers routes
      reject (cr.receiver ≠ [] ∧ cr.receiver ∉ receivers)
        (quoting "undefined receiver " cr.receiver " used in route")

def checkReceiverAll (receivers : List GoString) : List RouteConfig → Except Abort Unit
  | [] => .ok ()
  | cr :: crs => do
      checkReceiver receivers cr
      checkReceiverAll receivers crs

end

def checkDefined (timeIntervals : List GoString) (names : List GoString) : Except Abort Unit :=
  names.forM fun ti =>
    reject (ti ∉ timeIntervals) (quoting "undefined time interval " ti " used in route")

mutual

def checkTimeInterval (timeIntervals : List GoString) : RouteConfig → Except Abort Unit
  | .nil => .error .nilDereference
  | .node cr routes => do
      checkTimeIntervalAll timeIntervals routes
      checkDefined timeIntervals cr.activeTimeIntervals
      checkDefined timeIntervals cr.muteTimeIntervals

def checkTimeIntervalAll (timeIntervals : List GoString) : List RouteConfig → Except Abort Unit
  | [] => .ok ()
  | cr :: crs => do
      checkTimeInterval timeIntervals cr
      checkTimeIntervalAll timeIntervals crs

end

/-- The names so far and those of the intervals, which must be new. -/
def checkUnique {τ : Type} (kind : String) (names : List GoString) :
    List (NamedIntervals τ) → Except Abort (List GoString)
  | [] => .ok names
  | mt :: mts => do
      reject (mt.name ∈ names) (quoting (kind ++ " ") mt.name " is not unique")
      checkUnique kind (names ++ [mt.name]) mts

/-! ### The whole configuration -/

namespace Config
variable {τ : Type}

/-- `Config.UnmarshalYAML` after decoding. -/
def unmarshalYAML (cfg : Config τ) : Except Abort (Config τ) := do
  let g := cfg.global.getD defaultGlobalConfig
  g.check
  let receivers ← checkReceivers g [] cfg.receivers
  checkRoot cfg.route
  checkReceiver (cfg.receivers.map (·.name)) cfg.route
  let mutes ← checkUnique "mute time interval" [] cfg.muteTimeIntervals
  let tiNames ← checkUnique "time interval" mutes cfg.timeIntervals
  checkTimeInterval tiNames cfg.route
  pure { cfg with global := some g, receivers := receivers }

end Config

end

end

/-- The loop over a list of integrations follows the pointer of each. -/
def followEach {α : Type} (cs : List (Option α)) : Except Abort Unit :=
  cs.forM fun c => do
    let _ ← deref c

/-- The lists of a receiver in the order in which `resolveFilepaths` reads them: not
those of email and incident.io integrations. -/
def ReceiverConfig.resolveFilepaths (rcv : ReceiverConfig) : Except Abort Unit := do
  followEach rcv.opsGenieConfigs
  followEach rcv.pagerdutyConfigs
  followEach rcv.pushoverConfigs
  followEach rcv.slackConfigs
  followEach rcv.victorOpsConfigs
  followEach rcv.webhookConfigs
  followEach rcv.wechatConfigs
  followEach rcv.snsConfigs
  followEach rcv.telegramConfigs
  followEach rcv.discordConfigs
  followEach rcv.webexConfigs
  followEach rcv.msteamsConfigs
  followEach rcv.msteamsV2Configs
  followEach rcv.jiraConfigs
  followEach rcv.rocketchatConfigs
  followEach rcv.mattermostConfigs

namespace Config
variable {τ : Type} [Regexp]

def resolveFilepaths (cfg : Config τ) : Except Abort Unit := do
  let _ ← deref cfg.global
  cfg.receivers.forM ReceiverConfig.resolveFilepaths

/-- The validation, then `resolveFilepaths`. -/
def load [Unicode] (cfg : Config τ) : Except Abort (Config τ) := do
  let loaded ← cfg.unmarshalYAML
  loaded.resolveFilepaths
  pure loaded

end Config

end Alertmanager
