import Alertmanager.AdaptiveProgram
import Alertmanager.AggrGroups
import Alertmanager.Alert
import Alertmanager.AlertHash
import Alertmanager.AlertProvider
import Alertmanager.AlertStore
import Alertmanager.AnchoredPatterns
import Alertmanager.ApiSilences
import Alertmanager.BinarySearch
import Alertmanager.Bucket
import Alertmanager.BucketHeap
import Alertmanager.Bufio
import Alertmanager.Calendar
import Alertmanager.ClassicParser
import Alertmanager.ClassicRoundTrip
import Alertmanager.ClassicSplit
import Alertmanager.ClusterRound
import Alertmanager.ClusterTurns
import Alertmanager.Config
import Alertmanager.ConfigFaults
import Alertmanager.ConfigReferences
import Alertmanager.Decimal
import Alertmanager.Delegate
import Alertmanager.Delimited
import Alertmanager.DispatchOrder
import Alertmanager.DispatchSafety
import Alertmanager.DispatchStart
import Alertmanager.Dispatcher
import Alertmanager.ElmParser
import Alertmanager.EventBatches
import Alertmanager.FailedPeers
import Alertmanager.FirstFault
import Alertmanager.FullStateSync
import Alertmanager.GoMap
import Alertmanager.GoQuote
import Alertmanager.GoSlice
import Alertmanager.GoTime
import Alertmanager.GroupFlush
import Alertmanager.GroupLimit
import Alertmanager.GroupMuting
import Alertmanager.HeapOrder
import Alertmanager.Inflationary
import Alertmanager.Inhibit
import Alertmanager.Inhibition
import Alertmanager.JsonString
import Alertmanager.Labels
import Alertmanager.LastWriter
import Alertmanager.LexerRuns
import Alertmanager.LogGossip
import Alertmanager.LogKeys
import Alertmanager.MatcherLexer
import Alertmanager.MatcherParser
import Alertmanager.MatcherRoundTrip
import Alertmanager.MatcherText
import Alertmanager.NotificationLog
import Alertmanager.NotificationTruth
import Alertmanager.NotifyStages
import Alertmanager.OversizedGossip
import Alertmanager.PeerDeduplication
import Alertmanager.PerAlertLimit
import Alertmanager.Re2
import Alertmanager.ReceiverIntegrations
import Alertmanager.ReceiverPipelines
import Alertmanager.RefiredAlerts
import Alertmanager.Replay
import Alertmanager.Route
import Alertmanager.RouteConfig
import Alertmanager.RouteIds
import Alertmanager.RouteIndexes
import Alertmanager.RouteKeys
import Alertmanager.RouteLabelResolver
import Alertmanager.RouteLabels
import Alertmanager.RouteMatch
import Alertmanager.Runs
import Alertmanager.SelfDelimiting
import Alertmanager.Silence
import Alertmanager.SilenceEdits
import Alertmanager.SilenceFeed
import Alertmanager.SilenceGossip
import Alertmanager.SilenceHistory
import Alertmanager.SilenceIndexes
import Alertmanager.SilenceOutcomes
import Alertmanager.SilenceQueries
import Alertmanager.SilenceSnapshot
import Alertmanager.SilenceStore
import Alertmanager.SilenceValidity
import Alertmanager.SilenceVersions
import Alertmanager.Silencer
import Alertmanager.SilencerInterleaving
import Alertmanager.SilencerRuns
import Alertmanager.SilencerSoundness
import Alertmanager.Silences
import Alertmanager.SliceHeap
import Alertmanager.SnapshotIndexes
import Alertmanager.StagePhases
import Alertmanager.StaggeredTurns
import Alertmanager.StoreTwins
import Alertmanager.StrconvParse
import Alertmanager.Subscribers
import Alertmanager.TemplateData
import Alertmanager.TimeIntervalYaml
import Alertmanager.TimeRanges
import Alertmanager.TlsTransport
import Alertmanager.Truncation
import Alertmanager.UiFilter
import Alertmanager.UncompilableSilence
import Alertmanager.Utf8Text
import Alertmanager.WebhookRetry
import Alertmanager.Wire
import Alertmanager.YamlFields
