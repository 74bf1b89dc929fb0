import Nigiri.WireFormat
import Nigiri.LndError
import Nigiri.PaymentMessage
import Nigiri.Payment
import Nigiri.PaymentStream
import Nigiri.PaymentErrors
import Nigiri.PaymentMaps
import Nigiri.LndConfig
import Nigiri.OpenChannel
import Nigiri.OpenChannelStream
import Nigiri.OpenChannelOutcome
import Nigiri.Process
import Nigiri.EmbeddedProcess
import Nigiri.AnsweredRuns
import Nigiri.Polling
import Nigiri.AnsweredPolling
import Nigiri.Peg
import Nigiri.PegRelease
import Nigiri.PegIn
import Nigiri.PegInClaims
import Nigiri.PegInOutcome
import Nigiri.FixtureError
import Nigiri.WalletUnlocker
import Nigiri.WalletInit
import Nigiri.LndPair
import Nigiri.LndSync
import Nigiri.LndSyncProgress
import Nigiri.ReadyChannel
import Nigiri.PairRules
import Nigiri.OpenAndConfirm
import Nigiri.ReverseReadiness
import Nigiri.Rewrite
import Nigiri.Masking
import Nigiri.Utf8
import Nigiri.AsciiCase
import Nigiri.Diagnostics
import Nigiri.SecretHeader
import Nigiri.AnchoredScan
import Nigiri.AnchoredRefinement
import Nigiri.KeyBlockScan
import Nigiri.Redaction
import Nigiri.RedactionTotal
import Nigiri.SecretKey
import Nigiri.AnchoredSecrets
import Nigiri.PrivateKeyBlocks
import Nigiri.AddedSecret
import Nigiri.JoinedKeyBlocks
import Nigiri.GuardedText
import Nigiri.JoinedDiagnostics
import Nigiri.StandingMarkers
import Nigiri.SecretBorder
import Nigiri.CoveredText
import Nigiri.StableText
import Nigiri.FixedPatterns
import Nigiri.CoveredCells
import Nigiri.CoveredReading
import Nigiri.Idempotence
import Nigiri.NodeArgs
import Nigiri.PushEncoding
import Nigiri.PegOutScript
import Nigiri.ContainerFile
import Nigiri.PeerEndpoint
import Nigiri.PeerHosts
import Nigiri.EndpointRules
import Nigiri.EndpointGrammar
import Nigiri.SensitiveText
import Nigiri.SensitiveRemoval
import Nigiri.EchoOverlap
import Nigiri.LossyText
import Nigiri.LogSample
import Nigiri.BoundedResponse
import Nigiri.NodeRpc
import Nigiri.RpcEnvelope
import Nigiri.EndpointAuthority
import Nigiri.ReadinessSound
import Nigiri.LineLocality
import Nigiri.CharBoundaries
import Nigiri.BoundedDiagnostics
import Nigiri.CheckedInt
import Nigiri.Checks
import Nigiri.PairAllocation
import Nigiri.WireRecords
import Nigiri.RequestEncoding
import Nigiri.InvoiceRequests
import Nigiri.TwoPhase
import Nigiri.NodeClient
import Nigiri.BootstrapUrl
import Nigiri.MappedUrl
import Nigiri.Machine
import Nigiri.Channels
import Nigiri.CoordinateStartup
import Nigiri.HandoffOwner
import Nigiri.History
import Nigiri.Supervisor
import Nigiri.CleanupOrder
import Nigiri.SupervisorSteps
import Nigiri.MutationRecords
import Nigiri.NoLeak
import Nigiri.SupervisorCaller
import Nigiri.SupervisorEnds
import Nigiri.CleanupReport
import Nigiri.Composite
import Nigiri.CompositeTeardown
import Nigiri.ClientConfig
import Nigiri.StackStartup
import Nigiri.StackSteps
import Nigiri.StackOrder
import Nigiri.StartedStack
import Nigiri.ScopedLocals
import Nigiri.TestMacro
import Nigiri.TestExpansion
import Nigiri.ExpansionSettles
import Nigiri.TestRuns
import Nigiri.FairPermit
import Nigiri.MiningGate
import Nigiri.LndTopology
import Nigiri.LndTopologySteps
import Nigiri.LndTopologyOrder
import Nigiri.StartedTopology
import Nigiri.SupervisedTopology
import Nigiri.ElectrumProbe
