import N8n.WorkflowRename
import N8n.DirectedGraphRoundTrip
import N8n.RequestsServed
import N8n.FinalStatus
import N8n.ConcurrencyQueue
import N8n.WaitTracker
import N8n.WriteLock
import N8n.InsightsCollection
import N8n.TaskMatching
import N8n.TaskSettling
import N8n.TerminalMessages
import N8n.ScheduleRuns
import N8n.TaskRunnerLifecycle
import N8n.PythonRunnerLifecycle
import N8n.SyncConvergence
import N8n.ActiveExecutionsTracking
import N8n.StartedOnce
import N8n.MultiMainSetup
import N8n.QueueRecovery
import N8n.QueueRecoverySchedule
import N8n.SSHClientsManager
import N8n.CacheBackends
import N8n.WebhookCache
import N8n.WebhookAgreement
import N8n.FullGroups
import N8n.NodeRetries
import N8n.WaitingOrder
import N8n.Deferrals
import N8n.MapByDestination
import N8n.HighestNodeLookup
import N8n.ExtractableSubgraph
import N8n.SearchNodesBFS
import N8n.GetConnectedNodes
import N8n.FromAICalls
import N8n.ExpressionParser
import N8n.NodeErrorOutput
import N8n.RewireGraph
import N8n.NodeReferences
import N8n.DeduplicationEntries
import N8n.DeduplicationLatest
import N8n.Protocol
import N8n.MergeAdditiveChanges
import N8n.ExecutionRecovery
import N8n.DeepCopyEnds
import N8n.ObservableObject
import N8n.WebSocketTransportRuns
import N8n.AugmentObjectRuns
import N8n.ChunkedInput
import N8n.CredentialUnredaction
import N8n.LikeFilters
import N8n.DataTableSizeCache
import N8n.WebhookRollback
import N8n.BinaryDataDuplication
import N8n.FilterValidation
import N8n.DefaultsRestored
import N8n.ResolveOrder
import N8n.PairedItemChains
import N8n.SlidingWindow
import N8n.EventQueue
import N8n.FormatStrings
import N8n.TaskAnalyzer
import N8n.CyclesRemoved
import N8n.HistoryPruning
import N8n.PipeReader
import N8n.PartialRun
