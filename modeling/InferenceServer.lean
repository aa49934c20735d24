import InferenceServer.Lib.Machine
import InferenceServer.Request
import InferenceServer.Draining
import InferenceServer.Service
import InferenceServer.StandAlone
import InferenceServer.ContextBound
import InferenceServer.FailoverQuota
import InferenceServer.TenantIsolation
import InferenceServer.IdleWait
import InferenceServer.Failures
import InferenceServer.SharedConnection
import InferenceServer.UtilizationGauge
import InferenceServer.OccupiedSlots
import InferenceServer.DeniedCalls
import InferenceServer.PromptBoundaries
import InferenceServer.ProperAnswers
import InferenceServer.NumericLimits
import InferenceServer.DeliveredText
import InferenceServer.Lib.ListScheduling
import InferenceServer.Records
import InferenceServer.DecodeCalls
import InferenceServer.SlotLoads
import InferenceServer.Throughput
import InferenceServer.Punctual
import InferenceServer.StaticBatching
import InferenceServer.Connections
import InferenceServer.QueueDepth
import InferenceServer.Lib.Fairness
import InferenceServer.Starvation
import InferenceServer.ThreadPool
import InferenceServer.PoolProgress
import InferenceServer.Replies
import InferenceServer.PooledNode
import InferenceServer.PooledReplies
import InferenceServer.MainThread
import InferenceServer.Gateway
import InferenceServer.AdmittedRequests
import InferenceServer.CompletionIds
