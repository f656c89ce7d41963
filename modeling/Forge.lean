import Forge.Framework.System
import Forge.Framework.Refinement
import Forge.Framework.AtomicObject
import Forge.Core.DequeInvariant
import Forge.Core.DequeRefinement
import Forge.Core.MpscInvariant
import Forge.Core.MpscDelivery
import Forge.Core.Future
import Forge.Core.FutureProtocol
import Forge.Core.Semaphore
import Forge.Llm.ThrottledLLMClient
import Forge.Llm.ThrottledPermits
import Forge.Core.ThreadPool
import Forge.Framework.Total
import Forge.Core.ThreadPoolTasks
import Forge.Core.ThreadPoolShutdown
import Forge.Core.ThreadPools
import Forge.Llm.Message
import Forge.Session.Conversation
import Forge.Session.Session
import Forge.Tools.ToolExecutor
import Forge.Utils.Json
import Forge.Workflow.ReAct
import Forge.Session.SessionTask
import Forge.Runtime.Runtime
import Forge.Core.ThreadPoolCalls
import Forge.Runtime.RuntimeInvariant
import Forge.Runtime.RuntimeRun
import Forge.Runtime.Deadlock
import Forge.Workflow.Outcome
import Forge.Session.WorkflowRun
import Forge.Core.ConcurrentMap
import Forge.Session.SessionManager
import Forge.Session.SessionManagerInvariant
import Forge.Session.SessionCapacity
import Forge.Session.SessionRemoval
import Forge.Framework.Termination
import Forge.Workflow.ReActRun
import Forge.Session.History
import Forge.Session.SummarizingConversation
import Forge.Session.SummaryContent
import Forge.Workflow.Transcript
import Forge.Workflow.MapReduceJoin
import Forge.Session.ToolFilter
import Forge.Framework.Confluence
import Forge.Workflow.MapReduceSchedule
import Forge.Workflow.MapReduceSequential
import Forge.Workflow.MapReduceTotals
import Forge.Workflow.Placeholder
import Forge.Workflow.TaskDag
import Forge.Workflow.TaskDagCounters
import Forge.Workflow.TaskDagLevels
import Forge.Workflow.TaskDagExecute
import Forge.Workflow.TaskDagOrder
import Forge.Workflow.Entries
import Forge.Core.RateLimiter
import Forge.Core.RateLimiterBucket
import Forge.Core.ConcurrentMapCalls
import Forge.Core.TaskPromise
import Forge.Session.SessionDestructor
import Forge.Utils.JsonText
import Forge.Workflow.PlaceholderJson
import Forge.Framework.LastEntries
import Forge.Session.ConversationWindow
import Forge.Llm.MessageJson
import Forge.Core.RateLimiterRefill
import Forge.Utils.Config
import Forge.Core.RateLimiterConfig
import Forge.Session.SummaryLedger
import Forge.Tools.ToolBatch
import Forge.Framework.MaximalMunch
import Forge.Tools.Calculator
import Forge.Tools.CalculatorGrammar
import Forge.Tools.CalculatorNumbers
import Forge.Tools.CalculatorParse
import Forge.Tools.CalculatorLiterals
import Forge.Framework.Polling
import Forge.Session.WorkflowEnd
import Forge.Session.Cancellation
import Forge.Session.Deadline
import Forge.Framework.Words
import Forge.Session.SessionReaping
import Forge.Utils.ConfigFields
import Forge.Tools.FileRead
import Forge.Tools.Shell
import Forge.Core.AsyncHttpClient
import Forge.Framework.Rounding
import Forge.Core.RateLimiterRange
import Forge.Server.Subscription
import Forge.Session.SessionCounts
import Forge.Server.SubscriptionInvariant
import Forge.Server.SubscriptionEvents
import Forge.Server.SubscriptionCounter
import Forge.Framework.Contention
import Forge.Core.RateLimiterProgress
import Forge.Llm.ThrottledProgress
import Forge.Core.DequeProgress
import Forge.Core.ThreadPoolFairness
import Forge.Server.HttpServer
import Forge.Server.HttpServerInvariant
import Forge.Server.HttpServerApi
import Forge.Framework.Networks
import Forge.Core.SsrfGuard
import Forge.Server.HttpServerShutdown
import Forge.Session.SummaryFailures
import Forge.Core.FutureWait
import Forge.Llm.LLMClient
import Forge.Utils.JsonWidth
import Forge.Utils.Tracing
import Forge.Workflow.ReActTrace
import Forge.CommandLine
