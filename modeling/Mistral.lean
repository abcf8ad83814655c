import Mistral.Engine.Step
import Mistral.Engine.Effects
import Mistral.Engine.CompletionEffects
import Mistral.Engine.HandlerEffects
import Mistral.Engine.Runs
import Mistral.Theorems.PolicyJobs
import Mistral.Theorems.JoinOnce
import Mistral.Engine.Settling
import Mistral.Theorems.ContinuedOnce
import Mistral.Engine.StartCosts
import Mistral.Engine.PostTxQueue
import Mistral.Theorems.Backlog
import Mistral.Theorems.PostTxOnce
import Mistral.Theorems.ActionsPerStart
import Mistral.Engine.Joins
import Mistral.Theorems.ResumeGoesOn
import Mistral.Theorems.JoinCreation
import Mistral.Engine.ReverseRuns
import Mistral.Theorems.ReverseOnce
import Mistral.Theorems.ReverseTarget
import Mistral.Engine.ActionResults
import Mistral.Theorems.ResultOnce
import Mistral.Engine.TaskAttempts
import Mistral.Theorems.CompletesOnce
import Mistral.Lib.Dicts
import Mistral.Engine.GlobalPublishing
import Mistral.Theorems.PublishedKept
import Mistral.Scheduler.DefaultScheduler
import Mistral.Theorems.JobsKept
import Mistral.Engine.RegularRuns
import Mistral.Engine.RegularTasks
import Mistral.Theorems.LateResults
import Mistral.Engine.WorkflowTrees
import Mistral.Lib.Progress
import Mistral.Theorems.PausesTree
import Mistral.Theorems.ResumesTree
import Mistral.Theorems.TreeRequests
import Mistral.Lang.Validation
import Mistral.Workflow.RouteSearch
import Mistral.Workflow.Routes
import Mistral.Lib.Excepts
import Mistral.Workflow.JoinVerdicts
import Mistral.Theorems.JoinSearch
import Mistral.Theorems.JoinRowOrder
import Mistral.Theorems.JoinDeadlock
import Mistral.Db.Queries
import Mistral.Db.Api
import Mistral.Theorems.TenantIsolation
import Mistral.Services.CronTriggers
import Mistral.Theorems.CronTicks
import Mistral.Engine.WorkflowAttempts
import Mistral.Theorems.OneResult
import Mistral.Engine.TreeCancellation
import Mistral.Theorems.CancelsTree
import Mistral.Lib.Versions
import Mistral.Workflow.DataFlow
import Mistral.Theorems.LatestValues
import Mistral.Workflow.InboundContext
import Mistral.Theorems.TriggersSeen
import Mistral.Engine.ItemRuns
import Mistral.Theorems.ItemPicks
import Mistral.Expressions.StdFunctions
import Mistral.Theorems.CachedCalls
import Mistral.Lib.Patterns
import Mistral.Lang.Base
import Mistral.Lang.OnClause
import Mistral.Theorems.OnClauses
import Mistral.Lib.Objects
import Mistral.Lang.PublishSections
import Mistral.Theorems.PublishMerges
import Mistral.Lib.Worklists
import Mistral.Theorems.ForcedFailures
import Mistral.Workflow.AffectedJoins
import Mistral.Theorems.AffectedJoins
import Mistral.Theorems.RetryBound
import Mistral.Engine.Publishing
import Mistral.Engine.PublishingEffects
import Mistral.Theorems.WaitAfter
import Mistral.Workflow.SharedContexts
import Mistral.Theorems.JoinReplaces
import Mistral.Lib.Sorting
import Mistral.Theorems.ClauseAgreement
import Mistral.Theorems.LockOrder
import Mistral.Engine.SubWorkflows
import Mistral.Theorems.SubWorkflowLinks
import Mistral.Services.ExpirationPolicy
import Mistral.Theorems.ExpiredExecutions
import Mistral.Expressions.YaqlExpression
import Mistral.Theorems.Interpolation
import Mistral.Expressions.JinjaExpression
import Mistral.Theorems.JinjaTemplates
import Mistral.Actions.DynamicAction
import Mistral.Theorems.StoredCode
import Mistral.Api.ExecutionReport
import Mistral.Theorems.ReportStatistics
import Mistral.Lang.Parser
import Mistral.Theorems.WorkbookItems
import Mistral.Theorems.InlineInput
import Mistral.Lib.ObjectWrites
import Mistral.Theorems.SameContexts
import Mistral.Theorems.ContextsKept
import Mistral.Scheduler.RefreshJobs
import Mistral.Theorems.RefreshesKept
import Mistral.Engine.WorkflowNames
import Mistral.Theorems.ShortNames
import Mistral.Actions.AdhocAction
import Mistral.Lib.Walks
import Mistral.Theorems.AdhocChains
import Mistral.Scheduler.JobPasses
import Mistral.Theorems.BadJobs
import Mistral.EventEngine.DefaultEventEngine
import Mistral.Theorems.EventLoop
import Mistral.Services.EventTriggers
import Mistral.Theorems.EventListeners
import Mistral.Services.ActionHeartbeats
import Mistral.Theorems.ExpiredActions
import Mistral.Api.TaskListing
import Mistral.Theorems.PagingLinks
import Mistral.Db.Sessions
import Mistral.Theorems.SerialBlocks
import Mistral.Db.ResourceMembers
import Mistral.Theorems.SharedWorkflows
import Mistral.Lib.Descents
import Mistral.Theorems.NestedTasks
import Mistral.Scheduler.LegacyScheduler
import Mistral.Theorems.CallsOnce
import Mistral.Engine.WorkflowStarts
import Mistral.Theorems.OneExecutionPerId
import Mistral.Lib.Followed
import Mistral.Notifiers.TaskNotifications
import Mistral.Theorems.FollowedTasks
