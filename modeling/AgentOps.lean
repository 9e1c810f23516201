import AgentOps.EventLog.PumpTheorems
import AgentOps.Service.EndCallPrograms
import AgentOps.Service.RevivalPrograms
import AgentOps.Runner.Turns
import AgentOps.AgenticRun.RunClient
import AgentOps.Service.Footprint
import AgentOps.Slackbot.Transcript
import AgentOps.Service.Approval
import AgentOps.Slackbot.Prompts
import AgentOps.Service.Pins
import AgentOps.Service.Standing
import AgentOps.Service.Workspaces
import AgentOps.Service.WorkspacePrograms
import AgentOps.Runner.Stream
import AgentOps.Lib.Utf8
import AgentOps.Slackbot.Split
import AgentOps.Slackbot.Limited
import AgentOps.Slackbot.LimitedTheorems
import AgentOps.Slackbot.SplitTheorems
import AgentOps.Service.PromptKeys
import AgentOps.Lib.Lines
import AgentOps.Slackbot.Quotation
import AgentOps.Slackbot.Catchup
import AgentOps.Slackbot.Omission
import AgentOps.Link.Grace
import AgentOps.Sdk.Feed
import AgentOps.Sdk.FeedTheorems
import AgentOps.Slackbot.Roster
import AgentOps.Service.Pending
import AgentOps.Service.PendingPrograms
import AgentOps.Service.Quota
import AgentOps.Service.QuotaTheorems
import AgentOps.Runner.Aggregator
import AgentOps.Runner.AggregatorTheorems
import AgentOps.Slackbot.Caps
import AgentOps.Sidecar.Agents
import AgentOps.Sidecar.AgentsTheorems
import AgentOps.Slackbot.Answer
import AgentOps.Slackbot.Permission
import AgentOps.Lib.Cut
import AgentOps.Lib.History
import AgentOps.Link.SigningKeys
import AgentOps.Link.SigningKeysTheorems
import AgentOps.Runner.OutboxTheorems
import AgentOps.Sidecar.EnvParse
import AgentOps.Sidecar.EnvParseTheorems
import AgentOps.Sidecar.TokenLoop
import AgentOps.Slackbot.LimitedQueue
import AgentOps.Slackbot.Registry
import AgentOps.Lib.Paging
import AgentOps.Lib.Transaction
import AgentOps.SessionStore.Sqlite
import AgentOps.SessionStore.SqliteTheorems
import AgentOps.Slackbot.Resume
import AgentOps.Slackbot.SplitFences
import AgentOps.Slackbot.SplitFits
import AgentOps.Link.AgentIOProgress
