import ReflectivePi.Curation.Runs
import ReflectivePi.Curation.Interleaving
import ReflectivePi.Delta.Untrusted
import ReflectivePi.Services.StateCodec
import ReflectivePi.Compaction.Checkpoint
import ReflectivePi.Curation.Pruning
import ReflectivePi.Services.Observation
import ReflectivePi.Services.Rebinding
import ReflectivePi.Services.ReplicatedRuns
import ReflectivePi.Tools.Mutations
import ReflectivePi.Agent.Transcripts
import ReflectivePi.Agent.DeliveryRuns
import ReflectivePi.Agent.ShownQueues
import ReflectivePi.Tools.Snapshots
import ReflectivePi.Tui.StdinChunks
import ReflectivePi.Auth.OAuthRuns
import ReflectivePi.Auth.StorageRuns
import ReflectivePi.Ai.ModelsHistory
import ReflectivePi.Config.SettingsKept
import ReflectivePi.Ai.SseCuts
import ReflectivePi.Requests.ToolReferences
import ReflectivePi.Caching.CacheWarmerRuns
import ReflectivePi.Codex.WebSocketRuns
import ReflectivePi.Selector.TreeRuns
import ReflectivePi.Recovery.Omissions
import ReflectivePi.Recovery.AssistantCall
import ReflectivePi.Navigation.Completion
import ReflectivePi.Calls.Runs
import ReflectivePi.Overlays.Proper
import ReflectivePi.Rpc.Runs
import ReflectivePi.Availability.Settled
import ReflectivePi.Components.Runs
import ReflectivePi.RpcMode.Runs
import ReflectivePi.Replacement.Runs
import ReflectivePi.Session.Switch
import ReflectivePi.Session.Walks
import ReflectivePi.Curation.Atomic
import ReflectivePi.Compaction.Trusted
import ReflectivePi.Agent.ToolReplay
import ReflectivePi.Requests.ParallelResults
import ReflectivePi.Requests.ConvertedIds
import ReflectivePi.Requests.ThinkingBudget
import ReflectivePi.Requests.OpenApiSchema
import ReflectivePi.Tools.Limits
import ReflectivePi.Tools.ReadText
import ReflectivePi.Tui.Editor.Wraps
import ReflectivePi.Tools.LineEndings
import ReflectivePi.Tools.FuzzyEdits
import ReflectivePi.Session.Listing
import ReflectivePi.Ai.AnthropicStream
import ReflectivePi.Ai.EventStream
import ReflectivePi.Ai.Uuid
import ReflectivePi.Tui.Stack
import ReflectivePi.Prompts.Templates
