import AgentCpp.Lib.JsonReader
import AgentCpp.Lib.Table
import AgentCpp.Core.Types
import AgentCpp.Core.Escape
import AgentCpp.Core.HistoryJson
import AgentCpp.Graph.State
import AgentCpp.Graph.Checkpoint
import AgentCpp.Graph.CheckpointRoundTrip
import AgentCpp.Graph.Event
import AgentCpp.Graph.Checkpointer
import AgentCpp.Graph.CheckpointerRefinement
import AgentCpp.Graph.EventLog
import AgentCpp.Graph.Executor
import AgentCpp.Graph.Drive
import AgentCpp.Graph.Join
import AgentCpp.Graph.Builders
import AgentCpp.Graph.Workflow
import AgentCpp.Graph.ChainMachine
import AgentCpp.Graph.BuildersRun
import AgentCpp.Lib.Machine
import AgentCpp.Graph.AsyncWriter
import AgentCpp.Graph.AsyncErrors
import AgentCpp.Graph.ScopedStore
import AgentCpp.Models.Registry
import AgentCpp.Models.RegistryInvariant
import AgentCpp.Models.RegistryRun
import AgentCpp.Engines.Host
import AgentCpp.Engines.Remote
import AgentCpp.Engines.RemoteEffects
import AgentCpp.Engines.RemoteCancel
import AgentCpp.Engines.HostSegments
import AgentCpp.Engines.RemoteResponses
import AgentCpp.Graph.Issued
import AgentCpp.Graph.Calls
import AgentCpp.Graph.Threads
import AgentCpp.Graph.ThreadLog
import AgentCpp.Graph.ThreadSteps
import AgentCpp.Lib.Words
import AgentCpp.Lib.Lists
import AgentCpp.Engines.Ipc
import AgentCpp.Engines.IpcSafety
import AgentCpp.Engines.IpcRoundTrip
import AgentCpp.Lib.Linearizable
import AgentCpp.Stores.Sqlite
import AgentCpp.Stores.SqliteCache
import AgentCpp.Stores.SqliteSteps
import AgentCpp.Stores.SqliteBound
import AgentCpp.Stores.SqliteRefinement
import AgentCpp.Stores.SqliteLinear
import AgentCpp.Engines.Batcher
import AgentCpp.Engines.BatcherDecode
import AgentCpp.Engines.BatcherRun
import AgentCpp.Engines.HostSched
import AgentCpp.Engines.HostRuns
import AgentCpp.Engines.ResponseProtocol
import AgentCpp.Turn.Prune
import AgentCpp.Turn.Compress
import AgentCpp.Turn.SystemPrompt
import AgentCpp.Turn.AgentNode
import AgentCpp.Rag.Pipeline
import AgentCpp.Lib.Path
import AgentCpp.Lib.Files
import AgentCpp.Hub.Spec
import AgentCpp.Hub.Download
import AgentCpp.Hub.Shards
import AgentCpp.Hub.Pull
import AgentCpp.Hub.Catalogue
import AgentCpp.Lib.Scan
import AgentCpp.Rag.Chunker
import AgentCpp.Core.Arena
import AgentCpp.Engines.IpcArena
import AgentCpp.Engines.IpcSegments
import AgentCpp.Lib.Memory
import AgentCpp.Core.ArenaMemory
import AgentCpp.Turn.Views
import AgentCpp.Models.Eviction
import AgentCpp.Models.Budget
import AgentCpp.Engines.RemoteRestarts
import AgentCpp.Rag.VectorStore
import AgentCpp.Stores.SqliteVectors
import AgentCpp.Hal.Path
import AgentCpp.Lib.Bpf
import AgentCpp.Hal.NetworkFilter
import AgentCpp.Engines.LlamaText
import AgentCpp.Engines.PooledDecode
import AgentCpp.Hub.Token
import AgentCpp.Core.Mcp
import AgentCpp.Core.Base64
import AgentCpp.Core.Skills
import AgentCpp.Graph.StaticCycles
import AgentCpp.Graph.WorkerSlots
