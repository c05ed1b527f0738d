import JudgeServer.Library.Run
import JudgeServer.Utils.Transfer
import JudgeServer.SolutionsDb.Table
import JudgeServer.SolutionsDb.Extract
import JudgeServer.SolutionsDb.Polls
import JudgeServer.Client.Loop
import JudgeServer.Client.Framing
import JudgeServer.Client.InStep
import JudgeServer.Client.Outstanding
import JudgeServer.Client.Sending
import JudgeServer.Client.Outgoing
import JudgeServer.Client.Verdict
import JudgeServer.ThreadPool.Wakeup
import JudgeServer.Library.Placement
import JudgeServer.Server.Choice
import JudgeServer.Server.Compilers
import JudgeServer.Server.Decoding
import JudgeServer.Server.Connection
import JudgeServer.Server.Dispatch
import JudgeServer.Server.Durability
import JudgeServer.Server.Ids
import JudgeServer.Server.Lists
import JudgeServer.Server.Removal
import JudgeServer.Server.Sections
import JudgeServer.Server.Redispatch
import JudgeServer.Client.Process
import JudgeServer.Client.Retry
import JudgeServer.Client.Silence
import JudgeServer.Client.Hangup
import JudgeServer.Utils.Fifo
import JudgeServer.Utils.Block
import JudgeServer.Utils.Logger
import JudgeServer.SolutionsDb.Sql
import JudgeServer.SolutionsDb.Columns
import JudgeServer.Server.Control
import JudgeServer.Server.Memory
import JudgeServer.Server.Cleanup
import JudgeServer.Uthash.Iterate
import JudgeServer.Uthash.Registry
import JudgeServer.Server.Hashed
import JudgeServer.Server.Races
import JudgeServer.Server.Lifecycle
import JudgeServer.Server.Shutdown
import JudgeServer.Server.Suitable
import JudgeServer.Server.Provenance
import JudgeServer.Main.Config
import JudgeServer.ThreadPool.Tasks
import JudgeServer.Server.ClientMemory
import JudgeServer.Server.ClientView
import JudgeServer.Server.Streams
