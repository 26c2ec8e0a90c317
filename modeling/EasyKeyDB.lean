import EasyKeyDB.Library.LittleEndian
import EasyKeyDB.Library.AppendLog
import EasyKeyDB.Library.UnorderedMap
import EasyKeyDB.Library.Throwing
import EasyKeyDB.Library.FixedBuffer
import EasyKeyDB.Library.Consumer
import EasyKeyDB.Library.WriteOnce
import EasyKeyDB.Library.Linearization
import EasyKeyDB.ByteBuffer
import EasyKeyDB.Database
import EasyKeyDB.Storage
import EasyKeyDB.Protocol
import EasyKeyDB.ClientSocket
import EasyKeyDB.Response
import EasyKeyDB.Handler
import EasyKeyDB.Grammar
import EasyKeyDB.Serving
import EasyKeyDB.DocumentedPackets
import EasyKeyDB.ForeignBytes
import EasyKeyDB.KeyValueMap
import EasyKeyDB.Packets
import EasyKeyDB.Dispatch
import EasyKeyDB.AcceptQueue
import EasyKeyDB.ReplyFrames
import EasyKeyDB.Coalesced
import EasyKeyDB.PartialWrites
import EasyKeyDB.SlowSender
import EasyKeyDB.TextReplies
import EasyKeyDB.FailedWrites
import EasyKeyDB.Commuting
import EasyKeyDB.Client
import EasyKeyDB.ClientRequests
import EasyKeyDB.ClientResponses
import EasyKeyDB.ConnectionSteps
import EasyKeyDB.Network
import EasyKeyDB.Closing
import EasyKeyDB.Crashes
import EasyKeyDB.BufferCalls
import EasyKeyDB.Bookkeeping
import EasyKeyDB.Stopping
import EasyKeyDB.IdleConnections
import EasyKeyDB.WriteOnceMap
import EasyKeyDB.SharedFiles
import EasyKeyDB.Replies
import EasyKeyDB.AnyClients
import EasyKeyDB.DiskFaults
import EasyKeyDB.BufferSizes
import EasyKeyDB.Sessions
import EasyKeyDB.Linearizable
import EasyKeyDB.Batches
import EasyKeyDB.Interruptions
import EasyKeyDB.Descriptors
import EasyKeyDB.CommandLine
import EasyKeyDB.CommandRuns
import EasyKeyDB.CommandFaults
import EasyKeyDB.ImportedFiles
import EasyKeyDB.Interactive
