import ProcessMonitor.Machine.Core.Run
import ProcessMonitor.Machine.Core.Measure
import ProcessMonitor.Machine.Core.Emission
import ProcessMonitor.Machine.Core.LengthPrefix
import ProcessMonitor.Machine.Core.Delimited
import ProcessMonitor.Machine.Core.Chain
import ProcessMonitor.Machine.Core.KeyedList
import ProcessMonitor.Machine.Core.SlidingWindow
import ProcessMonitor.Machine.Core.Rotation
import ProcessMonitor.Machine.Core.Linearizable
import ProcessMonitor.Machine.Core.Ring
import ProcessMonitor.Machine.Core.Assembly
import ProcessMonitor.Machine.Kernel.DelayedWork
import ProcessMonitor.Machine.Kernel.Seqlock
import ProcessMonitor.Machine.Kernel.ProcTree
import ProcessMonitor.Machine.Posix.Word
import ProcessMonitor.Machine.Posix.Clock
import ProcessMonitor.Machine.Posix.Socket
import ProcessMonitor.Machine.Posix.CString
import ProcessMonitor.Machine.Posix.Tags
import ProcessMonitor.Machine.Posix.Files
import ProcessMonitor.Machine.Posix.Epoll
import ProcessMonitor.Machine.Posix.EdgeTriggered
import ProcessMonitor.Machine.Posix.Monitor
import ProcessMonitor.Machine.Posix.Memory
import ProcessMonitor.Machine.Posix.Numeral
import ProcessMonitor.Machine.Text.Utf8
import ProcessMonitor.Machine.Text.Json
import ProcessMonitor.Machine.Text.Members
import ProcessMonitor.Model.Vts.WorkQueue
import ProcessMonitor.Model.Vts.WorkerThreads
import ProcessMonitor.Model.Vts.Protocol
import ProcessMonitor.Model.Vts.NetServer
import ProcessMonitor.Model.Vts.ReqHandler
import ProcessMonitor.Model.Vts.WorkerPool
import ProcessMonitor.Model.Vts.Fifo
import ProcessMonitor.Model.Vts.FifoInterleaving
import ProcessMonitor.Model.Vts.Server
import ProcessMonitor.Model.Vts.ServerLoop
import ProcessMonitor.Model.Vts.Pipeline
import ProcessMonitor.Model.Vts.LogWrite
import ProcessMonitor.Model.Vts.ThreadsRecv
import ProcessMonitor.Model.Vts.NamedPipe
import ProcessMonitor.Model.Vts.VtsConfig
import ProcessMonitor.Model.Vts.ThreadsCoords
import ProcessMonitor.Model.Vts.Main
import ProcessMonitor.Model.LocGen.VtsAdapter
import ProcessMonitor.Model.LocGen.RoomStore
import ProcessMonitor.Model.LocGen.XmlLoader
import ProcessMonitor.Model.LocGen.RoomMemReader
import ProcessMonitor.Model.LocGen.LocMain
import ProcessMonitor.Model.LocGen.CompatShim
import ProcessMonitor.Model.Cli.SystemMonitor
import ProcessMonitor.Model.Driver.PmCore
import ProcessMonitor.Model.Driver.PmProcfs
import ProcessMonitor.Model.Driver.Load
import ProcessMonitor.Model.LibPm.CircuitBreaker
import ProcessMonitor.Model.LibPm.ProcfsIo
import ProcessMonitor.Model.LibPm.Parser
import ProcessMonitor.Soundness.WorkQueueHistory
import ProcessMonitor.Soundness.WakeUps
import ProcessMonitor.Soundness.AtomicSections
import ProcessMonitor.Soundness.FrameDecoding
import ProcessMonitor.Soundness.FlatObject
import ProcessMonitor.Soundness.RequestFields
import ProcessMonitor.Soundness.DedupHistory
import ProcessMonitor.Soundness.DedupRace
import ProcessMonitor.Soundness.RoomService
import ProcessMonitor.Soundness.FifoQueue
import ProcessMonitor.Soundness.FifoRace
import ProcessMonitor.Soundness.FifoIndices
import ProcessMonitor.Soundness.FifoCounters
import ProcessMonitor.Soundness.ReplyRouting
import ProcessMonitor.Soundness.ConnectionInvariant
import ProcessMonitor.Soundness.ConnectionService
import ProcessMonitor.Soundness.ConnectionView
import ProcessMonitor.Soundness.ReplyText
import ProcessMonitor.Soundness.ReplyJson
import ProcessMonitor.Soundness.RoomAgreement
import ProcessMonitor.Soundness.ReplyStream
import ProcessMonitor.Soundness.ReplyReading
import ProcessMonitor.Soundness.PipelineOrder
import ProcessMonitor.Soundness.CliEncoding
import ProcessMonitor.Soundness.CliRetry
import ProcessMonitor.Soundness.LogRotation
import ProcessMonitor.Soundness.LogWriters
import ProcessMonitor.Soundness.PipeListening
import ProcessMonitor.Soundness.LineSplitting
import ProcessMonitor.Soundness.PipeSessions
import ProcessMonitor.Soundness.TickChain
import ProcessMonitor.Soundness.SamplingSwitch
import ProcessMonitor.Soundness.StatusSnapshot
import ProcessMonitor.Soundness.StatusText
import ProcessMonitor.Soundness.ConfigGrammar
import ProcessMonitor.Soundness.DriverLoad
import ProcessMonitor.Soundness.BreakerHistory
import ProcessMonitor.Soundness.BreakerAccounting
import ProcessMonitor.Soundness.CallStatistics
import ProcessMonitor.Soundness.RetryLoop
import ProcessMonitor.Soundness.WriteAttempts
import ProcessMonitor.Soundness.RoomMap
import ProcessMonitor.Soundness.RoomsFile
import ProcessMonitor.Soundness.BackoffLaw
import ProcessMonitor.Soundness.FileBuffer
import ProcessMonitor.Soundness.RoomListing
import ProcessMonitor.Soundness.SnapshotSources
import ProcessMonitor.Soundness.LocgendRuns
import ProcessMonitor.Soundness.KeyValueLines
import ProcessMonitor.Soundness.ConfigFile
import ProcessMonitor.Soundness.RequestLog
import ProcessMonitor.Soundness.ShutdownDrain
import ProcessMonitor.Soundness.LogFlow
import ProcessMonitor.Soundness.LogFidelity
import ProcessMonitor.Soundness.ShutdownCompletes
import ProcessMonitor.Soundness.RequestLife
import ProcessMonitor.Soundness.CliOutcome
