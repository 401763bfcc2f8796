import Enigma.Transition
import Enigma.Rest
import Enigma.LockOrder
import Enigma.Indexed
import Enigma.Fifo
import Enigma.CondVar
import Enigma.SyncQueue
import Enigma.QueueStep
import Enigma.QueueThreads
import Enigma.QueueFifo
import Enigma.Linearization
import Enigma.QueueLinear
import Enigma.QueueWaiters
import Enigma.QueueStop
import Enigma.QueueWakeup
import Enigma.QueueConsumer
import Enigma.QueueRest
import Enigma.ThreadPool
import Enigma.PoolStep
import Enigma.PoolCalls
import Enigma.PoolLog
import Enigma.PoolTasks
import Enigma.PoolPlaces
import Enigma.PoolCount
import Enigma.PoolLimit
import Enigma.PoolRouting
import Enigma.PoolView
import Enigma.PoolFront
import Enigma.PoolTeardown
import Enigma.PoolRestart
import Enigma.PoolCycles
import Enigma.PoolStartup
import Enigma.PoolExec
import Enigma.PoolFutures
import Enigma.PoolIdle
import Enigma.PoolScan
import Enigma.PoolWindow
import Enigma.PoolRest
import Enigma.PoolHalt
import Enigma.FuturesRest
import Enigma.FuturesHalt
import Enigma.Promise
import Enigma.PromiseCalls
import Enigma.PromiseLock
import Enigma.EventBus
import Enigma.BusRouting
import Enigma.BusThreads
import Enigma.BusStep
import Enigma.BusCalls
import Enigma.BusAlone
import Enigma.BusLocks
import Enigma.BusOrder
import Enigma.BusView
import Enigma.HandlerThread
import Enigma.HandlerJoin
import Enigma.HandlerLife
import Enigma.BusOpen
import Enigma.BusRest
import Enigma.HandlerServe
import Enigma.HandlerRestart
import Enigma.HandlerThrow
import Enigma.BusCancel
import Enigma.BusCopies
import Enigma.BusAcks
import Enigma.BusStream
import Enigma.Logger
import Enigma.LoggerOrder
import Enigma.LoggerView
import Enigma.LoggerDrain
import Enigma.LoggerCalls
import Enigma.LoggerSinks
import Enigma.LoggerRest
import Enigma.Block
import Enigma.Network
import Enigma.PacketStream
import Enigma.PacketLife
import Enigma.PacketBounds
import Enigma.Ownership
import Enigma.PacketHeap
import Enigma.Directory
import Enigma.FileSink
import Enigma.FileSinkListing
import Enigma.FileSinkRotation
import Enigma.Shelf
import Enigma.FileSinkRuns
import Enigma.FileSinkFaults
import Enigma.FileSinkSize
import Enigma.Decimal
import Enigma.FileSinkNames
import Enigma.FileSinkCount
import Enigma.FileSinkInit
import Enigma.FileSinkSessions
import Enigma.FileSinkGaps
import Enigma.FileSinkShared
import Enigma.LoggerFiles
import Enigma.ConsoleSink
import Enigma.Sqlite
import Enigma.SqliteHandle
import Enigma.SqliteLedger
import Enigma.SqliteValue
import Enigma.Loop
import Enigma.SqliteRows
import Enigma.SqliteBind
import Enigma.Pattern
import Enigma.Str
import Enigma.StrCtype
import Enigma.Unicode
import Enigma.StrWide
