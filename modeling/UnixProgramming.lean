import UnixProgramming.Lib.Run
import UnixProgramming.Lib.LinkedStore
import UnixProgramming.Lib.StableInsert
import UnixProgramming.Lib.CString
import UnixProgramming.Lib.BinaryHeap
import UnixProgramming.Timer.SortTimerList
import UnixProgramming.Timer.SortedSequence
import UnixProgramming.Timer.ListRefinement
import UnixProgramming.Timer.ListFiring
import UnixProgramming.Timer.InactiveLink
import UnixProgramming.Timer.InactiveLinkAgreement
import UnixProgramming.Timer.TimeWheel
import UnixProgramming.Timer.WheelCountdown
import UnixProgramming.Timer.WheelSlots
import UnixProgramming.Timer.TimeHeap
import UnixProgramming.Timer.HeapSift
import UnixProgramming.Timer.HeapBuild
import UnixProgramming.Timer.HeapInsert
import UnixProgramming.Timer.HeapPop
import UnixProgramming.Timer.HeapTick
import UnixProgramming.Pool.HttpConn
import UnixProgramming.Pool.Fragmentation
import UnixProgramming.Pool.HttpResponse
import UnixProgramming.Pool.Transmission
import UnixProgramming.Pool.Framing
import UnixProgramming.Pool.Session
import UnixProgramming.Pool.Mapping
import UnixProgramming.Pool.Request
import UnixProgramming.Pool.KeepAlive
import UnixProgramming.Pool.Server
import UnixProgramming.Pool.Ownership
import UnixProgramming.Pool.Methods
import UnixProgramming.Pool.Exclusion
import UnixProgramming.Csapp.Rio
import UnixProgramming.Csapp.RioDelivery
import UnixProgramming.Lib.Tally
import UnixProgramming.Pool.WorkQueue
import UnixProgramming.Pool.QueueBound
import UnixProgramming.Lib.Cyclic
import UnixProgramming.Pool.ProcessPool
import UnixProgramming.Pool.RoundRobin
import UnixProgramming.Pool.ChildTable
import UnixProgramming.Pool.CgiConn
import UnixProgramming.Pool.PoolSystem
import UnixProgramming.Pool.EdgeDispatch
import UnixProgramming.Pool.Listening
import UnixProgramming.Ipc.ShmServer
import UnixProgramming.Ipc.ClientTables
import UnixProgramming.Ipc.ShmRegions
import UnixProgramming.Ipc.Shutdown
import UnixProgramming.Ipc.ShmRelay
import UnixProgramming.Ipc.ShmDelivery
import UnixProgramming.IoMultiplexing.ChatServer
import UnixProgramming.IoMultiplexing.ChatTable
import UnixProgramming.IoMultiplexing.ChatMessages
import UnixProgramming.Csapp.EchoPool
import UnixProgramming.Csapp.EchoClients
import UnixProgramming.Csapp.EchoBytes
import UnixProgramming.Pool.HeadLines
import UnixProgramming.Pool.Reception
import UnixProgramming.Pool.RealPath
import UnixProgramming.Pool.BodyScan
import UnixProgramming.Pool.HeaderOrder
import UnixProgramming.Pool.MalformedLine
import UnixProgramming.Pool.RequestBody
import UnixProgramming.Pool.ContentStore
import UnixProgramming.Pool.LoopTrace
import UnixProgramming.Pool.LoopProgress
import UnixProgramming.Pool.BufferIndices
import UnixProgramming.Pool.DeadBranch
import UnixProgramming.Csapp.TinyWeb
import UnixProgramming.Csapp.TinyResponse
import UnixProgramming.Csapp.RioBlocks
import UnixProgramming.Csapp.RioLine
import UnixProgramming.Csapp.WritenOutcomes
import UnixProgramming.Csapp.HeaderSkip
import UnixProgramming.Csapp.UriBounds
import UnixProgramming.Lib.Merging
import UnixProgramming.Apue.PthreadBarrier
import UnixProgramming.Apue.ParallelSort
import UnixProgramming.Http.WritevServer
import UnixProgramming.Lib.Progress
import UnixProgramming.Lib.Service
import UnixProgramming.Lib.Transfer
import UnixProgramming.Echo.ByteEcho
import UnixProgramming.Echo.EchoServer
import UnixProgramming.Csapp.LineChunks
import UnixProgramming.Csapp.RioTurn
import UnixProgramming.Csapp.LineEcho
import UnixProgramming.Csapp.LineEchoSound
import UnixProgramming.Csapp.LineEchoServer
import UnixProgramming.Lib.Trace
import UnixProgramming.Timer.WheelAgreement
import UnixProgramming.Timer.AlarmChain
import UnixProgramming.Lib.Socket
import UnixProgramming.Pool.CgiTurn
import UnixProgramming.Pool.CgiChild
import UnixProgramming.Pool.CgiIsolation
import UnixProgramming.Pool.CgiService
import UnixProgramming.IoMultiplexing.Oneshot
import UnixProgramming.IoMultiplexing.OneshotWorkers
import UnixProgramming.Lib.SignalPipe
import UnixProgramming.Pool.PoolSignals
import UnixProgramming.Pool.SubProcessSignals
import UnixProgramming.Pool.ParentSignals
import UnixProgramming.Pool.PoolShutdown
import UnixProgramming.Timer.Destruction
import UnixProgramming.Timer.HeapLife
