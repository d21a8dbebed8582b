import Libiak.Run
import Libiak.Window
import Libiak.Buffer
import Libiak.ReadPath
import Libiak.ReadFifo
import Libiak.WritePath
import Libiak.WriteStream
import Libiak.Channel
import Libiak.TcpConnection
import Libiak.ConnGate
import Libiak.ConnLife
import Libiak.ConnStream
import Libiak.EventLoop
import Libiak.EventLoopThreadPool
import Libiak.Conveyor
import Libiak.AsyncLogger
import Libiak.AsyncLogging
import Libiak.LogPipeline
import Libiak.LogStop
import Libiak.Gregorian
import Libiak.CInt
import Libiak.Date
import Libiak.UtcTime
import Libiak.LowerBound
import Libiak.TimeZone
import Libiak.Decoder
import Libiak.TimeZoneFile
import Libiak.Socket
import Libiak.Acceptor
import Libiak.Connector
import Libiak.TcpClient
import Libiak.ConnRefs
import Libiak.ConnMap
import Libiak.SendRefs
import Libiak.Heap
import Libiak.MinHeap
import Libiak.BlockingQueue
import Libiak.LogStream
import Libiak.LogMessage
import Libiak.LoopQuit
import Libiak.ConnShutdown
import Libiak.ReadBounds
import Libiak.IoBounds
import Libiak.Narrowing
import Libiak.Owners
import Libiak.TimeZoneFold
import Libiak.DateOrder
import Libiak.Registration
import Libiak.Logger
import Libiak.Fatal
import Libiak.AcceptorListen
import Libiak.ConnectorTruth
import Libiak.BufferAppend
import Libiak.BufferLife
import Libiak.BufferRotation
import Libiak.Numeral
import Libiak.IntegerFormat
import Libiak.DailyRoll
import Libiak.ShortWrite
import Libiak.ProcessInfo
import Libiak.RoundRobin
import Libiak.InputGate
import Libiak.ActiveList
import Libiak.EventMask
import Libiak.Endpoint
import Libiak.Link
import Libiak.Echo
import Libiak.Poller
import Libiak.FixedWidth
import Libiak.IsoDate
import Libiak.Stamp
import Libiak.LogNames
import Libiak.LogRecords
import Libiak.Handles
import Libiak.TimeZoneLocal
import Libiak.AcceptorFds
import Libiak.LogFlush
import Libiak.LogLine
import Libiak.Codec
import Libiak.Monitor
import Libiak.CountDownLatch
import Libiak.LogStart
import Libiak.SortedQueue
import Libiak.ProcessThreads
import Libiak.ConnQuiet
