import Octf.Trace.Fifo
import Octf.Trace.Accounting
import Octf.Trace.Drained
import Octf.Trace.Uninterrupted
import Octf.Trace.EndOfTrace
import Octf.Trace.TraceCacheMap
import Octf.Analytics.HighWaterMark
import Octf.Analytics.LbaCoverage
import Octf.Analytics.LbaHistogram
import Octf.Analytics.IoStatisticsCopy
import Octf.Analytics.OperationBounds
import Octf.Analytics.TraceStatistics
import Octf.Analytics.FilesystemCounts
import Octf.Storage.Failures
import Octf.Storage.VarintBuffer
import Octf.Parser.TraceEventHandlerWorkset
import Octf.Parser.Delivery
import Octf.Parser.QueueDepth
import Octf.Parser.ExtensionReplay
import Octf.Parser.Emission
import Octf.Parser.LRULifetime
import Octf.Parser.HandOver
import Octf.Parser.ContentMatching
import Octf.Parser.FilePaths
import Octf.Parser.FilesystemReplay
import Octf.Parser.ConsumerRelease
import Octf.Extension.PrintedResults
import Octf.Extension.ExtensionDeadlock
import Octf.Extension.ReadyExtensions
import Octf.Communication.ClientCompletion
import Octf.Communication.ServerSafety
import Octf.Communication.ConnectionTeardown
import Octf.Communication.RemoteCalls
import Octf.Socket.PacketSize
import Octf.Socket.SocketManager
import Octf.Interface.Balance
import Octf.Interface.WakeUp
import Octf.Interface.SessionEnd
import Octf.Interface.RecordedStatistics
import Octf.Interface.CachedResults
import Octf.Interface.HistogramCsv
import Octf.Node.NodeAddressing
import Octf.Node.DispatcherDestruction
import Octf.Plugin.QueueRouting
import Octf.Utils.CsvRoundTrip
import Octf.Utils.ProtobufReaderWriter
import Octf.Utils.DescriptorOrder
import Octf.Utils.DescriptorCompleteness
import Octf.Utils.Basename
import Octf.Utils.RemovalSubtree
import Octf.Utils.CsvRefinement
import Octf.Utils.ProtobufReflection
import Octf.Utils.ResourcesGuarder
import Octf.Cli.ParseErrors
import Octf.Cli.RemoteModules
