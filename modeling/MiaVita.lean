import MiaVita.Lib.Bytes
import MiaVita.Lib.Fallible
import MiaVita.Interruption.ProcEntry
import MiaVita.Interruption.SampleFifo
import MiaVita.Interruption.Fpga
import MiaVita.Interruption.Overrun
import MiaVita.KernelSender.Packet
import MiaVita.KernelSender.Codec
import MiaVita.Lib.Memory
import MiaVita.Lib.OnesComplement
import MiaVita.Lib.StampChain
import MiaVita.FredFramework.Headers
import MiaVita.FredFramework.ByteBuffer
import MiaVita.FredFramework.Aggregation
import MiaVita.FredFramework.Stacking
import MiaVita.FredFramework.Consuela
import MiaVita.FredFramework.FlushFailures
import MiaVita.FredFramework.FailedFlush
import MiaVita.FredFramework.Deaggregation
import MiaVita.FredFramework.Tiling
import MiaVita.FredFramework.Emission
import MiaVita.FredFramework.L3RoundTrip
import MiaVita.FredFramework.AppRoundTrip
import MiaVita.Lib.Batches
import MiaVita.FredFramework.WireFormat
import MiaVita.FredFramework.Interleaving
import MiaVita.FredFramework.HostileInput
import MiaVita.FredFramework.Sender
import MiaVita.FredFramework.BufferCreation
import MiaVita.FredFramework.AggregateLimits
import MiaVita.Interruption.Handler
import MiaVita.Interruption.Pps
import MiaVita.Interruption.Registers
import MiaVita.Interruption.SequenceNumbers
import MiaVita.Interruption.Timestamps
import MiaVita.Interruption.BusLock
import MiaVita.Lib.Decimal
import MiaVita.Lib.Json
import MiaVita.KernelSender.Receiver
import MiaVita.Lib.Regex
import MiaVita.Results.ReadJson
import MiaVita.Lib.Window
import MiaVita.Results.SlidingWindow
import MiaVita.Results.Outliers
import MiaVita.Results.Removal
import MiaVita.Lib.SortedMap
import MiaVita.Results.ReadMSeed
import MiaVita.Lib.Exceptional
import MiaVita.Gnuplot.History
import MiaVita.Lib.Framing
import MiaVita.Lib.ByteStuffing
import MiaVita.GpsTime.Tsip
import MiaVita.GpsTime.TimeQuery
import MiaVita.GpsTime.CondorQuery
import MiaVita.GpsTime.Nmea
import MiaVita.GpsTime.Startup
import MiaVita.Lib.Scanf
import MiaVita.GpsTime.Checksum
import MiaVita.GpsTime.Sentences
import MiaVita.Lib.Calendar
import MiaVita.GpsTime.Zda
import MiaVita.Rt2501.FilterTable
import MiaVita.Rt2501.ProcFilters
import MiaVita.Rt2501.SyncProto
import MiaVita.Rt2501.MultiHop
import MiaVita.Rt2501.UdpChecksum
import MiaVita.Rt2501.Counters
import MiaVita.Lib.LinkedList
import MiaVita.Lib.PriorityOrder
import MiaVita.Lib.CText
import MiaVita.FredFramework.KList
import MiaVita.Lib.Cursor
import MiaVita.FredFramework.KListRefinement
import MiaVita.FredFramework.InjectionQueue
import MiaVita.FredFramework.Chains
import MiaVita.FredFramework.Registry
import MiaVita.FredFramework.Hooks
import MiaVita.FredFramework.Matching
import MiaVita.FredFramework.Rules
import MiaVita.FredFramework.RuleRemoval
import MiaVita.FredFramework.InterceptorShell
import MiaVita.FredFramework.ProcRegistry
import MiaVita.FredFramework.InterceptorManager
import MiaVita.FredFramework.ProcCache
import MiaVita.FredFramework.ProcView
import MiaVita.FredFramework.ProcEntry
import MiaVita.FredFramework.Unregistration
import MiaVita.FredFramework.CreateRule
import MiaVita.FredFramework.RegistrySafety
import MiaVita.FredFramework.Mkrule
import MiaVita.Rt2501.Mkfilter
import MiaVita.Rt2501.FilterListing
import MiaVita.Lib.Blocks
import MiaVita.KernelSender.Draining
import MiaVita.KernelSender.Station
import MiaVita.Results.EndToEnd
import MiaVita.FredFramework.Lifecycle
import MiaVita.FredFramework.RuleTable
import MiaVita.FredFramework.InjectionThread
import MiaVita.Results.ThroughAggregation
import MiaVita.FredFramework.Delivery
