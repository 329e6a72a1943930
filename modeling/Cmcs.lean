import Cmcs.AnalysisWindow
import Cmcs.BacklogService
import Cmcs.BandwidthGuarantee
import Cmcs.BitFormat
import Cmcs.BoundedWaiting
import Cmcs.BucketIsolation
import Cmcs.BurstLimit
import Cmcs.ChargeLedger
import Cmcs.CheckedInt
import Cmcs.ColorMarker
import Cmcs.ControlPlane
import Cmcs.Convert
import Cmcs.CounterArithmetic
import Cmcs.CounterWidth
import Cmcs.Csv
import Cmcs.CyclicScan
import Cmcs.Decimal
import Cmcs.DeficitBound
import Cmcs.DeliveryAtRate
import Cmcs.DequeueConformance
import Cmcs.Dict
import Cmcs.DisabledRate
import Cmcs.EndToEndGuarantee
import Cmcs.ForwardingPipeline
import Cmcs.GuaranteeInTime
import Cmcs.GuaranteedCredit
import Cmcs.Headers
import Cmcs.HexBytes
import Cmcs.IdealAllocation
import Cmcs.IdleReset
import Cmcs.InOrderDelivery
import Cmcs.InputBufferThreads
import Cmcs.IntScheduler
import Cmcs.JsonValue
import Cmcs.LeakyBucket
import Cmcs.Lines
import Cmcs.MarkerBucket
import Cmcs.MarkerConformance
import Cmcs.MarkerWidth
import Cmcs.MatchTable
import Cmcs.Monitor
import Cmcs.OnesComplement
import Cmcs.P4Info
import Cmcs.PacketShaper
import Cmcs.Pattern
import Cmcs.PhaseCover
import Cmcs.PhaseNames
import Cmcs.PipelineOrder
import Cmcs.PortInvariant
import Cmcs.PortLedger
import Cmcs.PortMachine
import Cmcs.PortRoundRobin
import Cmcs.PriorityQueue
import Cmcs.QueueingCoherent
import Cmcs.QueueingData
import Cmcs.QueueingLogic
import Cmcs.QueueingLogicRL
import Cmcs.QueueingLogicVN
import Cmcs.QueueingRun
import Cmcs.RateLimitedFifo
import Cmcs.RepresentationInvariant
import Cmcs.ResultFiles
import Cmcs.ResultRoundTrip
import Cmcs.RunTest
import Cmcs.RuntimeConf
import Cmcs.ScanOrder
import Cmcs.ScanRun
import Cmcs.SelectSpec
import Cmcs.SelectVn
import Cmcs.ShapedQueues
import Cmcs.SimpleController
import Cmcs.SimpleSwitch
import Cmcs.SingleVn
import Cmcs.SingleVnWidth
import Cmcs.SwitchRun
import Cmcs.TableEntries
import Cmcs.Text
import Cmcs.TimePartition
import Cmcs.TimedGuarantee
import Cmcs.TransitionRun
import Cmcs.TsharkDemux
import Cmcs.TsharkOutput
import Cmcs.UnlimitedRate
import Cmcs.VnWeightsOption
import Cmcs.WaterFilling
import Cmcs.WeightedFairness
import Cmcs.WeightsGrammar
import Cmcs.WorkConservation
import Cmcs.WorkerSleep
