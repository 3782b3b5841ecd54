import Mqx.Library.Linked
import Mqx.Library.DList
import Mqx.Library.Tiling
import Mqx.Mem.Storeblock
import Mqx.Mem.Invariant
import Mqx.Mem.AllocInvariant
import Mqx.Mem.Coalesce
import Mqx.Mem.FreeInvariant
import Mqx.Mem.Resource
import Mqx.Mem.Sequential
import Mqx.Mem.Calls
import Mqx.Mem.Interleaving
import Mqx.Mem.TestPool
import Mqx.Mem.AllocAlign
import Mqx.Sched.Kernel
import Mqx.Sched.Invariant
import Mqx.Sched.Time
import Mqx.Lw.Objects
import Mqx.Lw.Lwsem
import Mqx.Lw.Lwevent
import Mqx.Library.RingBuffer
import Mqx.Lw.Lwmsgq
import Mqx.Lw.LwmsgqSched
import Mqx.Library.BitString
import Mqx.Mfs.Drive
import Mqx.Mfs.Fat
import Mqx.Library.WaitOrder
import Mqx.Sync.Mutex
import Mqx.Sync.MutualExclusion
import Mqx.Sync.PriorityOrder
import Mqx.Library.Ring
import Mqx.Lw.Lwtimer
import Mqx.Lw.LwtimerIsr
import Mqx.Lw.LwtimerRuns
import Mqx.Mfs.File
import Mqx.Mfs.FatAccess
import Mqx.Mfs.DataSector
import Mqx.Mfs.FileChain
import Mqx.Mfs.FileSteps
import Mqx.Mfs.FileWrite
import Mqx.Library.PrefixMask
import Mqx.Rtcs.Ipradix
import Mqx.Rtcs.TcpBuf
import Mqx.Rtcs.IpradixInsert
import Mqx.Library.BitCount
import Mqx.Rtcs.IpReasm
import Mqx.Rtcs.IpReasmRuns
import Mqx.Mfs.Format
import Mqx.Mfs.FormatMount
import Mqx.Mfs.Handle
import Mqx.Mfs.Sharing
import Mqx.Clock.Calendar
import Mqx.Clock.RoundTrip
import Mqx.Rtcs.TcpDemux
import Mqx.Rtcs.TcpListen
import Mqx.Rtcs.TcpTcb
import Mqx.Rtcs.TcpTcbRuns
import Mqx.Library.DeltaQueue
import Mqx.Rtcs.Ticker
import Mqx.Rtcs.TickerLists
import Mqx.Rtcs.TickerCalls
import Mqx.Rtcs.TickerTick
import Mqx.Rtcs.TickerRuns
import Mqx.Rtcs.Ppphdlc
import Mqx.Rtcs.PpphdlcRoundTrip
import Mqx.Sync.Event
import Mqx.Sched.Registry
import Mqx.Rtcs.Rip
import Mqx.Rtcs.RipTimers
import Mqx.Rtcs.RipRuns
import Mqx.Mem.Partition
import Mqx.Mem.PartitionInv
import Mqx.Mem.PartitionSteps
import Mqx.Mem.PartitionCalls
import Mqx.Mem.PartitionRuns
import Mqx.Mem.ExtendPool
import Mqx.Mem.Lwmem
import Mqx.Mem.LwmemInvariant
import Mqx.Mem.LwmemAlloc
import Mqx.Mem.LwmemFree
import Mqx.Mem.UsableSize
import Mqx.Mem.DoubleFree
import Mqx.Mem.AllocAt
import Mqx.Library.Watermark
import Mqx.Mem.Highwater
import Mqx.Mfs.FatErrors
import Mqx.Mfs.FreeClusters
import Mqx.Mfs.Extend
import Mqx.Mfs.Release
import Mqx.Mfs.PrevCluster
import Mqx.Mfs.Mount
import Mqx.Mfs.ShortName
import Mqx.Mfs.ShortNumber
import Mqx.Mfs.DirSearch
import Mqx.Mfs.LongName
import Mqx.Mfs.LongNameReader
import Mqx.Mfs.FileRead
import Mqx.Mfs.ReadErrors
import Mqx.Library.OnesComplement
import Mqx.Rtcs.Checksum
import Mqx.Rtcs.Base64
import Mqx.Mfs.NameCodec
import Mqx.Mfs.NameMatch
import Mqx.Clock.TickConversion
import Mqx.Clock.Math128
import Mqx.Clock.TickUnits
import Mqx.Rtcs.InetPton
import Mqx.Library.Numeral
import Mqx.Rtcs.InetText
import Mqx.Rtcs.InetParse
import Mqx.Rtcs.InetNtop
import Mqx.Rtcs.InetRoundTrip
import Mqx.Rtcs.Srecord
import Mqx.Rtcs.Dhcputil
import Mqx.Rtcs.TcpipEvent
import Mqx.Library.Forest
import Mqx.Rtcs.Rtcspcb
import Mqx.Rtcs.RtcspcbRuns
import Mqx.Rtcs.DnsAddr
import Mqx.Rtcs.IpradixWalk
import Mqx.Rtcs.RipResp
import Mqx.Rtcs.RipRespSent
import Mqx.Clock.TickArith
import Mqx.Sched.KernelQueue
import Mqx.Sync.Sem
import Mqx.Sync.Cleanup
import Mqx.Sched.Name
import Mqx.Ffs.Page
import Mqx.Ffs.SectorMap
import Mqx.Mem.LwmemRuns
import Mqx.Mfs.WriteRuns
import Mqx.Mfs.ReadStages
import Mqx.Mfs.HandleRuns
import Mqx.Sched.ReadyQueues
