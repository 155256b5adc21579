import OsSim.Lib.BitField
import OsSim.Lib.Lts
import OsSim.Lib.Placement
import OsSim.Lib.LinkedList
import OsSim.Lib.Arrivals
import OsSim.Lib.CopyLoop
import OsSim.Lib.Barrier
import OsSim.Lib.Circulation
import OsSim.Lib.LossyMap
import OsSim.Lib.Mutex
import OsSim.Lib.Scanf
import OsSim.Lib.Printf
import OsSim.Lib.Quotas
import OsSim.Lib.Deadline
import OsSim.Lib.Greedy
import OsSim.Mem.Bits
import OsSim.Mem.Memphy
import OsSim.Mem.Device
import OsSim.Mem.TlbCache
import OsSim.Mem.System
import OsSim.Mem.PageCopy
import OsSim.Mem.Paging
import OsSim.Mem.PgnList
import OsSim.Mem.FrameNodes
import OsSim.Mem.Region
import OsSim.Mem.CpuTlb
import OsSim.Mem.MmInv
import OsSim.Mem.Moves
import OsSim.Mem.Loops
import OsSim.Mem.Instr
import OsSim.Mem.Runs
import OsSim.Mem.Coherence
import OsSim.Mem.Ownership
import OsSim.Mem.Contents
import OsSim.Mem.Transparency
import OsSim.Mem.Dump
import OsSim.Mem.Isolation
import OsSim.Mem.Plain
import OsSim.Mem.Defined
import OsSim.Mem.Reuse
import OsSim.Mem.PlainRuns
import OsSim.Mem.Live
import OsSim.Mem.Release
import OsSim.Mem.AllocFail
import OsSim.Mem.RegionIds
import OsSim.Mem.Status
import OsSim.Mem.Conservation
import OsSim.Mem.AddressSpace
import OsSim.Mem.Fifo
import OsSim.Mem.TlbMap
import OsSim.Mem.SwapDevices
import OsSim.Mem.TlbLock
import OsSim.Mem.Alike
import OsSim.Mem.Init
import OsSim.Mem.Codec
import OsSim.Mem.PageFault
import OsSim.Mem.Carving
import OsSim.Mem.MapRam
import OsSim.Mem.Parts
import OsSim.Mem.Sizes
import OsSim.Mem.RegionNodes
import OsSim.Mem.PageCounts
import OsSim.Mem.Extent
import OsSim.Mem.Overlap
import OsSim.Mem.Reclaim
import OsSim.Loader.Load
import OsSim.Loader.Program
import OsSim.Loader.ReadConfig
import OsSim.Timer.Timer
import OsSim.Timer.TimerInv
import OsSim.Timer.SlotBarrier
import OsSim.Sched.Queue
import OsSim.Sched.Priority
import OsSim.Sched.Mlq
import OsSim.Sched.Threads
import OsSim.Sched.Dispatch
import OsSim.Sched.Contention
import OsSim.Sched.Quota
import OsSim.Sched.Policy
import OsSim.Sched.System
import OsSim.Sched.Lockstep
import OsSim.Sched.TimeSlice
import OsSim.Sched.Stranded
import OsSim.Sched.Shutdown
import OsSim.Sched.Capacity
import OsSim.Sched.Fairness
import OsSim.Sched.Deadline
import OsSim.Sched.LoadTimes
import OsSim.Sched.Pace
import OsSim.Sched.ResponseTime
import OsSim.Sched.Machine
import OsSim.Sched.Boot
