import GarretOS.System.Basic
import GarretOS.Ring.Basic
import GarretOS.Extent.Basic
import GarretOS.Extent.Runs
import GarretOS.Countdown.Basic
import GarretOS.Radix.Basic
import GarretOS.Word.Bytes
import GarretOS.Tree.Basic
import GarretOS.Forest.Basic
import GarretOS.Span.Basic
import GarretOS.Serial.Basic
import GarretOS.Numeral.Basic
import GarretOS.Riscv.Basic
import GarretOS.Riscv.Sv39
import GarretOS.Kernel.Fault
import GarretOS.Kernel.Logged
import GarretOS.Kernel.Follows
import GarretOS.Lib.Stdlib
import GarretOS.Mm.Layout
import GarretOS.Mm.BestFit
import GarretOS.Mm.FreeList
import GarretOS.Mm.Allocator
import GarretOS.Mm.FreeBlocks
import GarretOS.Mm.Pmm
import GarretOS.Mm.FreeSet
import GarretOS.Mm.Placement
import GarretOS.Mm.PageTable
import GarretOS.Mm.LowMemory
import GarretOS.Mm.DupFailure
import GarretOS.Proc.ForkState
import GarretOS.Proc.ForkFailure
import GarretOS.Mm.Mapping
import GarretOS.Mm.Consistent
import GarretOS.Mm.PageMap
import GarretOS.Mm.Vmm
import GarretOS.Mm.VmaList
import GarretOS.Mm.Range
import GarretOS.Mm.Areas
import GarretOS.Mm.VmMap
import GarretOS.Mm.CheckVmm
import GarretOS.Mm.Stops
import GarretOS.Mm.Demand
import GarretOS.Mm.Fork
import GarretOS.Mm.Owned
import GarretOS.Mm.PageFault
import GarretOS.Mm.Teardown
import GarretOS.Mm.DelRange
import GarretOS.Mm.AddressSpace
import GarretOS.Mm.Confined
import GarretOS.Mm.Released
import GarretOS.Mm.Spaces
import GarretOS.Mm.SpaceRuns
import GarretOS.Mm.Mmu
import GarretOS.Mm.Twin
import GarretOS.Mm.Swap
import GarretOS.Mm.SwapSlots
import GarretOS.Proc.State
import GarretOS.Proc.Timer
import GarretOS.Proc.TimerList
import GarretOS.Proc.SkewHeap
import GarretOS.Proc.HeapRuns
import GarretOS.Proc.Table
import GarretOS.Proc.Pid
import GarretOS.Proc.Family
import GarretOS.Proc.RunQueue
import GarretOS.Proc.RunPool
import GarretOS.Proc.VmTable
import GarretOS.Proc.VmShare
import GarretOS.Sync.Sem
import GarretOS.Sync.WaitQueue
import GarretOS.Sync.Waiters
import GarretOS.Sync.WakeupQueue
import GarretOS.Sync.SemQueue
import GarretOS.Sync.Monitor
import GarretOS.Sync.MonitorRuns
import GarretOS.Dining.Basic
import GarretOS.Sync.Phi
import GarretOS.Sync.PhiSeats
import GarretOS.Sync.PhiRuns
import GarretOS.Sync.PhiCond
import GarretOS.Sync.PhiCondOk
import GarretOS.Sync.PhiCondRuns
import GarretOS.Sync.PhiCondSteps
import GarretOS.Proc.Kernel
import GarretOS.Proc.Lifecycle
import GarretOS.Proc.Places
import GarretOS.Proc.Sound
import GarretOS.Proc.Effect
import GarretOS.Proc.SoundSteps
import GarretOS.Proc.SoundRuns
import GarretOS.Proc.Assertions
import GarretOS.Proc.WaitRuns
import GarretOS.Proc.KillRuns
import GarretOS.Proc.NumProc
import GarretOS.Proc.Reparent
import GarretOS.Proc.VmRuns
import GarretOS.Proc.StrideWindow
import GarretOS.Proc.StrideRuns
import GarretOS.Proc.StrideBound
import GarretOS.Proc.StrideWait
import GarretOS.Proc.Preempt
import GarretOS.Proc.Progress
import GarretOS.Proc.SleepRuns
import GarretOS.Proc.ForkWait
import GarretOS.Trap.Entry
import GarretOS.Trap.Frame
import GarretOS.Trap.Nesting
import GarretOS.Trap.Switch
import GarretOS.Trap.Machine
import GarretOS.Trap.MachineRuns
import GarretOS.Proc.LoadBin
import GarretOS.Proc.LoadReads
import GarretOS.Proc.UserBytes
import GarretOS.Proc.FillPages
import GarretOS.Proc.Segments
import GarretOS.Proc.LoadExact
import GarretOS.Proc.TwinPages
import GarretOS.Proc.TwinLoad
import GarretOS.Proc.Stale
import GarretOS.Proc.ExecName
