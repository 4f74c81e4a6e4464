import Hdh.Library.Runs
import Hdh.Library.RadixTable
import Hdh.Library.Ownership
import Hdh.Library.FlatMemory
import Hdh.Library.Scan
import Hdh.Library.Units
import Hdh.Library.Containers
import Hdh.Sched.Queue
import Hdh.Sched.QueueArray
import Hdh.Sched.Mlq
import Hdh.Sched.Dispatch
import Hdh.Sched.Calls
import Hdh.Sched.Retention
import Hdh.Sched.RunningList
import Hdh.Sched.Completed
import Hdh.Sched.Slots
import Hdh.Sched.Selection
import Hdh.Sched.Priority
import Hdh.Timer.Model
import Hdh.Timer.LockStep
import Hdh.Timer.Progress
import Hdh.Os.Routines
import Hdh.Os.Invariant
import Hdh.Os.Completion
import Hdh.Os.Idle
import Hdh.Os.Slices
import Hdh.Os.Progress
import Hdh.Os.Speed
import Hdh.Os.Demand
import Hdh.Os.Makespan
import Hdh.Os.Priority
import Hdh.Os.Response
import Hdh.Memory.Pte
import Hdh.Memory.PageTable
import Hdh.Memory.Memphy
import Hdh.Memory.Region
import Hdh.Memory.Kernel
import Hdh.Memory.Paging
import Hdh.Memory.Mapping
import Hdh.Memory.Allocator
import Hdh.Memory.Accounting
import Hdh.Memory.FirstFit
import Hdh.Memory.RegionIds
import Hdh.Memory.Backing
import Hdh.Memory.Frames
import Hdh.Memory.Replacement
import Hdh.Memory.PageFault
import Hdh.Memory.Faults
import Hdh.Memory.Refinement
import Hdh.Memory.Growth
import Hdh.Memory.Translation
import Hdh.Memory.Isolation
import Hdh.Memory.Bounds
import Hdh.Memory.Definedness
import Hdh.Memory.Areas
import Hdh.Memory.Devices
import Hdh.Memory.Release
import Hdh.Memory.PageList
import Hdh.Memory.RegionList
import Hdh.Memory.FrameList
import Hdh.Process.Loader
import Hdh.Process.RoundTrip
import Hdh.Process.Rejection
import Hdh.Process.Syscall
import Hdh.Process.Instructions
import Hdh.System.Machine
import Hdh.System.Privacy
import Hdh.System.Definedness
import Hdh.System.Files
