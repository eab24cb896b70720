import Xv6.ExitRelease
import Xv6.SlotOwnership
import Xv6.ExitQueues
import Xv6.Stranding
import Xv6.CondVars
import Xv6.ExitWait
import Xv6.CrashAtomicity
import Xv6.ShmNames
import Xv6.ShmCounts
import Xv6.ForkResidue
import Xv6.PipeStream
import Xv6.SleepWakeup
import Xv6.BufferCoherence
import Xv6.ReadyOrder
import Xv6.PrioritySet
import Xv6.MutexIds
import Xv6.SpinlockUse
import Xv6.LimitedWrite
import Xv6.DirectoryMap
import Xv6.ShmGet
import Xv6.GrepLines
import Xv6.UserPointers
import Xv6.CopyOut
import Xv6.HeapLimits
import Xv6.MemMove
import Xv6.MpTable
import Xv6.QueueOrder
import Xv6.ShellCommand
import Xv6.Bitmap
