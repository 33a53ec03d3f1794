import Pintos.L4Results.Paging
import Pintos.L4Results.Restart
import Pintos.L4Results.References
import Pintos.L4Results.HashTable
import Pintos.L4Results.PageAllocator
import Pintos.L4Results.Semaphores
import Pintos.L4Results.Locks
import Pintos.L4Results.AlarmClock
import Pintos.L4Results.InterruptQueue
import Pintos.L4Results.Scheduler
import Pintos.L4Results.CommonSubstring
import Pintos.L4Results.KernelArgs
import Pintos.L4Results.Ustar
import Pintos.L4Results.Disk
import Pintos.L4Results.Partition
import Pintos.L4Results.StackGrowth
import Pintos.L4Results.Arguments
import Pintos.L4Results.FailedEviction
import Pintos.L4Results.LcsMemory
import Pintos.L4Results.InodeBytes
import Pintos.L4Results.Lists
import Pintos.L4Results.ReadWrite
import Pintos.L4Results.Arithmetic
import Pintos.L4Results.Strings
import Pintos.L4Results.Printf
import Pintos.L4Results.Decimal
import Pintos.L4Results.Bitmap
import Pintos.L4Results.HeapSizes
import Pintos.L4Results.Search
import Pintos.L4Results.Rtc
import Pintos.L4Results.Calibration
