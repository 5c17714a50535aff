import X86Osdev.Mem.BuddyCoalescing
import X86Osdev.Bin.Kswap
import X86Osdev.Bin.Exterminator
import X86Osdev.Mem.HeapSafety
import X86Osdev.Mem.KfreeRouting
import X86Osdev.Mem.PagingIsolation
import X86Osdev.Kernel.KilledThreads
import X86Osdev.Kernel.PickThread
import X86Osdev.Kernel.Pids
import X86Osdev.Kernel.RescheduleTurns
import X86Osdev.Kernel.ProcessTree
import X86Osdev.Lock.LostWakeup
import X86Osdev.Lock.DeadOwner
import X86Osdev.Kernel.SleepingFather
import X86Osdev.Proc.Timers
import X86Osdev.Mem.LateBootAlloc
import X86Osdev.Mem.KernelMapping
import X86Osdev.Kernel.ElfSegments
import X86Osdev.Proc.Clone
import X86Osdev.Kernel.CpuTime
import X86Osdev.Kernel.SleepingThreads
import X86Osdev.Kernel.ExitValue
import X86Osdev.Kernel.BlockDevice
import X86Osdev.Kernel.StreamReaders
import X86Osdev.Drivers.Rtl8139
import X86Osdev.Drivers.Pci
import X86Osdev.Boot.SavedInfo
import X86Osdev.Kernel.Syscalls
import X86Osdev.Drivers.Console
import X86Osdev.Drivers.Itoa
import X86Osdev.Drivers.Keyboard
import X86Osdev.Kernel.WorkQueue
import X86Osdev.Kernel.Keystrokes
import X86Osdev.Mem.BuddyGuard
import X86Osdev.Mem.BuddySplits
import X86Osdev.Mem.BuddyBounds
import X86Osdev.Mem.BlockAddresses
import X86Osdev.Mem.MemoryCounters
import X86Osdev.Mem.SlabLocks
import X86Osdev.Lib.ListSequences
import X86Osdev.Proc.TimerQueue
import X86Osdev.Proc.ChildLists
import X86Osdev.Library.Numerals
import X86Osdev.Library.OnesComplement
import X86Osdev.Net.Ipv4
import X86Osdev.Library.SplitRuns
import X86Osdev.Library.Terminal
import X86Osdev.Lib.Tokens
import X86Osdev.Proc.TrapReturn
import X86Osdev.Lock.MutualExclusion
import X86Osdev.Mem.LiveContents
import X86Osdev.Kernel.Starvation
import X86Osdev.Cpu.SystemCalls
import X86Osdev.Drivers.Kprintf
import X86Osdev.Drivers.Cmos
import X86Osdev.Net.Dhcp
