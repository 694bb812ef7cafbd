import LinuxKernel.Lib.RwsemSpinlock
import LinuxKernel.Mm.PageAllocInv
import LinuxKernel.Mm.Vmalloc
import LinuxKernel.Mm.Hugetlb
import LinuxKernel.Mm.Slob
import LinuxKernel.Net.FibTrie
import LinuxKernel.Net.NatSeq
import LinuxKernel.Net.FilterSafety
import LinuxKernel.Net.IpFragmentInv
import LinuxKernel.Fs.LocksRun
import LinuxKernel.Fs.LocksDeadlock
import LinuxKernel.Ipc.SemAtomic
import LinuxKernel.Ipc.SemRun
import LinuxKernel.Fs.Jffs2Rtime
import LinuxKernel.Fs.Jffs2Run
import LinuxKernel.Fs.JbdReplay
import LinuxKernel.Kernel.ResourceRegion
import LinuxKernel.Lib.RadixTreeGang
import LinuxKernel.Lib.Plist
import LinuxKernel.Kernel.TimerNext
import LinuxKernel.Net.TcpFragment
import LinuxKernel.Net.TcpReassembly
import LinuxKernel.Net.TcpSelectWindow
import LinuxKernel.Net.TcpWindow
import LinuxKernel.Net.XfrmReplay
import LinuxKernel.Kernel.RtMutexRun
import LinuxKernel.Lib.TsBm
import LinuxKernel.Kernel.Kfifo
import LinuxKernel.Kernel.Printk
import LinuxKernel.Lib.GenAlloc
import LinuxKernel.Mm.BootmemRun
import LinuxKernel.Lib.BitmapRegion
import LinuxKernel.Lib.BitmapHex
import LinuxKernel.Lib.BitmapListPrint
import LinuxKernel.Lib.Div64
import LinuxKernel.Kernel.Semaphore
