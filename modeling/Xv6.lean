import Xv6.Log.Theorems
import Xv6.ProcTable.WaitCode
import Xv6.Pipe.Fifo
import Xv6.SleepLock.Theorems
import Xv6.Sched.Theorems
import Xv6.Virtio.Theorems
import Xv6.Bio.Transparent
import Xv6.Files.Theorems
import Xv6.Console.LineDiscipline
import Xv6.Umalloc.Overflow
import Xv6.Buddy.Theorems
import Xv6.Nsh.Theorems
import Xv6.Mkfs.Reading
import Xv6.Mkfs.Theorems
import Xv6.Vm.Reclaim
import Xv6.Buddy.Firstk
import Xv6.Ulib.Memmove
import Xv6.Buddy.Lists
import Xv6.Ulib.Printf
import Xv6.Grep.Match
import Xv6.Vm.Kalloc
