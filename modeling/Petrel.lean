import Petrel.Dir.Theorems.Getcwd
import Petrel.Journal.Theorems.Atomic
import Petrel.Journal.Theorems.LogBuf
import Petrel.Journal.Theorems.Mounts
import Petrel.Journal.Theorems.RoundTrip
import Petrel.Kern.Theorems.Array
import Petrel.Kern.Theorems.Bitmap
import Petrel.Kern.Theorems.Bswap
import Petrel.Kern.Theorems.Console
import Petrel.Kern.Theorems.Lhd
import Petrel.Libc.Memmove
import Petrel.Libc.Printnum
import Petrel.Libc.Snprintf
import Petrel.Libc.Strtok
import Petrel.Ops.Theorems.Discipline
import Petrel.Proc.Theorems.Cwd
import Petrel.Proc.Theorems.Exec
import Petrel.Proc.Theorems.Files
import Petrel.Proc.Theorems.Processes
import Petrel.Sfs.Theorems.Bmap
import Petrel.Sfs.Theorems.Lookup
import Petrel.Sfs.Theorems.Mksfs
import Petrel.Sfs.Theorems.Nothing
import Petrel.Sfs.Theorems.Restart
import Petrel.Thread.Theorems.Locks
import Petrel.Thread.Theorems.Runqueue
import Petrel.Thread.Theorems.Scheduler
import Petrel.Thread.Theorems.Semaphore
import Petrel.Thread.Theorems.Spl
import Petrel.Thread.Theorems.Threadlist
import Petrel.Vfs.Theorems.Devices
import Petrel.Vfs.Theorems.Leftover
import Petrel.Vfs.Theorems.Races
import Petrel.Vfs.Theorems.WriteAhead
import Petrel.Vm.Theorems.Clock
import Petrel.Vm.Theorems.Copy
import Petrel.Vm.Theorems.Counts
import Petrel.Vm.Theorems.Ipi
import Petrel.Vm.Theorems.Layout
import Petrel.Vm.Theorems.Locks
import Petrel.Vm.Theorems.Readonly
import Petrel.Vnodes.Theorems.Table
