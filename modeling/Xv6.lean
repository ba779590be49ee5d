import Xv6.Dev.Echo
import Xv6.Dev.Ide
import Xv6.Dev.Mp
import Xv6.Fs.BufferCache
import Xv6.Fs.Filewrite
import Xv6.Fs.Fresh
import Xv6.Fs.Iput
import Xv6.Fs.Logged
import Xv6.Fs.SharedOffset
import Xv6.Log.Crash
import Xv6.Proc.Accounting
import Xv6.Proc.Chpr
import Xv6.Proc.Fifo
import Xv6.Proc.HeapCells
import Xv6.Proc.Init
import Xv6.Proc.Pids
import Xv6.Proc.Quantum
import Xv6.Proc.SleepWakeup
import Xv6.Proc.Swapque
import Xv6.Sync.MutualExclusion
import Xv6.Sync.PipeWakeup
import Xv6.Sync.SleepLock
import Xv6.Sync.SysSleep
import Xv6.User.Grep
import Xv6.User.Runcmd
import Xv6.User.Sbrk
import Xv6.User.Wc
import Xv6.Vm.Bootmain
import Xv6.Vm.Copyout
import Xv6.Vm.Copyuvm
import Xv6.Vm.FreeList
import Xv6.Vm.OpenFiles
import Xv6.Vm.Syscall
