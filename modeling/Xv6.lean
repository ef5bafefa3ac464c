import Xv6.Proc.Tree
import Xv6.Proc.Levels
import Xv6.Proc.Kill
import Xv6.Proc.Race
import Xv6.Fs.Reserve
import Xv6.Fs.CrashInv
import Xv6.Proc.Signal
import Xv6.Proc.Fifo
import Xv6.Fs.DirMap
import Xv6.Fs.Exhaust
import Xv6.Fs.SharedFd
import Xv6.Dev.PipeSleep
import Xv6.Dev.PipeFifo
import Xv6.Dev.ConsoleLine
import Xv6.Vm.Boot
import Xv6.Vm.RawCopy
import Xv6.Proc.NiceResult
import Xv6.Proc.RoundRobin
import Xv6.Fs.Lru
import Xv6.Fs.Failures
import Xv6.Fs.MkfsKernel
import Xv6.User.Match
import Xv6.User.HeapRun
import Xv6.Vm.Memmove
import Xv6.Vm.Mappages
import Xv6.Dev.Mp
import Xv6.Proc.Sleeplock
import Xv6.Proc.Spinlock
import Xv6.Vm.Syscall
import Xv6.Proc.Switch
