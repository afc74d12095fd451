import Xv6.Proc.Tick
import Xv6.Proc.AgingPass
import Xv6.Proc.LineEditor
import Xv6.Proc.Deadlock
import Xv6.Proc.RoundRobin
import Xv6.Proc.Kill
import Xv6.Proc.Family
import Xv6.Proc.Integrity
import Xv6.Proc.Policy
import Xv6.Proc.Reclass
import Xv6.Proc.Quantum
import Xv6.Sync.Sleeplock
import Xv6.Sync.Pipe
import Xv6.Sync.IdeRefine
import Xv6.Fs.Crash
import Xv6.Fs.Reserve
import Xv6.Fs.BufList
import Xv6.Fs.Transparent
import Xv6.Fs.SharedFd
import Xv6.Fs.DirMap
import Xv6.Sysfile.Agreement
import Xv6.Vm.Machine
import Xv6.Sh.Words
import Xv6.Umalloc.Sizes
import Xv6.Mp.Table
import Xv6.Grep.Lines
