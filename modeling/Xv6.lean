import Xv6.Log.Crash
import Xv6.Fs.Access
import Xv6.Sched.Kill
import Xv6.Pipe.Wakeup
import Xv6.Fs.References
import Xv6.Fs.Failure
import Xv6.Fs.Deadlock
import Xv6.Namecache.Fifo
import Xv6.Log.Admission
import Xv6.Fs.Directories
import Xv6.Fs.Shared
import Xv6.Mkfs.Usable
import Xv6.Mkfs.Agreement
import Xv6.Fs.Bytes
import Xv6.Bcache.Supply
import Xv6.Vm.Copy
import Xv6.Vm.Copyout
import Xv6.Vm.Kernel
import Xv6.Fs.Permission
import Xv6.Syscall
import Xv6.Login
import Xv6.Ide.Queue
import Xv6.Console.Discipline
import Xv6.Shell.Terminate
import Xv6.Memmove
import Xv6.Chmod
import Xv6.Mp
import Xv6.Grep.Lines
