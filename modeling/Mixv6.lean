import Mixv6.Lib.Machine
import Mixv6.Kernel.Sleep
import Mixv6.Kernel.Lock
import Mixv6.Kernel.LockRuns
import Mixv6.Kernel.Nesting
import Mixv6.Kernel.Sched
import Mixv6.Kernel.Swtch
import Mixv6.Kernel.Wait
import Mixv6.Fs.Bio
import Mixv6.Fs.BioMove
import Mixv6.Fs.Request
import Mixv6.Fs.Bread
import Mixv6.Mm.Leak
import Mixv6.Mm.Isolation
import Mixv6.Kernel.Fair
import Mixv6.Syscall.InodeRefs
import Mixv6.Syscall.Parents
import Mixv6.Fs.Extent
import Mixv6.Fs.Iget
import Mixv6.Syscall.Confined
import Mixv6.Dev.Lines
import Mixv6.Kernel.Life
import Mixv6.Fs.Held
import Mixv6.Fs.Offset
import Mixv6.Fs.Progress
import Mixv6.Fs.Runs
import Mixv6.Fs.ReadBack
import Mixv6.Syscall.Image
import Mixv6.Fs.Slice
import Mixv6.Mm.Copyout
import Mixv6.Mm.PageMap
import Mixv6.Syscall.Fork
import Mixv6.Syscall.Arguments
import Mixv6.Syscall.Argv
import Mixv6.Syscall.Private
import Mixv6.Syscall.Child
import Mixv6.Dev.Screen
import Mixv6.Dev.Reading
import Mixv6.Usr.Printf
import Mixv6.Usr.Ustring
import Mixv6.Usr.Shell
import Mixv6.Boot.Bootmain
