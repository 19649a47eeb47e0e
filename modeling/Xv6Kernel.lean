import Xv6Kernel.Fs.Layout
import Xv6Kernel.Fs.Balloc
import Xv6Kernel.Fs.Tree
import Xv6Kernel.Fs.Bmap
import Xv6Kernel.Fs.Itrunc
import Xv6Kernel.Fs.ReadWrite
import Xv6Kernel.Fs.Itable
import Xv6Kernel.Fs.System
import Xv6Kernel.Fs.Ownership
import Xv6Kernel.Fs.Content
import Xv6Kernel.Fs.Dir
import Xv6Kernel.Fs.Path
import Xv6Kernel.Fs.Syscall
import Xv6Kernel.Fs.Links
import Xv6Kernel.Fs.Frame
import Xv6Kernel.Fs.Reclaim
import Xv6Kernel.Fs.Dirlink
import Xv6Kernel.Fs.Namex
import Xv6Kernel.Fs.DirApi
import Xv6Kernel.Fs.Resolve
import Xv6Kernel.Fs.Refs
import Xv6Kernel.Fs.Calls
import Xv6Kernel.Fs.World
import Xv6Kernel.Mem.Kalloc
import Xv6Kernel.Bio.Laws
import Xv6Kernel.Proc.Table
import Xv6Kernel.Proc.Machine
import Xv6Kernel.Proc.Steps
import Xv6Kernel.Proc.Invariant
import Xv6Kernel.Proc.Sched
import Xv6Kernel.Proc.Lifecycle
import Xv6Kernel.Proc.Sleep
import Xv6Kernel.Proc.Sync
import Xv6Kernel.Proc.Select
import Xv6Kernel.Proc.Errno
import Xv6Kernel.Proc.Pid
import Xv6Kernel.Proc.Levels
import Xv6Kernel.Bio.Rings
import Xv6Kernel.Bio.Chains
import Xv6Kernel.Bio.Whole
import Xv6Kernel.Bio.Flush
