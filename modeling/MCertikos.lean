import MCertikos.Thread.TcbInit
import MCertikos.Sync.ConsoleRing
import MCertikos.Sync.Readline
import MCertikos.Dev.Firmware
import MCertikos.Lib.Printfmt
import MCertikos.Boot.Itox
import MCertikos.Ipc.Lock
import MCertikos.FS.Lifetime
import MCertikos.Pmm.PageScan
import MCertikos.Pmm.ProcessTree
import MCertikos.Pmm.Spawn
import MCertikos.Pmm.Merge
import MCertikos.Pmm.Reserved
import MCertikos.UserMem.ElfLoad
import MCertikos.UserMem.Window
import MCertikos.Sysfile.Balance
import MCertikos.Sysfile.LogInit
import MCertikos.Sysfile.Cwd
import MCertikos.Sysfile.UserPointer
import MCertikos.Sysfile.BufLock
import MCertikos.Sysfile.Kill
import MCertikos.FS.Space
import MCertikos.FS.RoundTrip
import MCertikos.FS.Pwd
import MCertikos.BufCache.ReadError
import MCertikos.BufCache.IdeQueue
import MCertikos.Sync.Delivery
import MCertikos.Sync.Isolation
import MCertikos.Sync.Smp
import MCertikos.Sync.Spinlock
import MCertikos.Sync.TickCount
import MCertikos.Trap.Frame
import MCertikos.Trap.Pending
import MCertikos.Mkfs.Append
import MCertikos.Mkfs.Image
import MCertikos.Mkfs.Sound
