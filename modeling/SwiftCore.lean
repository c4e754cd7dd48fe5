import SwiftCore.Ipc.Slots
import SwiftCore.Syscall.RemoteRefs
import SwiftCore.Task.KernelStack
import SwiftCore.Ipc.Receive
import SwiftCore.Syscall.Regions
import SwiftCore.Syscall.PipeStream
import SwiftCore.Task.RoundRobin
import SwiftCore.Ipc.Stream
import SwiftCore.Ipc.Wakeups
import SwiftCore.Syscall.FutexWake
import SwiftCore.Syscall.Sleep
import SwiftCore.Syscall.TableLock
import SwiftCore.Syscall.ChildExit
import SwiftCore.Syscall.Signals
import SwiftCore.Init.BootContent
import SwiftCore.Kmod.Absence
import SwiftCore.Syscall.KeyboardWait
import SwiftCore.Interrupt.InputLocks
import SwiftCore.Services.DiskDevice
import SwiftCore.Launch.Totality
import SwiftCore.Syscall.TtySafe
import SwiftCore.Syscall.Cwd
import SwiftCore.Syscall.PipeAtomic
import SwiftCore.Syscall.Sigreturn
import SwiftCore.User.CommandLine
import SwiftCore.Drivers.Checksum
import SwiftCore.Ipc.Conservation
import SwiftCore.Syscall.Seek
