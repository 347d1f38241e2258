import Tenok.Lib.Runs
import Tenok.Lib.Acyclic
import Tenok.Lib.Buddy
import Tenok.Lib.Ring
import Tenok.Lib.Extent
import Tenok.Lib.PrioFifo
import Tenok.Lib.RingBuffer
import Tenok.Lib.Mailbox
import Tenok.Common.Bitops
import Tenok.Common.Util
import Tenok.Common.List
import Tenok.Common.ListImage
import Tenok.Mm.Page
import Tenok.Mm.PageRefines
import Tenok.Mm.PageRuns
import Tenok.Mm.PagePlacement
import Tenok.Mm.Malloc
import Tenok.Mm.MallocRefines
import Tenok.Mm.MallocRuns
import Tenok.Mm.Slab
import Tenok.Mm.SlabRuns
import Tenok.Mm.SlabAccounts
import Tenok.Mm.SlabPages
import Tenok.Mm.SlabReturns
import Tenok.Mm.Kmalloc
import Tenok.Mm.Requests
import Tenok.Kernel.Preempt
import Tenok.Kernel.Thread
import Tenok.Kernel.Syscalls
import Tenok.Kernel.Events
import Tenok.Kernel.ThreadLists
import Tenok.Kernel.ThreadLife
import Tenok.Kernel.KernelRuns
import Tenok.Kernel.Steady
import Tenok.Kernel.Dispatch
import Tenok.Kernel.Mutex
import Tenok.Kernel.MutexRuns
import Tenok.Kernel.MutexSteps
import Tenok.Kernel.MutexOwner
import Tenok.Kernel.Mqueue
import Tenok.Kernel.MqueueRuns
import Tenok.Kernel.MqueueOpen
import Tenok.Kernel.Semaphore
import Tenok.Kernel.SerialRead
import Tenok.Kernel.Kfifo
import Tenok.Kernel.KfifoDma
import Tenok.Kernel.Signals
import Tenok.Kernel.Replies
import Tenok.Kernel.FsCalls
import Tenok.Kernel.Pipe
import Tenok.Kernel.PipeRuns
import Tenok.Kernel.PipeModes
import Tenok.Kernel.BasePriority
import Tenok.Kernel.TaskRuns
import Tenok.Kernel.Protection
import Tenok.Kernel.TimerRuns
import Tenok.Kernel.TimerTicks
import Tenok.Kernel.TimerIds
import Tenok.Kernel.RequestStream
import Tenok.Kernel.FilesysdRuns
import Tenok.Kernel.MqueueWaits
import Tenok.Kernel.MqueueMemory
import Tenok.Kernel.MqueueWakeups
import Tenok.Kernel.MqueueLife
import Tenok.Kernel.MqueueBuffers
import Tenok.Kernel.JoinRuns
import Tenok.Kernel.Daemons
import Tenok.Kernel.Tasklets
import Tenok.Kernel.PrintkRuns
import Tenok.Kernel.PrintkText
import Tenok.Kernel.Deadlock
import Tenok.Kernel.ReadyLists
import Tenok.Kernel.PollEvents
import Tenok.Kernel.PollRuns
import Tenok.Kernel.PollDeadlines
import Tenok.Kernel.DescriptorRuns
import Tenok.User.DebugLink
import Tenok.Tools.Rtplot
import Tenok.Tools.Mkromfs
import Tenok.Tools.DebugLinkRoundTrip
import Tenok.Fs.DirectoryRuns
import Tenok.Fs.AddFile
import Tenok.Fs.PathSafety
import Tenok.Fs.ChangeDirectory
import Tenok.Fs.CreateOpen
import Tenok.Kernel.MqueueAttrs
import Tenok.Kernel.MqueueNames
import Tenok.Kernel.Handles
import Tenok.Fs.FileRoundTrip
import Tenok.Fs.Wrapper
import Tenok.Kernel.ThreadStack
import Tenok.Kernel.TaskCreate
import Tenok.Kernel.AllocFailures
import Tenok.Kernel.Once
import Tenok.Kernel.StopRuns
import Tenok.Fs.MountRuns
import Tenok.Mm.Mpool
import Tenok.Drivers.Sbus
import Tenok.Tools.Receiver
import Tenok.User.ShellTokens
import Tenok.Kernel.WakeOrder
import Tenok.Kernel.ThreadInfo
import Tenok.Kernel.Spared
import Tenok.Kernel.Delays
import Tenok.User.ShellScrolling
import Tenok.Tools.MsgLanguage
import Tenok.Common.ListSafe
import Tenok.Common.FindBit
import Tenok.Drivers.SbusChannels
import Tenok.Kernel.SigSets
import Tenok.Kernel.PrintfExpansion
import Tenok.Kernel.ContextRuns
import Tenok.Kernel.SerialWrite
import Tenok.Fs.ReadDir
import Tenok.Kernel.FileService
import Tenok.Kernel.Turns
