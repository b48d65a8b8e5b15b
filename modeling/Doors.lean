import Doors.Lib.Run
import Doors.Lib.Cells
import Doors.Lib.Text
import Doors.Task
import Doors.Pit
import Doors.Scheduler.Core
import Doors.Scheduler.Process
import Doors.Scheduler.Signals
import Doors.Scheduler.Queue
import Doors.Scheduler.Step
import Doors.Scheduler.Create
import Doors.Scheduler.Effect
import Doors.Scheduler.Failure
import Doors.Scheduler.Invariant
import Doors.Scheduler.SleepQueue
import Doors.Scheduler.Timer
import Doors.Scheduler.Clock
import Doors.Scheduler.RoundRobin
import Doors.Scheduler.Preempt
import Doors.Scheduler.Bystander
import Doors.Scheduler.Pid
import Doors.Scheduler.Reap
import Doors.Scheduler.Fpu
import Doors.Scheduler.Reuse
import Doors.Semaphore
import Doors.Waitpid
import Doors.Wakeup
import Doors.Wakeup.Calls
import Doors.Syscall.Machine
import Doors.Syscall.Frame
import Doors.Syscall.Slot
import Doors.Tty
import Doors.Tty.Rows
import Doors.Tty.Bounds
import Doors.Tty.Tape
import Doors.Tty.Scrollback
import Doors.TtyLock
import Doors.Kbd.Ring
import Doors.Kbd.Available
import Doors.Kbd.ReadLine
import Doors.Kbd.Editor
import Doors.Kbd.History
import Doors.Libcxx.Udivmoddi3
import Doors.Libcxx.Numerals
import Doors.Libcxx.Grammar
import Doors.Libcxx.Format
import Doors.Libcxx.Pieces
import Doors.Libcxx.Padded
import Doors.User.Snake
import Doors.Elf.Loader
import Doors.Elf.Reads
import Doors.Lib.Post
import Doors.Libcxx.String
import Doors.Libcxx.StringInvariant
import Doors.Libcxx.StringOps
import Doors.Libcxx.StringRun
import Doors.Elf.Image
import Doors.Memory.Pmm
import Doors.Memory.Boot
import Doors.Memory.Stats
import Doors.Memory.Paging
import Doors.Memory.Directory
import Doors.Memory.Mapping
import Doors.Memory.Unmap
import Doors.Memory.Clone
import Doors.Process.Exec
import Doors.Process.Replace
import Doors.Syscall.UserPtr
import Doors.Elf.Paged
import Doors.Lib.Linked
import Doors.Heap.Heap
import Doors.Heap.Blocks
import Doors.Heap.Operations
import Doors.Heap.Ledger
import Doors.Heap.Span
import Doors.Elf.Outcome
import Doors.Elf.Rollback
import Doors.Kbd.Echo
import Doors.Libcxx.StringContents
import Doors.Libcxx.StringEdit
import Doors.Libcxx.StringSelf
import Doors.Lib.Scan
import Doors.Libcxx.Search
import Doors.Libcxx.Malloc
import Doors.Symbols
import Doors.Lib.Words
import Doors.User.Tokenize
import Doors.User.Kill
import Doors.TestFlag
import Doors.User.Snake.Track
import Doors.User.Snake.Body
import Doors.User.Snake.Bonus
import Doors.User.Snake.Shadow
import Doors.User.Snake.Turn
import Doors.Lib.Copy
import Doors.Lib.Calendar
import Doors.Cmos
import Doors.Libcxx.Memmove
import Doors.Memory.FreeList
import Doors.Memory.Threaded
import Doors.Memory.PagingInit
import Doors.Memory.DirectMap
import Doors.Memory.Partition
import Doors.Sigreturn
import Doors.Sigreturn.Trampoline
import Doors.Memory.Ledger
import Doors.Memory.Refs
import Doors.Memory.Slots
import Doors.Memory.Cow
import Doors.Memory.Fork
import Doors.Process.Spaces
import Doors.Process.Boot
import Doors.Process.Isolation
import Doors.Memory.Scan
import Doors.Elf.Calls
