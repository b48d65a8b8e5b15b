import Mathlib.Algebra.Group.Nat.Defs
import Mathlib.Tactic.Common

/-!
# Doors.Task

The data of the kernel's task table (`sys/task.h`, `sys/param.h`,
`kernel/Task.h`) and the ways its code can stop (`kernel/Panic.h`).

Machine integers are natural numbers; the operations that can wrap
(`add64`, `sub64`, `int8`) say so.  A null pointer is `0`, as in the source.
Of `Task` the label `name`, which is only printed, is left out.
-/

namespace Doors

/-! ## faults -/

/-- The `panic` calls of the modelled code. -/
inductive Panic where
  | tickCurrentIdx
  | switchToNotReady
  | sleepCurrentIdx
  | blockCurrentTaskCurrentIdx
  | blockAndYieldCurrentIdx
  | findNextCurrentIdx
  | findNextTaskCount
  | exitCurrentIdx
  | exitNoRunnable
  | stackOverflow
  | handleNmCurrentIdx
  | semaphoreWaiters
  | freeFrameZero
  | removeRefZero
  | badPhysAddr
  deriving Repr, DecidableEq

/-- How modelled code can stop: a panic of the kernel, an access outside
`sleepQueue_`, which C++ leaves undefined, or a trap handler that traps into
itself until its kernel stack is full. -/
inductive Fault where
  | panic (p : Panic)
  | sleepQueueBounds
  | nested
  deriving Repr, DecidableEq

/-! ## wrapping arithmetic -/

/-- `uint64_t` addition. -/
def add64 (a b : Nat) : Nat := (a + b) % 2 ^ 64

/-- `uint64_t` subtraction. -/
def sub64 (a b : Nat) : Nat := (a + 2 ^ 64 - b) % 2 ^ 64

/-- `static_cast<int8_t>`. -/
def int8 (n : Int) : Int := n.bmod 256

/-- `static_cast<unsigned char>`. -/
def uchar (n : Int) : Int := n % 256

/-! ## tasks -/

inductive TaskState where
  | dead
  | ready
  | running
  | blocked
  deriving Repr, DecidableEq, Inhabited

/-- The idle task's slot and pid. -/
def idleTaskId : Nat := 0

/-- The 512-byte `FXSAVE` image, which is also the register file it is
saved from and restored to. -/
abbrev FpuImage := BitVec 4096

/-- A trap frame on a kernel stack: the eight `pushal` registers, then what
the CPU pushed (`userEsp` and `userSs` only on a ring change). -/
structure TrapFrame where
  edi : Nat := 0
  esi : Nat := 0
  ebp : Nat := 0
  esp : Nat := 0
  ebx : Nat := 0
  edx : Nat := 0
  ecx : Nat := 0
  eax : Nat := 0
  eip : Nat := 0
  cs : Nat := 0
  eflags : Nat := 0
  userEsp : Nat := 0
  userSs : Nat := 0
  deriving Repr, DecidableEq, Inhabited

namespace Task

def priorityHigh : Nat := 0
def priorityNormal : Nat := 4
def priorityIdle : Nat := 9

def maxChildren : Nat := 8

def sigkill : Nat := 9
def sigsegv : Nat := 11
def signalMax : Nat := 32
def exitCodeSignalBase : Nat := 128

end Task

/-- One slot of the task table.  The children array and its count are the
list `children`; the code never reads past the count. -/
structure Task where
  esp : Nat := 0
  state : TaskState := .dead
  id : Nat := 0
  entry : Nat := 0
  stackBuf : Nat := 0
  stackSize : Nat := 0
  flags : Nat := 0
  priority : Nat := 0
  wakeupMs : Nat := 0
  runtimeMs : Nat := 0
  onKill : Nat := 0
  pageDir : Nat := 0
  unblockOnExit : Int := -1
  userStackPageCount : Nat := 0
  userStackVaddr : Nat → Nat := fun _ => 0
  userStackPhys : Nat → Nat := fun _ => 0
  userCodeBuf : Nat := 0
  elfPageCount : Nat := 0
  elfVaddr : Nat → Nat := fun _ => 0
  elfPhys : Nat → Nat := fun _ => 0
  pid : Nat := 0
  ppid : Nat := 0
  exitCode : Int := 0
  children : List Nat := []
  pendingSignals : BitVec 32 := 0
  signalHandlers : Nat → Nat := fun _ => 0
  savedSignalEip : Nat := 0
  savedSignalEflags : Nat := 0
  savedSignalEsp : Nat := 0
  fpuValid : Bool := false
  fpuState : FpuImage := 0
  historyBuf : Nat := 0
  historyCount : Nat := 0
  historyHead : Nat := 0
  historyPos : Int := 0

end Doors
