import Doors.Lib.Cells
import Doors.Pit

/-!
# Doors.Scheduler.Core

The scheduler's state and the functions of `Scheduler.cc` that everything
else is built on: slot and task selection, the context switch, the sleep
queue, blocking and unblocking.

`Sched` holds the static members of `Scheduler`, the timer, and what a
context switch changes outside the task table (`CR3`, `TSS.esp0`, `CR0.TS`,
the FPU registers, the trap frames on the kernel stacks and
`syscallFrameEsp`).  Code that can panic runs in `Except Fault`; a function
that the source declares `[[noreturn]]` returns the state in which the task
it switched to continues.

Allocation is not part of this state: a function that allocates a kernel
stack or a page directory takes the allocator's answer as an argument, `0`
being the null pointer.
-/

namespace Doors

open Cells

/-- One entry of `sleepQueue_`. -/
structure SleepEntry where
  deadline : Nat := 0
  taskId : Nat := 0
  deriving Repr, DecidableEq, Inhabited

/-- The scheduler and the processor state it switches. -/
structure Sched where
  tasks : Nat → Task := fun _ => {}
  taskCount : Nat := 0
  currentIdx : Nat := 0
  quantumStartMs : Nat := 0
  initialized : Bool := false
  totalExited : Nat := 0
  totalContextSwitches : Nat := 0
  idleTicks : Nat := 0
  nextPid : Nat := 0
  fpuOwner : Option Nat := none
  sleepQueue : Nat → SleepEntry := fun _ => {}
  sleepCount : Nat := 0
  lastTickMs : Nat := 0
  pit : Pit := {}
  cr3 : Nat := 0
  tssEsp0 : Nat := 0
  cr0Ts : Bool := false
  fpuRegs : FpuImage := 0
  frames : Nat → TrapFrame := fun _ => {}
  syscallFrameEsp : Nat := 0
  kernelPageDir : Nat := 0
  taskWrapper : Nat := 0

namespace Scheduler

def maxTasks : Nat := 8
def maxSleepers : Nat := maxTasks
def quantumMs : Nat := 20
def taskStackSize : Nat := 8192
def frameSize : Nat := 44
def frameSizeUser : Nat := 52
def userStackVaddr : Nat := 0xB0000000
def pageSize : Nat := 4096
def userStackPages : Nat := 4

end Scheduler

namespace Sched

open Scheduler

/-! ## updates -/

/-- `tasks_[i] = f(tasks_[i])`. -/
def modify (s : Sched) (i : Nat) (f : Task → Task) : Sched :=
  { s with tasks := fun j => if j = i then f (s.tasks j) else s.tasks j }

/-- `tasks_[currentIdx_]`. -/
def cur (s : Sched) : Task := s.tasks s.currentIdx

/-- A modified slot; the other slots stay. -/
@[simp] theorem modify_tasks (s : Sched) (i j : Nat) (f : Task → Task) :
    (s.modify i f).tasks j = if j = i then f (s.tasks j) else s.tasks j := rfl

/-- What is not in the table of tasks stays. -/
@[simp] theorem modify_taskCount (s : Sched) (i : Nat) (f : Task → Task) :
    (s.modify i f).taskCount = s.taskCount := rfl
@[simp] theorem modify_currentIdx (s : Sched) (i : Nat) (f : Task → Task) :
    (s.modify i f).currentIdx = s.currentIdx := rfl
@[simp] theorem modify_nextPid (s : Sched) (i : Nat) (f : Task → Task) :
    (s.modify i f).nextPid = s.nextPid := rfl
@[simp] theorem modify_fpuOwner (s : Sched) (i : Nat) (f : Task → Task) :
    (s.modify i f).fpuOwner = s.fpuOwner := rfl
@[simp] theorem modify_sleepQueue (s : Sched) (i : Nat) (f : Task → Task) :
    (s.modify i f).sleepQueue = s.sleepQueue := rfl
@[simp] theorem modify_sleepCount (s : Sched) (i : Nat) (f : Task → Task) :
    (s.modify i f).sleepCount = s.sleepCount := rfl
@[simp] theorem modify_pit (s : Sched) (i : Nat) (f : Task → Task) :
    (s.modify i f).pit = s.pit := rfl
@[simp] theorem modify_cr0Ts (s : Sched) (i : Nat) (f : Task → Task) :
    (s.modify i f).cr0Ts = s.cr0Ts := rfl
@[simp] theorem modify_fpuRegs (s : Sched) (i : Nat) (f : Task → Task) :
    (s.modify i f).fpuRegs = s.fpuRegs := rfl
@[simp] theorem modify_frames (s : Sched) (i : Nat) (f : Task → Task) :
    (s.modify i f).frames = s.frames := rfl
@[simp] theorem modify_syscallFrameEsp (s : Sched) (i : Nat) (f : Task → Task) :
    (s.modify i f).syscallFrameEsp = s.syscallFrameEsp := rfl

/-- `sleepQueue_[0 .. sleepCount_)`. -/
def queue (s : Sched) : List SleepEntry := toList s.sleepQueue s.sleepCount

/-! ## initialisation -/

/-- `Scheduler::init`. -/
def init (s : Sched) : Sched :=
  { s with
    tasks := fun i => if i = 0 then
        { state := .running, id := idleTaskId, pid := idleTaskId, priority := Task.priorityIdle }
      else {}
    taskCount := 1
    currentIdx := 0
    quantumStartMs := 0
    sleepCount := 0
    lastTickMs := 0
    initialized := true }

/-! ## selection -/

/-- `Scheduler::findSlot`: the first DEAD slot, else a new one. -/
def findSlot (s : Sched) : Option Nat × Sched :=
  match (List.range s.taskCount).find? fun i => (s.tasks i).state = .dead with
  | some i => (some i, s)
  | none =>
      if s.taskCount ≥ maxTasks then (none, s)
      else (some s.taskCount, { s with taskCount := s.taskCount + 1 })

/-- The selection loop of `findNext` over the remaining offsets, with
`bestPriority` and `bestIdx` as accumulators. -/
def findNextLoop (s : Sched) : List Nat → Nat → Option Nat → Option Nat
  | [], _, bestIdx => bestIdx
  | i :: is, bestPriority, bestIdx =>
      let idx := (s.currentIdx + 1 + i) % s.taskCount
      let better := (s.tasks idx).state = .ready ∧ (s.tasks idx).priority < bestPriority
      let bestPriority := if better then (s.tasks idx).priority else bestPriority
      let bestIdx := if better then some idx else bestIdx
      if bestPriority = Task.priorityHigh then bestIdx else findNextLoop s is bestPriority bestIdx

/-- `Scheduler::findNext`. -/
def findNext (s : Sched) : Except Fault (Option Nat) :=
  if s.currentIdx ≥ maxTasks then .error (.panic .findNextCurrentIdx)
  else if s.taskCount > maxTasks then .error (.panic .findNextTaskCount)
  else if s.taskCount ≤ 1 then .ok none
  else
    .ok (some ((findNextLoop s (List.range (s.taskCount - 1)) (Task.priorityIdle + 1) none).getD 0))

/-! ## the timer -/

/-- `Pit::programForMs`. -/
def programForMs (s : Sched) (ms : Nat) : Sched := { s with pit := s.pit.programForMs ms }

/-- The delay `programNextTick` asks for. -/
def nextTickMs (s : Sched) : Nat :=
  let now := s.pit.uptimeMs
  let nextMs :=
    if s.sleepCount > 0 then
      if (s.sleepQueue 0).deadline > now then sub64 (s.sleepQueue 0).deadline now % 2 ^ 32 else 1
    else Pit.pitMaxMs
  let elapsed := sub64 now s.quantumStartMs
  let nextMs :=
    if elapsed < quantumMs ∧ quantumMs - elapsed < nextMs then quantumMs - elapsed else nextMs
  max 1 (min nextMs Pit.pitMaxMs)

/-- `Scheduler::programNextTick`. -/
def programNextTick (s : Sched) : Sched := s.programForMs s.nextTickMs

/-! ## the context switch -/

/-- The state changes of `switchTo` once `next` has been accepted: `CR3`, the
ring-0 stack of user tasks and `CR0.TS` follow the task. -/
def install (s : Sched) (next : Nat) : Sched :=
  let s := { s with currentIdx := next }
  let s := s.modify next fun t => { t with state := .running }
  let s := { s with quantumStartMs := s.pit.uptimeMs }
  let t := s.cur
  let s := { s with
    cr3 := if t.pageDir ≠ 0 then t.pageDir else s.kernelPageDir
    tssEsp0 := if t.userStackPageCount > 0 then t.stackBuf + taskStackSize else s.tssEsp0
    cr0Ts := true }
  s.programNextTick

/-- The start of `switchTo`: count the switch and make a RUNNING task READY. -/
def leave (s : Sched) : Sched :=
  let s := { s with totalContextSwitches := s.totalContextSwitches + 1 }
  s.modify s.currentIdx fun t => if t.state = .running then { t with state := .ready } else t

/-- `Scheduler::switchTo`; the returned stack pointer is that of the new
current task. -/
def switchTo (s : Sched) (next : Nat) : Except Fault (Nat × Sched) :=
  let s := s.leave
  if next ≥ maxTasks ∨ (s.tasks next).state ≠ .ready then .error (.panic .switchToNotReady)
  else .ok ((s.install next).cur.esp, s.install next)

/-! ## the sleep queue -/

/-- The search loop of `removeFromSleepQueue`: `k` entries from index `i` on. -/
def findSleeper (s : Sched) (taskId : Nat) : Nat → Nat → Except Fault (Option Nat)
  | 0, _ => .ok none
  | k + 1, i => do
      let e ← read .sleepQueueBounds maxSleepers s.sleepQueue i
      if e.taskId = taskId then .ok (some i) else findSleeper s taskId k (i + 1)

/-- `Scheduler::removeFromSleepQueue`. -/
def removeFromSleepQueue (s : Sched) (taskId : Nat) : Except Fault Sched := do
  match ← findSleeper s taskId s.sleepCount 0 with
  | none => .ok s
  | some i =>
      let count := s.sleepCount - 1
      let q ← shiftDown .sleepQueueBounds maxSleepers (count - i) i s.sleepQueue
      .ok { s with sleepQueue := q, sleepCount := count }

/-- The insertion of `sleep`: walk backwards from the end, then write. -/
def insertSleeper (s : Sched) (e : SleepEntry) : Except Fault Sched := do
  let (pos, q) ← insertFrom .sleepQueueBounds maxSleepers (fun x => e.deadline < x.deadline)
    s.sleepCount s.sleepQueue
  let q ← write .sleepQueueBounds maxSleepers q pos e
  .ok { s with sleepQueue := q, sleepCount := s.sleepCount + 1 }

/-- `Scheduler::sleep` up to its wait loop, in which the task stays until it
is no longer BLOCKED. -/
def sleep (s : Sched) (ms : Nat) : Except Fault Sched :=
  if s.currentIdx ≥ maxTasks then .error (.panic .sleepCurrentIdx)
  else do
    let deadline := add64 s.pit.uptimeMs ms
    let s := s.modify s.currentIdx fun t => { t with wakeupMs := deadline, state := .blocked }
    let s ← insertSleeper s { deadline, taskId := s.currentIdx }
    .ok (if deadline < s.pit.deadline then s.programForMs (ms % 2 ^ 32) else s)

/-! ## blocking and unblocking -/

/-- Set the current task BLOCKED; a corrupted index panics with `p`. -/
def blockOr (p : Panic) (s : Sched) : Except Fault Sched :=
  if s.currentIdx ≥ maxTasks then .error (.panic p)
  else .ok (s.modify s.currentIdx fun t => { t with state := .blocked })

/-- `Scheduler::blockCurrentTask`. -/
def blockCurrentTask (s : Sched) : Except Fault Sched := blockOr .blockCurrentTaskCurrentIdx s

/-- `Scheduler::blockCurrentTaskAndYield` up to its wait loop. -/
def blockCurrentTaskAndYield (s : Sched) : Except Fault Sched := blockOr .blockAndYieldCurrentIdx s

/-- Make slot `i` READY and take it off the sleep queue. -/
def wake (s : Sched) (i : Nat) : Except Fault Sched :=
  removeFromSleepQueue (s.modify i fun t => { t with state := .ready, wakeupMs := 0 }) i

/-- `Scheduler::unblockTask`. -/
def unblockTask (s : Sched) (id : Int) : Except Fault Sched :=
  if 0 ≤ id ∧ id < s.taskCount ∧ (s.tasks id.toNat).state = .blocked then do
    let s ← s.wake id.toNat
    .ok (if (s.tasks id.toNat).priority < s.cur.priority then s.programForMs 1 else s)
  else .ok s

/-- `Scheduler::setUnblockOnExit`. -/
def setUnblockOnExit (s : Sched) (taskId unblockId : Int) : Sched :=
  if 0 ≤ taskId ∧ taskId < s.taskCount then
    s.modify taskId.toNat fun t => { t with unblockOnExit := int8 unblockId }
  else s

/-! ## creating a ring-0 task -/

/-- `nextPid_++`. -/
def takePid (s : Sched) : Sched := { s with nextPid := (s.nextPid + 1) % 256 }

/-- `Scheduler::initProcessFields` on slot `i`. -/
def initProcessFields (s : Sched) (i : Nat) : Sched :=
  let pid := s.nextPid
  let s := s.takePid
  let s := s.modify i fun t => { t with pid }
  let ppid := if s.currentIdx < maxTasks then s.cur.pid else 0
  s.modify i fun t => { t with ppid, exitCode := 0, children := [] }

/-- The address `initStackFrame` returns. -/
def frameTop (stack : Nat) : Nat := stack + taskStackSize - frameSize

/-- `Scheduler::initStackFrame`: a ring-0 frame that enters `entry` with
interrupts enabled.  Every ring-0 task starts in `taskWrapper`. -/
def initStackFrame (s : Sched) (stack entry : Nat) : Sched :=
  { s with frames := set s.frames (frameTop stack) { eip := entry, cs := 0x08, eflags := 0x202 } }

/-- The slot assignments of `addTaskImpl` before the kernel stack exists. -/
def clearSlot (s : Sched) (slot pageDir priority : Nat) : Sched :=
  s.modify slot fun t => { t with
    stackBuf := 0, flags := 0, priority, wakeupMs := 0, runtimeMs := 0, onKill := 0, pageDir }

/-- The assignments of `addTaskImpl` once the kernel stack exists. -/
def finishTask (s : Sched) (slot entry stack : Nat) : Sched :=
  let s := s.initStackFrame stack s.taskWrapper
  let s := s.modify slot fun t =>
    { t with esp := frameTop stack, entry, state := .ready, id := slot % 256 }
  let s := s.initProcessFields slot
  s.modify slot fun t => { t with stackBuf := stack, stackSize := taskStackSize }

/-- `Scheduler::addTask`; `named` is false for a null name, `stack` is the
answer of `allocKernelStack`. -/
def addTask (s : Sched) (named : Bool) (entry pageDir priority stack : Nat) : Option Nat × Sched :=
  if ¬ named then (none, s)
  else
    match s.findSlot with
    | (none, s) => (none, s)
    | (some slot, s) =>
        let s := s.clearSlot slot pageDir priority
        if stack = 0 then (none, s)
        else (some slot, s.finishTask slot entry stack)

end Sched

end Doors
