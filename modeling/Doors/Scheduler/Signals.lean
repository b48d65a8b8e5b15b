import Doors.Scheduler.Process

/-!
# Doors.Scheduler.Signals

Signals (`SchedulerSignals.cc`) and the timer interrupt (`Scheduler::tick`),
which delivers them.  The trampoline that delivery writes to the user stack
is memory of the task and not part of the scheduler state; its effect on the
trap frame is.
-/

namespace Doors

open Cells

namespace Sched

open Scheduler

/-! ## sending -/

/-- The slot `sendSignal` picks for a pid: never the idle task's. -/
def findTarget (s : Sched) (pid : Int) : Option Nat :=
  (List.range s.taskCount).find? fun i =>
    ((s.tasks i).pid : Int) = pid ∧ (s.tasks i).state ≠ .dead ∧ i ≠ 0

/-- `Scheduler::sendSignal`. -/
def sendSignal (s : Sched) (pid sig : Int) : Except Fault Sched :=
  if sig < 0 ∨ sig ≥ Task.signalMax then .ok s
  else
    match s.findTarget pid with
    | none => .ok s
    | some i =>
        if sig = Task.sigkill then
          if i = s.currentIdx then
            s.exitCurrentTask (Task.exitCodeSignalBase + Task.sigkill)
          else
            (s.modify i fun t =>
              { t with exitCode := Task.exitCodeSignalBase + Task.sigkill }).killTask i
        else
          let s := s.modify i fun t =>
            { t with pendingSignals := t.pendingSignals ||| (1#32 <<< sig.toNat) }
          if (s.tasks i).state = .blocked then s.wake i else .ok s

/-! ## delivering -/

/-- The lowest-numbered pending signal. -/
def lowestPending (t : Task) : Option Nat :=
  (List.range' 1 (Task.signalMax - 1)).find? fun i => t.pendingSignals.getLsbD i

/-- Clear the pending bit of `sig` in slot `i`. -/
def clearPending (s : Sched) (i sig : Nat) : Sched :=
  s.modify i fun t => { t with pendingSignals := t.pendingSignals &&& ~~~(1#32 <<< sig) }

/-- Save the interrupted context of the current task and redirect its frame
to the handler; the new user stack pointer is that of
`writeSignalTrampoline`. -/
def redirect (s : Sched) (sig : Nat) : Sched :=
  let f := s.frames s.cur.esp
  let handler := s.cur.signalHandlers sig
  let s := s.clearPending s.currentIdx sig
  let s := s.modify s.currentIdx fun t => { t with
    savedSignalEip := f.eip, savedSignalEflags := f.eflags, savedSignalEsp := f.userEsp }
  let frame := { f with
    eax := sig, eip := handler, eflags := 0x202, userEsp := (f.userEsp + 2 ^ 32 - 8) % 2 ^ 32 }
  { s with frames := set s.frames s.cur.esp frame }

/-- `Scheduler::deliverPendingSignals`.  The flag is true when the current
task was terminated, in which case the call does not return. -/
def deliverPendingSignals (s : Sched) : Except Fault (Bool × Sched) :=
  if s.currentIdx ≥ maxTasks then .ok (false, s)
  else if s.cur.userStackPageCount = 0 then
    .ok (false, s.modify s.currentIdx fun t => { t with pendingSignals := 0 })
  else
    match lowestPending s.cur with
    | none => .ok (false, s)
    | some sig =>
        if s.cur.signalHandlers sig ≠ 0 then
          -- a ring-0 frame has no user stack pointer: delivery waits for ring 3
          if (s.frames s.cur.esp).cs % 4 = 0 then .ok (false, s) else .ok (false, s.redirect sig)
        else do
          let s ← (s.clearPending s.currentIdx sig).exitCurrentTask (Task.exitCodeSignalBase + sig)
          .ok (true, s)

/-- `Scheduler::deliverPendingSignalsAtEsp`, on the way back from a syscall. -/
def deliverPendingSignalsAtEsp (s : Sched) (esp : Nat) : Except Fault (Bool × Sched) :=
  if s.currentIdx ≥ maxTasks then .ok (false, s)
  else (s.modify s.currentIdx fun t => { t with esp }).deliverPendingSignals

/-! ## the timer interrupt -/

/-- `Scheduler::checkCanary`; `intact` says whether the canary word at the
base of the stack still has its value. -/
def checkCanary (t : Task) (intact : Bool) : Except Fault Unit :=
  if t.stackBuf = 0 then .ok ()
  else if t.state = .dead then .ok ()
  else if ¬ intact then .error (.panic .stackOverflow)
  else .ok ()

/-- One round of the wakeup loop of `tick`: pop the head of the queue and
wake its task, which may have been woken already. -/
def popSleeper (s : Sched) : Except Fault Sched := do
  let entry ← read .sleepQueueBounds maxSleepers s.sleepQueue 0
  let count := s.sleepCount - 1
  let q ← shiftDown .sleepQueueBounds maxSleepers count 0 s.sleepQueue
  let s := { s with sleepQueue := q, sleepCount := count }
  .ok (s.modify entry.taskId fun t =>
    { t with state := if t.state = .blocked then .ready else t.state, wakeupMs := 0 })

/-- The wakeup loop of `tick`.  Every round shortens the queue, so its length
is enough fuel. -/
def wakeExpired (now : Nat) : Nat → Sched → Except Fault Sched
  | 0, s => .ok s
  | k + 1, s =>
      if s.sleepCount > 0 then do
        let head ← read .sleepQueueBounds maxSleepers s.sleepQueue 0
        if head.deadline ≤ now then do
          let s ← s.popSleeper
          wakeExpired now k s
        else .ok s
      else .ok s

/-- `tick` charges the elapsed time to the current task. -/
def charge (s : Sched) (now : Nat) : Sched :=
  let idleTicks := if s.currentIdx = 0 then s.idleTicks + 1 else s.idleTicks
  let elapsed := sub64 now s.lastTickMs
  { s with idleTicks, lastTickMs := now }.modify s.currentIdx fun t =>
    { t with runtimeMs := add64 t.runtimeMs elapsed }

/-- The end of `tick`: switch if the quantum has expired and another task can
run.  The result is the stack pointer to continue with, `0` for the same. -/
def reschedule (s : Sched) (now : Nat) : Except Fault (Nat × Sched) :=
  if sub64 now s.quantumStartMs ≥ quantumMs then do
    match ← s.findNext with
    | none => .ok (0, { s with quantumStartMs := now }.programNextTick)
    | some next =>
        if next = s.currentIdx then .ok (0, { s with quantumStartMs := now }.programNextTick)
        else s.switchTo next
  else .ok (0, s.programNextTick)

/-- `Scheduler::tick`.  The result is `none` when signal delivery terminated
the current task, so that `tick` does not run to its end. -/
def tick (s : Sched) (currentEsp : Nat) (intact : Bool) : Except Fault (Option Nat × Sched) :=
  if ¬ s.initialized then .ok (some 0, s)
  else if s.currentIdx ≥ maxTasks then .error (.panic .tickCurrentIdx)
  else do
    let s := s.modify s.currentIdx fun t => { t with esp := currentEsp }
    checkCanary s.cur intact
    let (terminated, s) ← s.deliverPendingSignals
    if terminated then .ok (none, s)
    else do
      let now := s.pit.uptimeMs
      let s := s.charge now
      let s ← wakeExpired now s.sleepCount s
      let (esp, s) ← s.reschedule now
      .ok (some esp, s)

end Sched

end Doors
