import Doors.Scheduler.Core

/-!
# Doors.Scheduler.Process

Process creation and termination (`SchedulerProcess.cc`): `fork`, `exec`,
`waitpid`, `addUserElfTask`, `exitCurrentTask`, `killTask`, and the lazy FPU
switch `handleNm`.

`fork` and `addUserElfTask` are written as the sequence of their parts
(`findSlot`, `resetSlot`, …, `finishFork`), so that a model in which a timer
tick may fall between the parts runs the same code.  The page tables and the
heap are elsewhere: the answers of `allocKernelStack`, `clonePageDir`,
`mapUserStackPages` and `ElfLoader::load` are arguments.
-/

namespace Doors

open Cells

/-- What `ElfLoader::load` hands back. -/
structure ElfResult where
  entry : Nat := 0
  numPages : Nat := 0
  vaddr : Nat → Nat := fun _ => 0
  phys : Nat → Nat := fun _ => 0

namespace Sched

open Scheduler

/-! ## termination -/

/-- `Scheduler::reparentChildren`. -/
def reparentChildren (s : Sched) (parentId : Nat) : Sched :=
  { s with tasks := fun i =>
      if i < s.taskCount ∧ (s.tasks i).state ≠ .dead ∧ (s.tasks i).ppid = parentId then
        { s.tasks i with ppid := 0 }
      else s.tasks i }

/-- The current task dies: `exitCurrentTask` up to its call of `findNext`.
The `onKill` callback runs first; the only one the kernel installs redraws
the taskbar row. -/
def die (s : Sched) (code : Int) : Except Fault Sched := do
  let i := s.currentIdx
  let s := s.modify i fun t => { t with exitCode := code, state := .dead }
  let s := { s with totalExited := s.totalExited + 1 }
  let s ← s.removeFromSleepQueue i
  let s := s.reparentChildren s.cur.pid
  .ok (s.modify i fun t => { t with historyBuf := 0 })

/-- The slot of an exiting task gives up its pages and its waiter. -/
def release (s : Sched) (i : Nat) : Sched :=
  s.modify i fun t => { t with
    pageDir := 0,
    userStackPageCount := 0,
    userCodeBuf := 0,
    elfPageCount := 0,
    unblockOnExit := -1 }

/-- `Scheduler::exitCurrentTask`. -/
def exitCurrentTask (s : Sched) (code : Int) : Except Fault Sched :=
  if s.currentIdx ≥ maxTasks then .error (.panic .exitCurrentIdx)
  else do
    let s ← s.die code
    match ← s.findNext with
    | none => .error (.panic .exitNoRunnable)
    | some next =>
        let oldUnblockOnExit := s.cur.unblockOnExit
        let (_, s) ← (s.release s.currentIdx).switchTo next
        if oldUnblockOnExit ≠ -1 then s.unblockTask oldUnblockOnExit else .ok s

/-- The slot of a killed task: its stack and pages are freed as well. -/
def scrap (s : Sched) (i : Nat) : Sched :=
  s.modify i fun t => { t with
    stackBuf := 0, pageDir := 0, userCodeBuf := 0, userStackPageCount := 0, elfPageCount := 0
    historyBuf := 0, stackSize := 0 }

/-- `Scheduler::killTask` after its checks.  `unblockOnExit` is read as an
`unsigned char`, so the comparison with `-1` never fails. -/
def kill (s : Sched) (i : Nat) : Except Fault Sched := do
  let unblockId := uchar (s.tasks i).unblockOnExit
  let s := s.modify i fun t => { t with unblockOnExit := -1 }
  let s ← if unblockId ≠ -1 then s.unblockTask unblockId else .ok s
  let s := s.modify i fun t => { t with state := .dead }
  let s := { s with totalExited := s.totalExited + 1 }
  let s ← s.removeFromSleepQueue i
  let s := s.reparentChildren (s.tasks i).pid
  .ok (s.scrap i)

/-- `Scheduler::killTask`. -/
def killTask (s : Sched) (id : Int) : Except Fault Sched :=
  if id < 0 ∨ id ≥ s.taskCount then .ok s
  else if id = s.currentIdx then .ok s
  else if (s.tasks id.toNat).state = .dead then .ok s
  else s.kill id.toNat

/-! ## the lazy FPU switch -/

/-- `fninit`: control word `037Fh`, the other five words of the x87 environment
clear.  The data registers, the XMM registers and `MXCSR` stay. -/
def fninit (regs : FpuImage) : FpuImage := regs >>> 192 <<< 192 ||| 0x037F

/-- How many levels of `#NM` fit on a kernel stack: each takes the interrupt
frame, `pushal`, and the argument and the return address of `excNm`. -/
def nmLevels : Nat := taskStackSize / (12 + 32 + 4 + 4)

/-- An FPU instruction of the kernel.  While `CR0.TS` is set it traps, and it is
executed when the handler has returned. -/
def device (s : Sched) (trap : Sched → Except Fault Sched) (f : Sched → Sched) :
    Except Fault Sched := do
  let s ← if s.cr0Ts then trap s else .ok s
  .ok (f s)

/-- The save half of `handleNm`: the previous owner's registers go to its
buffer if its state is still valid and it is not the current task. -/
def saveOwner (s : Sched) (trap : Sched → Except Fault Sched) : Except Fault Sched :=
  match s.fpuOwner with
  | some o =>
      if o ≠ s.currentIdx ∧ o < maxTasks ∧ (s.tasks o).fpuValid then
        s.device trap fun s => s.modify o fun t => { t with fpuState := s.fpuRegs }
      else .ok s
  | none => .ok s

/-- `Scheduler::handleNm`, behind the interrupt gate of `#NM`, which leaves
`CR0.TS` as it is: the handler clears it last.  The first argument is how many
levels of it still fit on the kernel stack. -/
def handleNm : Nat → Sched → Except Fault Sched
  | 0, _ => .error .nested
  | level + 1, s =>
      if s.currentIdx ≥ maxTasks then .error (.panic .handleNmCurrentIdx)
      else do
        let s ← s.saveOwner (handleNm level)
        let s ← s.device (handleNm level) fun s =>
          { s with fpuRegs := if s.cur.fpuValid then s.cur.fpuState else fninit s.fpuRegs }
        let s := s.modify s.currentIdx fun t => { t with fpuValid := true }
        .ok { s with fpuOwner := some s.currentIdx, cr0Ts := false }

/-! ## creating user tasks -/

/-- `Task &t = tasks_[slot]; t = {}`, after its old kernel stack was freed. -/
def resetSlot (s : Sched) (slot : Nat) : Sched := s.modify slot fun _ => {}

/-- `tasks_[slot].pageDir = dir`. -/
def setPageDir (s : Sched) (slot dir : Nat) : Sched :=
  s.modify slot fun t => { t with pageDir := dir }

/-- The address of a user task's frame at the top of its kernel stack. -/
def userFrameTop (stack : Nat) : Nat := stack + taskStackSize - frameSizeUser

/-- `Scheduler::initUserStackFrame`. -/
def initUserStackFrame (s : Sched) (stack userEip userEsp : Nat) : Sched :=
  let frame : TrapFrame := { eip := userEip, cs := 0x1B, eflags := 0x202, userEsp, userSs := 0x23 }
  { s with frames := set s.frames (userFrameTop stack) frame }

/-- The stack pages `mapUserStackPages` records in slot `i`. -/
def mapUserStackPages (s : Sched) (i : Nat) (phys : Nat → Nat) : Sched :=
  s.modify i fun t => { t with
    userStackVaddr := fun k => if k < userStackPages then userStackVaddr - k * pageSize
      else t.userStackVaddr k
    userStackPhys := fun k => if k < userStackPages then phys k else t.userStackPhys k
    userStackPageCount := userStackPages }

/-- The ELF pages `addUserElfTask` and `exec` record in slot `i`. -/
def trackElfPages (s : Sched) (i : Nat) (elf : ElfResult) : Sched :=
  s.modify i fun t => { t with
    elfPageCount := elf.numPages
    elfVaddr := fun k => if k < elf.numPages then elf.vaddr k else t.elfVaddr k
    elfPhys := fun k => if k < elf.numPages then elf.phys k else t.elfPhys k }

/-- The last part of `addUserElfTask`, from the user stack frame on. -/
def finishElfTask (s : Sched) (slot stack : Nat) (elf : ElfResult) : Sched :=
  let s := s.initUserStackFrame stack elf.entry (userStackVaddr + pageSize)
  let s := s.modify slot fun t =>
    { t with esp := userFrameTop stack, entry := 0, state := .ready, id := slot % 256 }
  let s := s.initProcessFields slot
  let s := s.modify slot fun t => { t with stackBuf := stack, stackSize := taskStackSize }
  let s := s.trackElfPages slot elf
  { s with tssEsp0 := stack + taskStackSize }

/-- `Scheduler::addUserElfTask`.  `stackPhys` is `none` when the user stack
cannot be mapped, `elf` is the answer of `ElfLoader::load`. -/
def addUserElfTask (s : Sched) (stack : Nat) (stackPhys : Option (Nat → Nat)) (dir : Nat)
    (elf : Option ElfResult) : Option Nat × Sched :=
  match s.findSlot with
  | (none, s) => (none, s)
  | (some slot, s) =>
      let s := (s.resetSlot slot).modify slot fun t => { t with priority := Task.priorityNormal }
      if stack = 0 then (none, s)
      else
        match stackPhys with
        | none => (none, s)
        | some phys =>
            let s := (s.mapUserStackPages slot phys).setPageDir slot dir
            if dir = 0 then (none, s)
            else
              match elf with
              | none => (none, s)
              | some elf => (some slot, s.finishElfTask slot stack elf)

/-- `fork` copies the frame at `syscallFrameEsp` to the top of the child's
kernel stack and clears `EAX` in the copy. -/
def copyFrame (s : Sched) (stack : Nat) : Sched :=
  let frame := { s.frames s.syscallFrameEsp with eax := 0 }
  { s with frames := set s.frames (userFrameTop stack) frame }

/-- The FPU part of `fork`: the registers of a parent that owns the FPU are
saved first.  No run gets there: the trap never returns, and so no task's FPU
state is ever valid. -/
def forkFpu (s : Sched) (parent slot : Nat) : Sched :=
  if (s.tasks parent).fpuValid then
    let s := if s.fpuOwner = some (s.tasks parent).id then
        s.modify parent fun t => { t with fpuState := s.fpuRegs }
      else s
    s.modify slot fun t => { t with fpuState := (s.tasks parent).fpuState, fpuValid := true }
  else s.modify slot fun t => { t with fpuValid := false }

/-- `fork` adds the child to its parent's list while there is room. -/
def addChild (s : Sched) (parent pid : Nat) : Sched :=
  s.modify parent fun t =>
    if t.children.length < Task.maxChildren then { t with children := t.children ++ [pid] } else t

/-- The last part of `fork`, after the page directory was cloned. -/
def finishFork (s : Sched) (parent slot stack : Nat) : Sched :=
  let p := s.tasks parent
  let pid := s.nextPid
  let s := s.takePid
  let s := s.modify slot fun t => { t with
    userStackVaddr := fun k =>
      if k < p.userStackPageCount then p.userStackVaddr k else t.userStackVaddr k
    userStackPhys := fun k =>
      if k < p.userStackPageCount then p.userStackPhys k else t.userStackPhys k
    userStackPageCount := p.userStackPageCount
    esp := userFrameTop stack
    entry := 0
    state := .ready
    id := slot % 256
    pid
    ppid := p.pid
    exitCode := 0
    children := []
    priority := p.priority
    stackBuf := stack
    stackSize := taskStackSize }
  let s := s.forkFpu parent slot
  s.addChild parent pid

/-- `Scheduler::fork`; the result is the child's pid. -/
def fork (s : Sched) (stack dir : Nat) : Option Nat × Sched :=
  if s.currentIdx ≥ maxTasks ∨ s.cur.userStackPageCount = 0 ∨ s.syscallFrameEsp = 0 then (none, s)
  else
    match s.findSlot with
    | (none, s) => (none, s)
    | (some slot, s) =>
        let s := s.resetSlot slot
        if stack = 0 then (none, s)
        else
          let s := (s.copyFrame stack).setPageDir slot dir
          if dir = 0 then (none, s)
          else (some s.nextPid, s.finishFork s.currentIdx slot stack)

/-! ## exec -/

/-- The points at which `exec` can end. -/
inductive ExecOutcome where
  | noModule
  | invalidElf
  | noStack
  | loadFailed (stackPhys : Nat → Nat)
  | loaded (stackPhys : Nat → Nat) (elf : ElfResult)

/-- `exec` forgets the old program's FPU and signal state. -/
def execForget (s : Sched) : Sched :=
  s.modify s.currentIdx fun t => { t with
    fpuValid := false, signalHandlers := fun _ => 0, savedSignalEip := 0, savedSignalEflags := 0
    savedSignalEsp := 0 }

/-- `exec` drops the page lists of the old image. -/
def execDrop (s : Sched) : Sched :=
  s.modify s.currentIdx fun t =>
    { t with elfPageCount := 0, userStackPageCount := 0, userCodeBuf := 0 }

/-- `exec` redirects the trap frame at `syscallFrameEsp` to the new image. -/
def execFrame (s : Sched) (entry : Nat) : Sched :=
  let frame := { s.frames s.syscallFrameEsp with
    eip := entry, eflags := 0x202, userEsp := userStackVaddr + pageSize, ebx := 0 }
  { s with frames := set s.frames s.syscallFrameEsp frame }

/-- `Scheduler::exec`.  The result is `none` when the call does not return
because the task exited. -/
def exec (s : Sched) (out : ExecOutcome) : Except Fault (Option Int × Sched) :=
  if s.currentIdx ≥ maxTasks then .ok (some (-1), s)
  else
    match out with
    | .noModule => .ok (some (-1), s)
    | out =>
        if s.cur.pageDir = 0 then .ok (some (-1), s)
        else
          let s := s.execForget
          match out with
          | .noModule | .invalidElf => .ok (some (-1), s)
          | .noStack => do
              let s ← s.execDrop.exitCurrentTask 1
              .ok (none, s)
          | .loadFailed phys => do
              let s := s.execDrop.mapUserStackPages s.currentIdx phys
              let s := s.modify s.currentIdx fun t => { t with userStackPageCount := 0 }
              let s ← s.exitCurrentTask 1
              .ok (none, s)
          | .loaded phys elf =>
              let s := s.execDrop.mapUserStackPages s.currentIdx phys
              let s := s.trackElfPages s.currentIdx elf
              .ok (some 0, s.execFrame elf.entry)

/-! ## waitpid -/

/-- The slot the inner loop of `reapDeadChild` finds for one child pid. -/
def findDead (s : Sched) (childPid : Nat) : Option Nat :=
  (List.range s.taskCount).find? fun t => (s.tasks t).pid = childPid ∧ (s.tasks t).state = .dead

/-- The two loops of `reapDeadChild`: the first child in the list that has a
DEAD slot, with its position. -/
def findReapable (s : Sched) : List Nat → Nat → Option (Nat × Nat)
  | [], _ => none
  | pid :: pids, i =>
      match s.findDead pid with
      | some t => some (i, t)
      | none => findReapable s pids (i + 1)

/-- `children[i] = children[childCount - 1]; --childCount`. -/
def removeChild (l : List Nat) (i : Nat) : List Nat := (l.set i (l.getLastD 0)).dropLast

/-- `Scheduler::reapDeadChild` for the parent in slot `p`: the pid and the
exit code of the reaped child. -/
def reapDeadChild (s : Sched) (p : Nat) : Option (Nat × Int) × Sched :=
  match s.findReapable (s.tasks p).children 0 with
  | none => (none, s)
  | some (i, t) =>
      (some ((s.tasks t).pid, (s.tasks t).exitCode),
        s.modify p fun task => { task with children := removeChild task.children i })

/-- `waitpid` sets `unblockOnExit` on every live task with the pid of a
child. -/
def registerChild (s : Sched) (childPid waiter : Nat) : Sched :=
  { s with tasks := fun t =>
      if t < s.taskCount ∧ (s.tasks t).pid = childPid ∧ (s.tasks t).state ≠ .dead then
        { s.tasks t with unblockOnExit := int8 waiter }
      else s.tasks t }

/-- How the first half of `waitpid` ends. -/
inductive WaitResult where
  | failed
  | reaped (pid : Nat) (status : Int)
  | blocked
  deriving Repr, DecidableEq

/-- The lowest kernel address; a status pointer must be below it. -/
def kernelVirtualBase : Nat := 0xC0000000

/-- `Scheduler::waitpid` up to its wait loop. -/
def waitpid (s : Sched) (status : Nat) : Except Fault (WaitResult × Sched) :=
  if s.currentIdx ≥ maxTasks ∨ status ≥ kernelVirtualBase then .ok (.failed, s)
  else
    match s.reapDeadChild s.currentIdx with
    | (some (pid, code), s) => .ok (.reaped pid code, s)
    | (none, s) =>
        if s.cur.children = [] then .ok (.failed, s)
        else do
          let s := s.cur.children.foldl (fun s pid => s.registerChild pid s.currentIdx) s
          let s ← s.blockCurrentTaskAndYield
          .ok (.blocked, s)

/-- The second half of `waitpid`, after the task was unblocked. -/
def waitpidResume (s : Sched) : WaitResult × Sched :=
  match s.reapDeadChild s.currentIdx with
  | (some (pid, code), s) => (.reaped pid code, s)
  | (none, s) => (.failed, s)

end Sched

end Doors
