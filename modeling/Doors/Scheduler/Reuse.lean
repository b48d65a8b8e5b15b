import Doors.Scheduler.Create

/-!
# Doors.Scheduler.Reuse

What a task inherits from the slot it is put into.

`fork` and `addUserElfTask` overwrite the slot with an empty task.  `addTask`
assigns fields one by one, and a field that it does not assign still has the
value the previous occupant left there.

* `addTask_slot` — the slot after `addTask`, field by field;
* `reuse_iff` — two DEAD slots with different contents become the same task
  exactly when they agree on the fields `addTask` does not assign.
-/

namespace Doors

open Cells Run

/-- Two tasks agree on the fields that `addTask` assigns.  The kernel stack
may be elsewhere, with the saved frame at the same place in it. -/
structure Task.Assigned (t u : Task) : Prop where
  state : t.state = u.state
  id : t.id = u.id
  entry : t.entry = u.entry
  stackSize : t.stackSize = u.stackSize
  flags : t.flags = u.flags
  priority : t.priority = u.priority
  wakeupMs : t.wakeupMs = u.wakeupMs
  runtimeMs : t.runtimeMs = u.runtimeMs
  onKill : t.onKill = u.onKill
  pageDir : t.pageDir = u.pageDir
  pid : t.pid = u.pid
  ppid : t.ppid = u.ppid
  exitCode : t.exitCode = u.exitCode
  children : t.children = u.children
  esp : ∃ d, t.esp = t.stackBuf + d ∧ u.esp = u.stackBuf + d

/-- Two tasks agree on the fields that `addTask` does not assign, as far as
they are read: of an array the part below its count, and the FPU image only
when it is valid. -/
structure Task.Kept (t u : Task) : Prop where
  pendingSignals : t.pendingSignals = u.pendingSignals
  signalHandlers : ∀ sig < Task.signalMax, t.signalHandlers sig = u.signalHandlers sig
  savedSignalEip : t.savedSignalEip = u.savedSignalEip
  savedSignalEflags : t.savedSignalEflags = u.savedSignalEflags
  savedSignalEsp : t.savedSignalEsp = u.savedSignalEsp
  fpuValid : t.fpuValid = u.fpuValid
  fpuState : t.fpuValid = true → t.fpuState = u.fpuState
  unblockOnExit : t.unblockOnExit = u.unblockOnExit
  userStackPageCount : t.userStackPageCount = u.userStackPageCount
  userStackVaddr : ∀ k < t.userStackPageCount, t.userStackVaddr k = u.userStackVaddr k
  userStackPhys : ∀ k < t.userStackPageCount, t.userStackPhys k = u.userStackPhys k
  userCodeBuf : t.userCodeBuf = u.userCodeBuf
  elfPageCount : t.elfPageCount = u.elfPageCount
  elfVaddr : ∀ k < t.elfPageCount, t.elfVaddr k = u.elfVaddr k
  elfPhys : ∀ k < t.elfPageCount, t.elfPhys k = u.elfPhys k
  historyBuf : t.historyBuf = u.historyBuf
  historyCount : t.historyCount = u.historyCount
  historyHead : t.historyHead = u.historyHead
  historyPos : t.historyPos = u.historyPos

namespace Sched

open Scheduler

/-- The tasks in slot `i` and their saved frames are the same to everything
that reads them. -/
structure Alike (a b : Sched) (i : Nat) : Prop where
  assigned : (a.tasks i).Assigned (b.tasks i)
  kept : (a.tasks i).Kept (b.tasks i)
  frame : a.frames (a.tasks i).esp = b.frames (b.tasks i).esp

/-- The scheduler with other contents in slot `i`. -/
def withSlot (s : Sched) (i : Nat) (t : Task) : Sched := { s with tasks := set s.tasks i t }

/-- The task `addTask` makes of the contents `t` of a slot. -/
def reused (t : Task) (slot entry pageDir priority stack pid ppid : Nat) : Task :=
  { t with
    esp := frameTop stack, entry, state := .ready, id := slot % 256, pid, ppid, exitCode := 0
    children := [],
    stackBuf := stack,
    stackSize := taskStackSize,
    flags := 0, priority,
    wakeupMs := 0
    runtimeMs := 0, onKill := 0, pageDir }

variable {s : Sched} {i : Nat} {t : Task} {entry pageDir priority stack : Nat}

/-- The parent of a task that is put into slot `i`. -/
def parentPid (s : Sched) (i : Nat) : Nat :=
  if s.currentIdx < maxTasks then (if s.currentIdx = i then s.nextPid else s.cur.pid) else 0

/-- A modified slot. -/
theorem modify_self (s : Sched) (i : Nat) (f : Task → Task) :
    (s.modify i f).tasks i = f (s.tasks i) :=
  if_pos rfl

/-- Changing slot `i` does not change the parent of a task put there. -/
theorem parentPid_modify (s : Sched) (i : Nat) (f : Task → Task) :
    (s.modify i f).parentPid i = s.parentPid i := by
  by_cases hcur : s.currentIdx = i
  · simp only [parentPid, modify_currentIdx, modify_nextPid, hcur, if_true]
  · simp only [parentPid, modify_currentIdx, modify_nextPid, cur, modify_tasks, hcur, if_false]

/-- What `initProcessFields` assigns. -/
theorem initProcessFields_self (s : Sched) (i : Nat) : (s.initProcessFields i).tasks i =
    { s.tasks i with pid := s.nextPid, ppid := s.parentPid i, exitCode := 0, children := [] } := by
  have hppid :
    (if s.currentIdx < maxTasks
    then (s.takePid.modify i fun t => { t with pid := s.nextPid }).cur.pid
      else 0) = s.parentPid i := by
    by_cases hcur : s.currentIdx = i
    · simp only [parentPid, cur, modify_tasks, modify_currentIdx, takePid, hcur, if_true]
    · simp only [parentPid, cur, modify_tasks, modify_currentIdx, takePid, hcur, if_false]
  rw [← hppid]
  unfold initProcessFields
  rw [modify_self, modify_self]
  rfl

/-- The first frame of a new task. -/
theorem finishTask_frames (s : Sched) (i entry stack : Nat) : (s.finishTask i entry stack).frames =
    set s.frames (frameTop stack) { eip := s.taskWrapper, cs := 0x08, eflags := 0x202 } := rfl

/-- What the end of `addTask` assigns. -/
theorem finishTask_self (s : Sched) (i entry stack : Nat) : (s.finishTask i entry stack).tasks i =
    { s.tasks i with
      esp := frameTop stack, entry,
      state := .ready,
      id := i % 256,
      pid := s.nextPid,
      ppid := s.parentPid i
      exitCode := 0, children := [], stackBuf := stack, stackSize := taskStackSize } := by
  unfold finishTask
  rw [modify_self, initProcessFields_self, modify_self, parentPid_modify]
  rfl

/-- **addTask, field by field**: the slot keeps what is not assigned. -/
theorem addTask_slot (entry pageDir priority : Nat) (hf : s.findSlot.1 = some i)
    (hstack : stack ≠ 0) :
    (s.addTask true entry pageDir priority stack).1 = some i ∧
      (s.addTask true entry pageDir priority stack).2.tasks i =
        reused (s.tasks i) i entry pageDir priority stack s.nextPid (s.parentPid i) ∧
      (s.addTask true entry pageDir priority stack).2.frames (frameTop stack) =
        { eip := s.taskWrapper, cs := 0x08, eflags := 0x202 } := by
  have hslot : s.findSlot = (some i, s.grow i) := by
    rcases findSlot_cases s with hn | ⟨k, hk⟩
    · rw [hn] at hf
      contradiction
    · rw [hk.unique hf]
      exact hk
  have hadd : s.addTask true entry pageDir priority stack =
      (some i, ((s.grow i).clearSlot i pageDir priority).finishTask i entry stack) := by
    simp only [addTask, hslot, hstack, if_false, not_true_eq_false]
  rw [hadd]
  refine ⟨rfl, ?_, by rw [finishTask_frames, set_self]; rfl⟩
  rw [finishTask_self]
  unfold clearSlot
  rw [modify_self, parentPid_modify]
  rfl

/-- The first DEAD slot, or the next one. -/
theorem findSlot_fst (s : Sched) : s.findSlot.1 =
    match (List.range s.taskCount).find? fun j => (s.tasks j).state = .dead with
    | some j => some j
    | none => if s.taskCount ≥ maxTasks then none else some s.taskCount := by
  unfold findSlot
  cases (List.range s.taskCount).find? fun j => (s.tasks j).state = .dead with
  | some j => rfl
  | none =>
      dsimp only
      split <;> rfl

/-- `findSlot` looks at nothing of a slot but whether it is DEAD. -/
theorem withSlot_findSlot (hdead : (s.tasks i).state = .dead) (ht : t.state = .dead) :
    (s.withSlot i t).findSlot.1 = s.findSlot.1 := by
  have hstate : ∀ j, ((s.withSlot i t).tasks j).state = (s.tasks j).state := by
    intro j
    change (set s.tasks i t j).state = _
    by_cases hj : j = i
    · rw [hj, set_self, ht, hdead]
    · rw [set_of_ne _ _ hj]
  have hfind :
    ((List.range (s.withSlot i t).taskCount).find? fun j =>
    ((s.withSlot i t).tasks j).state = .dead) =
      (List.range s.taskCount).find? fun j => (s.tasks j).state = .dead := by
    simp only [hstate]
    rfl
  rw [findSlot_fst, findSlot_fst, hfind]
  rfl

/-- Nothing else of the scheduler enters the new task but the pids. -/
theorem withSlot_parentPid : (s.withSlot i t).parentPid i = s.parentPid i := by
  by_cases hcur : s.currentIdx = i
  · simp only [parentPid, withSlot, hcur, if_true]
  · simp only [parentPid, withSlot, cur, hcur, if_false, set_of_ne _ _ hcur]

/-- What is assigned does not depend on the old slot. -/
theorem reused_assigned (t u : Task) (slot entry pageDir priority stack stack' pid ppid : Nat) :
    (reused t slot entry pageDir priority stack pid ppid).Assigned
      (reused u slot entry pageDir priority stack' pid ppid) where
  state := rfl
  id := rfl
  entry := rfl
  stackSize := rfl
  flags := rfl
  priority := rfl
  wakeupMs := rfl
  runtimeMs := rfl
  onKill := rfl
  pageDir := rfl
  pid := rfl
  ppid := rfl
  exitCode := rfl
  children := rfl
  esp := ⟨taskStackSize - frameSize, rfl, rfl⟩

/-- What is kept is what the old slot had. -/
theorem reused_kept {t u : Task} {slot entry pageDir priority stack stack' pid ppid : Nat} :
    (reused t slot entry pageDir priority stack pid ppid).Kept
      (reused u slot entry pageDir priority stack' pid ppid) ↔ t.Kept u := by
  constructor
  · rintro ⟨h1, h2, h3, h4, h5, h6, h7, h8, h9, h10, h11, h12, h13, h14, h15, h16, h17, h18, h19⟩
    exact ⟨h1, h2, h3, h4, h5, h6, h7, h8, h9, h10, h11, h12, h13, h14, h15, h16, h17, h18, h19⟩
  · rintro ⟨h1, h2, h3, h4, h5, h6, h7, h8, h9, h10, h11, h12, h13, h14, h15, h16, h17, h18, h19⟩
    exact ⟨h1, h2, h3, h4, h5, h6, h7, h8, h9, h10, h11, h12, h13, h14, h15, h16, h17, h18, h19⟩

/-- **Slot reuse**: of two DEAD slots in otherwise equal schedulers, `addTask`
makes tasks that nothing can tell apart exactly when the slots agree on the
fields that `addTask` does not assign. -/
theorem reuse_iff {stack' : Nat} (hdead : (s.tasks i).state = .dead) (ht : t.state = .dead)
    (hf : s.findSlot.1 = some i) (hstack : stack ≠ 0) (hstack' : stack' ≠ 0) :
    ((s.withSlot i t).addTask true entry pageDir priority stack').1 = some i ∧
      (Alike (s.addTask true entry pageDir priority stack).2
        ((s.withSlot i t).addTask true entry pageDir priority stack').2 i ↔
          (s.tasks i).Kept t) := by
  have hf' : (s.withSlot i t).findSlot.1 = some i := by rw [withSlot_findSlot hdead ht, hf]
  obtain ⟨_, htask, hframe⟩ := addTask_slot entry pageDir priority hf hstack
  obtain ⟨hslot', htask', hframe'⟩  := addTask_slot entry pageDir priority hf' hstack'
  rw [withSlot_parentPid, show (s.withSlot i t).tasks i = t from set_self _ _ _] at htask'
  refine ⟨hslot', fun h => ?_, fun h => ?_⟩
  · have hkept := h.kept
    rw [htask, htask'] at hkept
    exact reused_kept.mp hkept
  · constructor
    · rw [htask, htask']
      exact reused_assigned _ _ _ _ _ _ _ _ _ _
    · rw [htask, htask']
      exact reused_kept.mpr h
    · rw [htask, htask']
      exact hframe.trans hframe'.symm

/-- A task is created, and killed with a signal pending. -/
def reuseRun : List Op :=
  [.addTask true 0x1000 0 Task.priorityNormal 0x8000, .sendSignal 0 15, .killTask 1]

/-- A slot that was used comes back with its old contents. -/
theorem reuse_reuseRun :
    ∃ s : Sched, Reach step Free ({} : Sched).init reuseRun s ∧ (s.tasks 1).state = .dead ∧
      Alike (s.addTask true 0x2000 0 Task.priorityNormal 0x8000).2
        ((s.withSlot 1 { s.tasks 1 with exitCode := 3, runtimeMs := 7 }).addTask true 0x2000 0
          Task.priorityNormal 0xA000).2 1 := by
  obtain ⟨s, hr, hp⟩ := Reach.of_runsTo step Free ({} : Sched).init reuseRun
    (fun s => decide ((s.tasks 1).state = .dead ∧ s.findSlot.1 = some 1)) (by decide)
  obtain ⟨hdead, hf⟩ := of_decide_eq_true hp
  have hdead' : { s.tasks 1 with exitCode := 3, runtimeMs := 7 }.state = .dead := hdead
  refine ⟨s, hr, hdead, (reuse_iff hdead hdead' hf (show 0x8000 ≠ 0 by decide) (by decide)).2.mpr
    ?_⟩
  exact ⟨rfl, fun _ _ => rfl, rfl, rfl, rfl, rfl, fun _ => rfl, rfl, rfl, fun _ _ => rfl,
    fun _ _ => rfl, rfl,
    rfl, fun _ _ => rfl, fun _ _ => rfl, rfl, rfl, rfl, rfl⟩

/-- **A remembered signal**: the signal that was pending when the previous
occupant was killed is pending for the new task. -/
theorem reuse_remembers :
    ∃ s : Sched, Reach step Free ({} : Sched).init reuseRun s ∧ (s.tasks 1).state = .dead ∧
      ¬ Alike (s.addTask true 0x2000 0 Task.priorityNormal 0x8000).2
        ((s.withSlot 1 { s.tasks 1 with pendingSignals := 0 }).addTask true 0x2000 0
          Task.priorityNormal 0x8000).2 1 := by
  obtain ⟨s, hr, hp⟩ := Reach.of_runsTo step Free ({} : Sched).init reuseRun
    (fun s => decide ((s.tasks 1).state = .dead ∧ s.findSlot.1 = some 1 ∧
        (s.tasks 1).pendingSignals ≠ 0))
    (by decide)
  obtain ⟨hdead, hf, hpending⟩ := of_decide_eq_true hp
  have hf' : (s.withSlot 1 { s.tasks 1 with pendingSignals := 0 }).findSlot.1 = some 1 := by
    rw [← hf]
    exact withSlot_findSlot hdead hdead
  obtain ⟨_, htask, _⟩ := addTask_slot 0x2000 0 Task.priorityNormal hf (show 0x8000 ≠ 0 by decide)
  obtain ⟨_, htask', _⟩ := addTask_slot 0x2000 0 Task.priorityNormal hf' (show 0x8000 ≠ 0 by decide)
  refine ⟨s, hr, hdead, fun h => hpending ?_⟩
  have hsame := h.kept.pendingSignals
  rw [htask, htask'] at hsame
  exact hsame

end Sched

end Doors
