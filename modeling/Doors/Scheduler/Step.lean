import Mathlib.Logic.Relation
import Doors.Scheduler.Queue

/-!
# Doors.Scheduler.Step

The scheduler as a transition system: `Op` is everything that can happen to
it, `step` runs the code of one operation.

The second half says once what the fallible pieces of that code do when they
succeed.  Only three things can fail (an access to the sleep queue, a switch
to a task that is not READY, a corrupted index), so each inversion lemma
(`removeFromSleepQueue_ok`, `unblockTask_ok`, `exitCurrentTask_ok`, …) gives
the resulting state as an explicit update of the old one, up to the contents
of the sleep queue and the timer.  The invariants of the later modules are
derived from these lemmas and never unfold the code again.
-/

namespace Doors

open Cells Run

/-- What can happen to the scheduler. -/
inductive Op where
  | init
  | addTask (named : Bool) (entry pageDir priority stack : Nat)
  | addUserElfTask (stack : Nat) (stackPhys : Option (Nat → Nat)) (dir : Nat)
      (elf : Option ElfResult)
  | fork (stack dir : Nat)
  | exec (out : Sched.ExecOutcome)
  /-- `Pit::tick`. -/
  | pitTick
  /-- `Scheduler::tick`, after the interrupt pushed `frame` at `esp`. -/
  | tick (esp : Nat) (frame : TrapFrame) (intact : Bool)
  | sleep (ms : Nat)
  | blockCurrentTask
  | unblockTask (id : Int)
  | sendSignal (pid sig : Int)
  | killTask (id : Int)
  | exitCurrentTask (code : Int)
  | setUnblockOnExit (taskId unblockId : Int)
  | waitpid (status : Nat)
  | waitpidResume
  /-- The way back from a syscall whose frame is at `esp`. -/
  | deliverSignals (esp : Nat)
  /-- An FPU instruction of the current task, trapped while `CR0.TS` is set. -/
  | fpu (f : FpuImage → FpuImage)

/-- Operations that create a task. -/
def Op.creates : Op → Bool
  | .addTask _ _ _ _ _ | .addUserElfTask _ _ _ _ | .fork _ _ => true
  | _ => false

/-- Operations that neither start a task or a program nor execute an FPU
instruction. -/
def Op.plain : Op → Bool
  | .init | .exec _ | .fpu _ => false
  | op => !op.creates

/-- Operations that read or register children. -/
def Op.waits : Op → Bool
  | .waitpid _ | .waitpidResume | .setUnblockOnExit _ _ => true
  | _ => false

/-- Operations after which the current task waits. -/
def Op.blocks : Op → Bool
  | .sleep _ | .blockCurrentTask | .waitpid _ => true
  | _ => false

/-- Operations that neither create tasks nor read or register children. -/
def Op.bystands : Op → Bool
  | .init => false
  | op => !op.creates && !op.waits

/-- The death of `t` wakes the task in slot `i`: `unblockOnExit` read as the
exit path and as the kill path read it. -/
def Task.Names (t : Task) (i : Nat) : Prop := t.unblockOnExit = i ∨ uchar t.unblockOnExit = i

instance (t : Task) (i : Nat) : Decidable (t.Names i) := inferInstanceAs (Decidable (_ ∨ _))

namespace Sched

open Scheduler

/-- The trap that precedes an FPU instruction while `CR0.TS` is set. -/
def fpuTrap (s : Sched) : Except Fault Sched := if s.cr0Ts then handleNm nmLevels s else .ok s

/-- One operation. -/
def step (s : Sched) : Op → Except Fault Sched
  | .init => .ok s.init
  | .addTask named entry pageDir priority stack =>
      .ok (s.addTask named entry pageDir priority stack).2
  | .addUserElfTask stack stackPhys dir elf => .ok (s.addUserElfTask stack stackPhys dir elf).2
  | .fork stack dir => .ok (s.fork stack dir).2
  | .exec out => do
      let (_, s) ← s.exec out
      .ok s
  | .pitTick => .ok { s with pit := s.pit.tick }
  | .tick esp frame intact => do
      let (_, s) ← { s with frames := set s.frames esp frame }.tick esp intact
      .ok s
  | .sleep ms => s.sleep ms
  | .blockCurrentTask => s.blockCurrentTask
  | .unblockTask id => s.unblockTask id
  | .sendSignal pid sig => s.sendSignal pid sig
  | .killTask id => s.killTask id
  | .exitCurrentTask code => s.exitCurrentTask code
  | .setUnblockOnExit taskId unblockId => .ok (s.setUnblockOnExit taskId unblockId)
  | .waitpid status => do
      let (_, s) ← s.waitpid status
      .ok s
  | .waitpidResume => .ok s.waitpidResume.2
  | .deliverSignals esp => do
      let (_, s) ← s.deliverPendingSignalsAtEsp esp
      .ok s
  | .fpu f => do
      let s ← s.fpuTrap
      .ok { s with fpuRegs := f s.fpuRegs }

/-! ## who is ended and who is woken -/

/-- Signal delivery would terminate the current task: a user task whose lowest
pending signal has no handler. -/
def doomed (s : Sched) : Bool :=
  s.cur.userStackPageCount ≠ 0 &&
    match lowestPending s.cur with
    | some sig => s.cur.signalHandlers sig = 0
    | none => false

/-- The slot of the task that an operation ends. -/
def ends (s : Sched) : Op → Option Nat
  | .exitCurrentTask _ => some s.currentIdx
  | .killTask id =>
      if 0 ≤ id ∧ id < s.taskCount ∧ id ≠ s.currentIdx ∧ (s.tasks id.toNat).state ≠ .dead then
        some id.toNat
      else none
  | .sendSignal pid sig => if sig = Task.sigkill then s.findTarget pid else none
  | .tick _ _ _ => if s.initialized ∧ s.doomed then some s.currentIdx else none
  | .deliverSignals _ => if s.doomed then some s.currentIdx else none
  | .exec .noStack | .exec (.loadFailed _) =>
      if s.cur.pageDir ≠ 0 then some s.currentIdx else none
  | _ => none

/-- The operation wakes slot `i`, if that task is BLOCKED, by other means than
the timer. -/
def Wakes (s : Sched) (op : Op) (i : Nat) : Prop :=
  (match op with
    | .unblockTask id => id = i
    | .sendSignal pid sig =>
        0 ≤ sig ∧ sig < Task.signalMax ∧ sig ≠ Task.sigkill ∧ s.findTarget pid = some i
    | _ => False) ∨
  match s.ends op with
    | some j => (s.tasks j).Names i
    | none => False

instance (s : Sched) (op : Op) (i : Nat) : Decidable (s.Wakes op i) := by
  unfold Wakes
  cases op <;> cases s.ends _ <;> infer_instance

variable {s s' : Sched} {i : Nat}

/-! ## waking and blocking -/

/-- The slot of a task that was made READY. -/
def woken (t : Task) : Task := { t with state := .ready, wakeupMs := 0 }

/-- Waking takes the task out of the queue. -/
theorem wake_ok (h : s.wake i = .ok s') :
    ∃ q n, Erased s i q n ∧ s' = { s.modify i woken with sleepQueue := q, sleepCount := n } :=
  removeFromSleepQueue_ok h

/-- `unblockTask` wakes a BLOCKED task of the table or changes nothing. -/
theorem unblockTask_ok {id : Int} (h : s.unblockTask id = .ok s') :
    s' = s ∨ ∃ (j : Nat) (q : Nat → SleepEntry) (n : Nat) (p : Pit), id = j ∧ j < s.taskCount ∧
      (s.tasks j).state = .blocked ∧ Erased s j q n ∧ (p = s.pit ∨ p = s.pit.programForMs 1) ∧
      s' = { s.modify j woken with sleepQueue := q, sleepCount := n, pit := p } := by
  unfold unblockTask at h
  split at h
  · next hc =>
      obtain ⟨h0, hlt, hb⟩ := hc
      rw [bind_eq_ok] at h
      obtain ⟨s₁, hw, h⟩ := h
      obtain ⟨q, n, hq, rfl⟩ := wake_ok hw
      simp only [Except.ok.injEq] at h
      refine .inr ⟨id.toNat, q, n, s'.pit, by omega, by omega, hb, hq, ?_, ?_⟩
      · rw [← h]
        split
        · exact .inr rfl
        · exact .inl rfl
      · rw [← h]
        split <;> rfl
  · simp only [Except.ok.injEq] at h
    exact .inl h.symm

/-- `sleep` blocks the current task and adds an entry for it. -/
theorem sleep_ok {ms : Nat} (h : s.sleep ms = .ok s') :
    s.currentIdx < maxTasks ∧ ∃ q n p,
      Inserted s { deadline := add64 s.pit.uptimeMs ms, taskId := s.currentIdx } q n ∧
      p = (if add64 s.pit.uptimeMs ms < s.pit.deadline then s.pit.programForMs (ms % 2 ^ 32)
        else s.pit) ∧
      s' = { s.modify s.currentIdx fun t =>
          { t with wakeupMs := add64 s.pit.uptimeMs ms, state := .blocked } with
        sleepQueue := q, sleepCount := n, pit := p } := by
  unfold sleep at h
  split at h
  · contradiction
  · next hlt =>
      rw [bind_eq_ok] at h
      obtain ⟨s₁, hi, h⟩ := h
      obtain ⟨q, n, hq, rfl⟩ := insertSleeper_ok hi
      simp only [Except.ok.injEq] at h
      refine ⟨by omega, q, n, _, hq, rfl, ?_⟩
      rw [← h]
      by_cases hsoon : add64 s.pit.uptimeMs ms < s.pit.deadline
      · rw [if_pos hsoon]
        exact if_pos hsoon
      · rw [if_neg hsoon]
        exact if_neg hsoon

/-- Blocking needs a current slot in the array. -/
theorem blockOr_ok {p : Panic} (h : blockOr p s = .ok s') :
    s.currentIdx < maxTasks ∧ s' = s.modify s.currentIdx fun t => { t with state := .blocked } := by
  unfold blockOr at h
  split at h
  · contradiction
  · next hlt =>
      simp only [Except.ok.injEq] at h
      exact ⟨by omega, h.symm⟩

/-! ## selection and the context switch -/

/-- The selection loop returns what it was given or a READY slot of the
table. -/
theorem findNextLoop_ready (hc : 0 < s.taskCount) (is : List Nat) (bp : Nat) (bi : Option Nat) :
    s.findNextLoop is bp bi = bi ∨
      ∃ k < s.taskCount, (s.tasks k).state = .ready ∧ s.findNextLoop is bp bi = some k := by
  induction is generalizing bp bi with
  | nil => exact .inl rfl
  | cons i is ih =>
      simp only [findNextLoop]
      have hk : (s.currentIdx + 1 + i) % s.taskCount < s.taskCount := Nat.mod_lt _ hc
      by_cases hb : (s.tasks ((s.currentIdx + 1 + i) % s.taskCount)).state = .ready ∧
          (s.tasks ((s.currentIdx + 1 + i) % s.taskCount)).priority < bp
      · simp only [hb, and_self, if_true]
        have hhere : ∃ k < s.taskCount, (s.tasks k).state = .ready ∧
            some ((s.currentIdx + 1 + i) % s.taskCount) = some k := ⟨_, hk, hb.1, rfl⟩
        split
        · exact .inr hhere
        · rcases ih (s.tasks ((s.currentIdx + 1 + i) % s.taskCount)).priority
            (some ((s.currentIdx + 1 + i) % s.taskCount)) with h | h
          · rw [h]
            exact .inr hhere
          · exact .inr h
      · simp only [hb, if_false]
        split
        · exact .inl rfl
        · exact ih bp bi

/-- **Selection**: `findNext` gives up on a table of one slot; otherwise it
picks a READY slot of the table, or slot 0. -/
theorem findNext_ok {r : Option Nat} (h : s.findNext = .ok r) :
    (r = none ∧ s.taskCount ≤ 1) ∨
      (1 < s.taskCount ∧ s.taskCount ≤ maxTasks ∧
        ∃ k < s.taskCount, r = some k ∧ (k = 0 ∨ (s.tasks k).state = .ready)) := by
  unfold findNext at h
  split at h
  · contradiction
  split at h
  · contradiction
  split at h
  · next hle =>
      simp only [Except.ok.injEq] at h
      exact .inl ⟨h.symm, hle⟩
  · next hcount hgt =>
      simp only [Except.ok.injEq] at h
      refine .inr ⟨by omega, by omega, ?_⟩
      rcases findNextLoop_ready (s := s) (by omega) (List.range (s.taskCount - 1))
        (Task.priorityIdle + 1) none with hl | ⟨k, hk, hready, hl⟩
      · rw [hl] at h
        exact ⟨0, by omega, h.symm, .inl rfl⟩
      · rw [hl] at h
        exact ⟨k, hk, h.symm, .inr hready⟩

/-- `findNext` answers while the slots are in bounds. -/
theorem findNext_isOk (hcur : s.currentIdx < maxTasks) (hcount : s.taskCount ≤ maxTasks) :
    ∃ r, s.findNext = .ok r := by
  unfold findNext
  rw [if_neg (by omega), if_neg (by omega)]
  split <;> exact ⟨_, rfl⟩

/-- A switch needs a READY slot. -/
theorem switchTo_ok {next : Nat} {r : Nat × Sched} (h : s.switchTo next = .ok r) :
    next < maxTasks ∧ (s.leave.tasks next).state = .ready ∧ r.2 = s.leave.install next := by
  simp only [switchTo] at h
  split at h
  · contradiction
  · next hc =>
      simp only [Except.ok.injEq] at h
      rw [← h]
      exact ⟨by omega, by grind, rfl⟩

@[simp] theorem leave_currentIdx (s : Sched) : s.leave.currentIdx = s.currentIdx := rfl
@[simp] theorem install_currentIdx (s : Sched) (next : Nat) :
    (s.install next).currentIdx = next := rfl

/-- The task `switchTo` leaves. -/
def left (t : Task) : Task := if t.state = .running then { t with state := .ready } else t

@[simp] theorem leave_tasks (s : Sched) (j : Nat) :
    s.leave.tasks j = if j = s.currentIdx then left (s.tasks j) else s.tasks j := rfl

@[simp] theorem install_tasks (s : Sched) (next j : Nat) :
    (s.install next).tasks j = if j = next then { s.tasks j with state := .running }
      else s.tasks j :=
  rfl

/-! ## termination -/

/-- The table change of a task's own death. -/
def died (s : Sched) (code : Int) : Sched :=
  let t := { s.modify s.currentIdx fun t => { t with exitCode := code, state := .dead } with
    totalExited := s.totalExited + 1 }
  (t.reparentChildren t.cur.pid).modify s.currentIdx fun t => { t with historyBuf := 0 }

/-- Reparenting changes parents only. -/
theorem reparentChildren_tasks (s : Sched) (p j : Nat) :
    ∃ ppid, (s.reparentChildren p).tasks j = { s.tasks j with ppid := ppid } := by
  unfold reparentChildren
  dsimp only
  split
  · exact ⟨0, rfl⟩
  · exact ⟨(s.tasks j).ppid, rfl⟩

/-- Of a death the others notice at most that their parent is now slot 0. -/
theorem died_tasks (s : Sched) (code : Int) {j : Nat} (hj : j ≠ s.currentIdx) :
    ∃ ppid, (s.died code).tasks j = { s.tasks j with ppid := ppid } := by
  obtain ⟨ppid, h⟩ := reparentChildren_tasks
    { s.modify s.currentIdx fun t => { t with exitCode := code, state := .dead } with
      totalExited := s.totalExited + 1 } s.cur.pid j
  refine ⟨ppid, ?_⟩
  simp only [modify_tasks, hj, if_false] at h
  rw [died, modify_tasks, if_neg hj, ← h]
  simp only [cur, modify_tasks, modify_currentIdx, if_true]

/-- The slot of a task that died. -/
theorem died_cur (s : Sched) (code : Int) :
    (s.died code).tasks s.currentIdx =
      { s.cur with exitCode := code, state := .dead, historyBuf := 0 } := by
  simp [died, reparentChildren, cur]

/-- Dying takes the task out of the queue. -/
theorem die_ok {code : Int} (h : s.die code = .ok s') :
    ∃ q n, Erased s s.currentIdx q n ∧
      s' = { s.died code with sleepQueue := q, sleepCount := n } := by
  simp only [die, bind_eq_ok] at h
  obtain ⟨s₁, hq, h⟩ := h
  obtain ⟨q, n, he, rfl⟩ := removeFromSleepQueue_ok hq
  simp only [Except.ok.injEq] at h
  exact ⟨q, n, he, h.symm⟩

/-- **Exit**: the current task dies, a task that `findNext` picked and that
is READY is installed, and the exiting task's waiter may be woken. -/
theorem exitCurrentTask_ok {code : Int} (h : s.exitCurrentTask code = .ok s') :
    s.currentIdx < maxTasks ∧ ∃ q n next, ∃ s₁ s₂ : Sched, Erased s s.currentIdx q n ∧
      s₁ = { s.died code with sleepQueue := q, sleepCount := n } ∧
      s₁.findNext = .ok (some next) ∧ next < maxTasks ∧
      ((s₁.release s.currentIdx).leave.tasks next).state = .ready ∧
      s₂ = (s₁.release s.currentIdx).leave.install next ∧
      (s' = s₂ ∧ s₁.cur.unblockOnExit = -1 ∨ s₂.unblockTask s₁.cur.unblockOnExit = .ok s') := by
  unfold exitCurrentTask at h
  split at h
  · contradiction
  · next hlt =>
      rw [bind_eq_ok] at h
      obtain ⟨s₁, hd, h⟩ := h
      obtain ⟨q, n, hq, rfl⟩ := die_ok hd
      rw [bind_eq_ok] at h
      obtain ⟨r, hn, h⟩ := h
      cases r with
      | none => contradiction
      | some next =>
          simp only [bind_eq_ok] at h
          obtain ⟨r, hs, h⟩ := h
          obtain ⟨hnext, hready, hinst⟩ := switchTo_ok hs
          refine ⟨by omega, q, n, next, _, r.2, hq, rfl, hn, hnext, hready, hinst, ?_⟩
          split at h
          · exact .inr h
          · next hu =>
              simp only [Except.ok.injEq] at h
              exact .inl ⟨h.symm, by simpa using hu⟩

/-- The table change of a kill, after the waiter was woken. -/
def killed (s : Sched) (i : Nat) : Sched :=
  let t := { s.modify i fun t => { t with state := .dead } with totalExited := s.totalExited + 1 }
  (t.reparentChildren (t.tasks i).pid).scrap i

/-- Of a kill the others notice at most that their parent is now slot 0. -/
theorem killed_tasks (s : Sched) (i : Nat) {j : Nat} (hj : j ≠ i) :
    ∃ ppid, (s.killed i).tasks j = { s.tasks j with ppid := ppid } := by
  obtain ⟨ppid, h⟩ := reparentChildren_tasks
    { s.modify i fun t => { t with state := .dead } with totalExited := s.totalExited + 1 }
    (s.tasks i).pid j
  refine ⟨ppid, ?_⟩
  simp only [modify_tasks, hj, if_false] at h
  rw [killed, scrap, modify_tasks, if_neg hj, ← h]
  simp only [modify_tasks, if_true]

/-- The slot of a task that was killed. -/
theorem killed_self (s : Sched) (i : Nat) :
    (s.killed i).tasks i = { s.tasks i with
      state := .dead, stackBuf := 0, pageDir := 0, userCodeBuf := 0, userStackPageCount := 0
      elfPageCount := 0, historyBuf := 0, stackSize := 0 } := by
  simp [killed, scrap, reparentChildren]

/-- **Kill**: the waiter of the task may be woken, then the task is DEAD. -/
theorem kill_ok (h : s.kill i = .ok s') :
    ∃ q n s₁, (s.modify i fun t => { t with unblockOnExit := -1 }).unblockTask
        (uchar (s.tasks i).unblockOnExit) = .ok s₁ ∧ Erased s₁ i q n ∧
      s' = { s₁.killed i with sleepQueue := q, sleepCount := n } := by
  have hu : uchar (s.tasks i).unblockOnExit ≠ -1 := by
    unfold uchar
    omega
  simp only [kill, hu, ne_eq, not_false_eq_true, if_true, bind_eq_ok] at h
  obtain ⟨s₁, hun, s₂, hq, h⟩ := h
  obtain ⟨q, n, he, rfl⟩ := removeFromSleepQueue_ok hq
  simp only [Except.ok.injEq] at h
  exact ⟨q, n, s₁, hun, he, h.symm⟩

/-- `killTask` does nothing, or kills another live task. -/
theorem killTask_ok {id : Int} (h : s.killTask id = .ok s') :
    s' = s ∨ ∃ j : Nat, id = j ∧ j < s.taskCount ∧ j ≠ s.currentIdx ∧
      (s.tasks j).state ≠ .dead ∧ s.kill j = .ok s' := by
  unfold killTask at h
  split at h
  · simp only [Except.ok.injEq] at h
    exact .inl h.symm
  split at h
  · simp only [Except.ok.injEq] at h
    exact .inl h.symm
  split at h
  · simp only [Except.ok.injEq] at h
    exact .inl h.symm
  · next hr hc hd => exact .inr ⟨id.toNat, by omega, by omega, by omega, hd, h⟩

/-! ## creation -/

/-- The table with room for `slot`. -/
def grow (s : Sched) (slot : Nat) : Sched := { s with taskCount := max s.taskCount (slot + 1) }

@[simp] theorem grow_tasks (s : Sched) (slot : Nat) : (s.grow slot).tasks = s.tasks := rfl
@[simp] theorem grow_currentIdx (s : Sched) (slot : Nat) :
    (s.grow slot).currentIdx = s.currentIdx := rfl

/-- **Slots**: `findSlot` hands out the first DEAD slot of the table, or the
slot right behind a table without DEAD slots that is not full. -/
theorem findSlot_ok {slot : Nat} (h : s.findSlot = (some slot, s')) :
    s' = s.grow slot ∧ (∀ j < slot, (s.tasks j).state ≠ .dead) ∧
      (slot < s.taskCount ∧ (s.tasks slot).state = .dead ∨
        slot = s.taskCount ∧ s.taskCount < maxTasks) := by
  unfold findSlot at h
  split at h
  · next k hk =>
      simp only [Prod.mk.injEq, Option.some.injEq] at h
      obtain ⟨rfl, rfl⟩ := h
      rw [List.find?_range_eq_some] at hk
      simp only [List.mem_range, decide_eq_true_eq, Bool.not_eq_eq_eq_not, Bool.not_true,
        decide_eq_false_iff_not] at hk
      obtain ⟨hd, hlt, hfirst⟩ := hk
      refine ⟨?_, hfirst, .inl ⟨hlt, hd⟩⟩
      rw [grow, Nat.max_eq_left (by omega)]
  · next hk =>
      rw [List.find?_range_eq_none] at hk
      simp only [Bool.not_eq_eq_eq_not, Bool.not_true, decide_eq_false_iff_not] at hk
      split at h
      · simp at h
      · next hroom =>
          simp only [Prod.mk.injEq, Option.some.injEq] at h
          obtain ⟨rfl, rfl⟩ := h
          refine ⟨?_, hk, .inr ⟨rfl, by omega⟩⟩
          rw [grow, Nat.max_eq_right (by omega)]

/-- Without a slot nothing changes. -/
theorem findSlot_none (h : s.findSlot = (none, s')) : s' = s := by
  unfold findSlot at h
  split at h
  · simp at h
  · split at h
    · simp only [Prod.mk.injEq, true_and] at h
      exact h.symm
    · simp at h

/-! ## signal delivery and the timer interrupt -/

end Sched

/-- What signal delivery and time accounting leave alone in a task. -/
def Task.core (t : Task) : Task :=
  { t with esp := 0, runtimeMs := 0, pendingSignals := 0, savedSignalEip := 0
           savedSignalEflags := 0, savedSignalEsp := 0 }

namespace Sched

open Scheduler

variable {s s' s₁ s₂ : Sched} {i : Nat}

/-- The states differ in signal bookkeeping, saved frames and time accounting
only. -/
structure Quiet (s s' : Sched) : Prop where
  core : ∀ i, (s'.tasks i).core = (s.tasks i).core
  rest : ∃ tasks frames idle last,
    s' = { s with tasks := tasks, frames := frames, idleTicks := idle, lastTickMs := last }

namespace Quiet

theorem refl (s : Sched) : Quiet s s :=
  ⟨fun _ => rfl, s.tasks, s.frames, s.idleTicks, s.lastTickMs, rfl⟩

theorem trans (h₁ : Quiet s s₁) (h₂ : Quiet s₁ s₂) : Quiet s s₂ := by
  obtain ⟨hc₁, _, _, _, _, rfl⟩ := h₁
  obtain ⟨hc₂, t, f, i, l, rfl⟩ := h₂
  exact ⟨fun i => (hc₂ i).trans (hc₁ i), t, f, i, l, rfl⟩

/-- A slot update that keeps the core is quiet. -/
theorem modify (s : Sched) (i : Nat) {f : Task → Task} (hf : ∀ t, (f t).core = t.core) :
    Quiet s (s.modify i f) := by
  refine ⟨fun j => ?_, _, s.frames, s.idleTicks, s.lastTickMs, rfl⟩
  rw [modify_tasks]
  split
  · exact hf _
  · rfl

/-- Frames are not looked at. -/
theorem frames (s : Sched) (f : Nat → TrapFrame) : Quiet s { s with frames := f } :=
  ⟨fun _ => rfl, s.tasks, f, s.idleTicks, s.lastTickMs, rfl⟩

/-- Counters are not looked at. -/
theorem counters (s : Sched) (idle last : Nat) :
    Quiet s { s with idleTicks := idle, lastTickMs := last } :=
  ⟨fun _ => rfl, s.tasks, s.frames, idle, last, rfl⟩

variable (h : Quiet s s')
include h

theorem currentIdx : s'.currentIdx = s.currentIdx := by
  obtain ⟨_, _, _, _, _, rfl⟩ := h.rest
  rfl

theorem taskCount : s'.taskCount = s.taskCount := by
  obtain ⟨_, _, _, _, _, rfl⟩ := h.rest
  rfl

theorem nextPid : s'.nextPid = s.nextPid := by
  obtain ⟨_, _, _, _, _, rfl⟩ := h.rest
  rfl

theorem pit : s'.pit = s.pit := by
  obtain ⟨_, _, _, _, _, rfl⟩ := h.rest
  rfl

theorem queue : s'.queue = s.queue := by
  obtain ⟨_, _, _, _, _, rfl⟩ := h.rest
  rfl

theorem sleepCount : s'.sleepCount = s.sleepCount := by
  obtain ⟨_, _, _, _, _, rfl⟩ := h.rest
  rfl

/-- Every field of the core is kept. -/
theorem field {α : Type} (f : Task → α) (i : Nat) (hf : ∀ t, f t.core = f t) :
    f (s'.tasks i) = f (s.tasks i) := by
  rw [← hf (s'.tasks i), h.core i, hf]

theorem state (i : Nat) : (s'.tasks i).state = (s.tasks i).state :=
  h.field Task.state i fun _ => rfl

theorem userStackPageCount (i : Nat) :
    (s'.tasks i).userStackPageCount = (s.tasks i).userStackPageCount :=
  h.field Task.userStackPageCount i fun _ => rfl

end Quiet

/-- A redirection is quiet. -/
theorem redirect_quiet (s : Sched) (sig : Nat) : Quiet s (s.redirect sig) := by
  refine ⟨fun j => ?_, _, _, s.idleTicks, s.lastTickMs, rfl⟩
  by_cases hj : j = s.currentIdx
  · simp only [redirect, clearPending, modify_tasks, modify_currentIdx, hj, if_true]
    rfl
  · simp only [redirect, clearPending, modify_tasks, modify_currentIdx, hj, if_false]

/-- Clearing a pending bit is quiet. -/
theorem clearPending_quiet (s : Sched) (i sig : Nat) : Quiet s (s.clearPending i sig) :=
  .modify s i fun _ => rfl

/-- Charging the time is quiet. -/
theorem charge_quiet (s : Sched) (now : Nat) : Quiet s (s.charge now) := by
  unfold charge
  exact .trans (.counters s _ now) (.modify _ _ fun t => by simp only [Task.core])

/-- Saving the stack pointer does not change the fate of the current task. -/
theorem doomed_esp (s : Sched) (esp : Nat) :
    (s.modify s.currentIdx fun t => { t with esp := esp }).doomed = s.doomed := by
  have hcur : (s.modify s.currentIdx fun t => { t with esp := esp }).cur =
      { s.cur with esp := esp } := by
    simp [cur]
  rw [doomed, hcur]
  rfl

/-- **Delivery**: signal delivery is quiet, or it terminates the current
task. -/
theorem deliverPendingSignals_ok {b : Bool} (h : s.deliverPendingSignals = .ok (b, s')) :
    (b = false ∧ (s.currentIdx < maxTasks → s.doomed = false) ∧ Quiet s s') ∨
      (b = true ∧ s.doomed = true ∧
        ∃ s₁ code, Quiet s s₁ ∧ s₁.exitCurrentTask code = .ok s') := by
  unfold deliverPendingSignals at h
  split at h
  · next hc =>
      simp only [Except.ok.injEq, Prod.mk.injEq] at h
      obtain ⟨rfl, rfl⟩ := h
      exact .inl ⟨rfl, fun hlt => by omega, .refl s⟩
  split at h
  · next hring =>
      simp only [Except.ok.injEq, Prod.mk.injEq] at h
      obtain ⟨rfl, rfl⟩ := h
      exact .inl ⟨rfl, fun _ => by simp [doomed, hring], .modify s _ fun _ => rfl⟩
  · next huser =>
      split at h
      · next hnone =>
          simp only [Except.ok.injEq, Prod.mk.injEq] at h
          obtain ⟨rfl, rfl⟩ := h
          exact .inl ⟨rfl, fun _ => by simp [doomed, hnone], .refl s⟩
      · next sig hsig =>
          split at h
          · next hhandler =>
            have hdoom : s.doomed = false := by simpa [doomed, hsig, huser] using hhandler
            split at h
            · simp only [Except.ok.injEq, Prod.mk.injEq] at h
              obtain ⟨rfl, rfl⟩ := h
              exact .inl ⟨rfl, fun _ => hdoom, .refl s⟩
            · simp only [Except.ok.injEq, Prod.mk.injEq] at h
              obtain ⟨rfl, rfl⟩ := h
              exact .inl ⟨rfl, fun _ => hdoom, redirect_quiet s sig⟩
          · next hno =>
            have hdoom : s.doomed = true := by simpa [doomed, hsig, huser] using hno
            rw [bind_eq_ok] at h
            obtain ⟨s₂, he, h⟩ := h
            simp only [Except.ok.injEq, Prod.mk.injEq] at h
            obtain ⟨rfl, rfl⟩ := h
            exact .inr ⟨rfl, hdoom, _, _, clearPending_quiet s _ sig, he⟩

/-- One round of the wakeup loop. -/
def Pop (s s' : Sched) : Prop := 0 < s.sleepCount ∧ s.popSleeper = .ok s'

/-- **Wakeup loop**: it only pops entries. -/
theorem wakeExpired_ok {now k : Nat} (h : wakeExpired now k s = .ok s') :
    Relation.ReflTransGen Pop s s' := by
  induction k generalizing s with
  | zero =>
      simp only [wakeExpired, Except.ok.injEq] at h
      rw [h]
  | succ k ih =>
      unfold wakeExpired at h
      split at h
      · next h0 =>
        rw [bind_eq_ok] at h
        obtain ⟨e, _, h⟩ := h
        split at h
        · rw [bind_eq_ok] at h
          obtain ⟨s₁, hp, h⟩ := h
          exact .head ⟨h0, hp⟩ (ih h)
        · simp only [Except.ok.injEq] at h
          rw [h]
      · simp only [Except.ok.injEq] at h
        rw [h]

/-- **End of a tick**: only the quantum and the timer change, or the task
`findNext` picked is installed. -/
theorem reschedule_ok {now e : Nat} (h : s.reschedule now = .ok (e, s')) :
    (∃ m, (m = s.quantumStartMs ∨ m = now) ∧ s' = { s with quantumStartMs := m }.programNextTick) ∨
      ∃ next, s.findNext = .ok (some next) ∧ next ≠ s.currentIdx ∧ next < maxTasks ∧
        (s.leave.tasks next).state = .ready ∧ s' = s.leave.install next := by
  unfold reschedule at h
  split at h
  · rw [bind_eq_ok] at h
    obtain ⟨r, hn, h⟩ := h
    cases r with
    | none =>
        simp only [Except.ok.injEq, Prod.mk.injEq] at h
        exact .inl ⟨now, .inr rfl, h.2.symm⟩
    | some next =>
        dsimp only at h
        split at h
        · simp only [Except.ok.injEq, Prod.mk.injEq] at h
          exact .inl ⟨now, .inr rfl, h.2.symm⟩
        · next hne =>
            obtain ⟨hlt, hready, hs'⟩ := switchTo_ok h
            exact .inr ⟨next, hn, hne, hlt, hready, hs'⟩
  · simp only [Except.ok.injEq, Prod.mk.injEq] at h
    exact .inl ⟨s.quantumStartMs, .inl rfl, h.2.symm⟩

/-- **Tick**: nothing before initialisation; else it terminates the doomed
current task, or it runs to its end: quiet bookkeeping, the wakeup loop, the
rescheduling. -/
theorem tick_ok {esp : Nat} {intact : Bool} {r : Option Nat} (h : s.tick esp intact = .ok (r, s')) :
    (s.initialized = false ∧ s' = s) ∨
      (r = none ∧ s.initialized = true ∧ s.doomed = true ∧
        ∃ s₁ code, Quiet s s₁ ∧ s₁.exitCurrentTask code = .ok s') ∨
      ∃ e s₁ s₂, r = some e ∧ (s.currentIdx < maxTasks → s.doomed = false) ∧ Quiet s s₁ ∧
        wakeExpired s.pit.ticks s₁.sleepCount s₁ = .ok s₂ ∧
        s₂.reschedule s.pit.ticks = .ok (e, s') := by
  unfold tick at h
  split at h
  · next hi =>
      simp only [Except.ok.injEq, Prod.mk.injEq] at h
      exact .inl ⟨by simpa using hi, h.2.symm⟩
  · next hinit =>
    split at h
    · contradiction
    have hesp : Quiet s (s.modify s.currentIdx fun t => { t with esp := esp }) :=
      .modify s _ fun _ => rfl
    simp only [bind_eq_ok] at h
    obtain ⟨_, _, ⟨b, s₀⟩, hd, h⟩ := h
    rcases deliverPendingSignals_ok hd with ⟨rfl, hno, hq⟩ | ⟨rfl, hu, s₁, code, hq, he⟩
    · rw [doomed_esp] at hno
      simp only [Bool.false_eq_true, if_false, bind_eq_ok] at h
      obtain ⟨s₂, hw, ⟨e, s₃⟩, hr, h⟩ := h
      simp only [Except.ok.injEq, Prod.mk.injEq] at h
      obtain ⟨rfl, rfl⟩ := h
      have hquiet := (hesp.trans hq).trans (charge_quiet s₀ s₀.pit.uptimeMs)
      have hpit : s₀.pit.uptimeMs = s.pit.ticks := congrArg Pit.ticks (hesp.trans hq).pit
      rw [hpit] at hw hr hquiet
      exact .inr (.inr ⟨e, _, s₂, rfl, hno, hquiet, hw, hr⟩)
    · simp only [if_true, Except.ok.injEq, Prod.mk.injEq] at h
      obtain ⟨rfl, rfl⟩ := h
      rw [doomed_esp] at hu
      exact .inr (.inl ⟨rfl, by simpa using hinit, hu, s₁, code, hesp.trans hq, he⟩)

/-- A delivery is quiet, or ends the task. -/
theorem deliverPendingSignalsAtEsp_ok {esp : Nat} {b : Bool}
    (h : s.deliverPendingSignalsAtEsp esp = .ok (b, s')) :
    (s.currentIdx < maxTasks → s.doomed = false) ∧ Quiet s s' ∨ (s.doomed = true ∧
      ∃ s₁ code, Quiet s s₁ ∧ s₁.exitCurrentTask code = .ok s') := by
  unfold deliverPendingSignalsAtEsp at h
  split at h
  · simp only [Except.ok.injEq, Prod.mk.injEq] at h
    rw [← h.2]
    exact .inl ⟨fun hlt => by omega, .refl s⟩
  · have hesp : Quiet s (s.modify s.currentIdx fun t => { t with esp := esp }) :=
      .modify s _ fun _ => rfl
    rcases deliverPendingSignals_ok h with ⟨_, hno, hq⟩ | ⟨_, hu, s₁, code, hq, he⟩
    · rw [doomed_esp] at hno
      exact .inl ⟨hno, hesp.trans hq⟩
    · rw [doomed_esp] at hu
      exact .inr ⟨hu, s₁, code, hesp.trans hq, he⟩

/-! ## signals -/

/-- A signal goes to a live task of the table, never to slot 0. -/
theorem findTarget_some {pid : Int} (h : s.findTarget pid = some i) :
    0 < i ∧ i < s.taskCount ∧ ((s.tasks i).pid : Int) = pid ∧ (s.tasks i).state ≠ .dead := by
  rw [findTarget, List.find?_range_eq_some] at h
  simp only [ne_eq, decide_eq_true_eq, List.mem_range] at h
  obtain ⟨⟨hpid, hlive, h0⟩, hlt, _⟩ := h
  exact ⟨by omega, hlt, hpid, hlive⟩

/-- **Signals**: nothing happens, the current task exits, another task is
killed, or a pending bit is set and a BLOCKED target is woken. -/
theorem sendSignal_ok {pid sig : Int} (h : s.sendSignal pid sig = .ok s') :
    s' = s ∧ (sig = Task.sigkill → s.findTarget pid = none) ∨ ∃ i, s.findTarget pid = some i ∧
      ((sig = Task.sigkill ∧ i = s.currentIdx ∧ s.exitCurrentTask 137 = .ok s') ∨
       (sig = Task.sigkill ∧ i ≠ s.currentIdx ∧
          (s.modify i fun t => { t with exitCode := 137 }).kill i = .ok s') ∨
       ∃ s₁, (0 ≤ sig ∧ sig < Task.signalMax ∧ sig ≠ Task.sigkill) ∧ Quiet s s₁ ∧
        ((s' = s₁ ∧ (s.tasks i).state ≠ .blocked) ∨
          (s₁.wake i = .ok s' ∧ (s.tasks i).state = .blocked))) := by
  unfold sendSignal at h
  split at h
  · next hout =>
      simp only [Except.ok.injEq] at h
      refine .inl ⟨h.symm, fun hk => ?_⟩
      rw [hk] at hout
      exact absurd hout (by decide)
  have hrange : 0 ≤ sig ∧ sig < Task.signalMax := by omega
  split at h
  · next hnone =>
      simp only [Except.ok.injEq] at h
      exact .inl ⟨h.symm, fun _ => hnone⟩
  · next i hi =>
      obtain ⟨_, hlt, _, hlive⟩ := findTarget_some hi
      refine .inr ⟨i, hi, ?_⟩
      split at h
      · next hk =>
          split at h
          · next hc => exact .inl ⟨hk, hc, h⟩
          · next hc =>
              refine .inr (.inl ⟨hk, hc, ?_⟩)
              unfold killTask at h
              rw [if_neg, if_neg, if_neg] at h
              · exact h
              · simpa using hlive
              · change ¬ (i : Int) = s.currentIdx
                omega
              · change ¬ ((i : Int) < 0 ∨ (i : Int) ≥ s.taskCount)
                omega
      · next hk =>
        refine .inr (.inr ?_)
        have hq : Quiet s (s.modify i fun t =>
          { t with pendingSignals := t.pendingSignals ||| (1#32 <<< sig.toNat) }) :=
            .modify s i fun _ => rfl
        have hst := hq.state i
        dsimp only at h
        split at h
        · next hb => exact ⟨_, ⟨hrange.1, hrange.2, hk⟩, hq, .inr ⟨h, hst ▸ hb⟩⟩
        · next hb =>
            simp only [Except.ok.injEq] at h
            exact ⟨_, ⟨hrange.1, hrange.2, hk⟩, hq, .inl ⟨h.symm, hst ▸ hb⟩⟩

end Sched

end Doors
