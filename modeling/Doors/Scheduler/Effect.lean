import Doors.Scheduler.Create

/-!
# Doors.Scheduler.Effect

Every operation of the scheduler is a sequence of a few elementary effects:
a task blocks, is woken, popped from the sleep queue, dies, is created; the
processor is switched; bookkeeping changes that no scheduling decision reads.

* `step_effects` — a step that succeeds is a sequence of effects;
* `step_inv` — hence a property that every effect keeps is kept by every
  step.

An effect remembers the operation it is part of and the state the operation
started in, so that conditions on operations reach the effects.
-/

namespace Doors

open Cells Run

/-- What `exec` leaves alone in a task. -/
def Task.identity (t : Task) : Task :=
  { t with fpuValid := false, signalHandlers := fun _ => 0, savedSignalEip := 0
           savedSignalEflags := 0, savedSignalEsp := 0, userStackPageCount := 0
           userStackVaddr := fun _ => 0, userStackPhys := fun _ => 0, userCodeBuf := 0
           elfPageCount := 0, elfVaddr := fun _ => 0, elfPhys := fun _ => 0 }

/-- What scheduling, waiting and dying leave alone in a task. -/
def Task.stable (t : Task) : Task :=
  { t with esp := 0, state := .dead, stackBuf := 0, stackSize := 0, wakeupMs := 0, runtimeMs := 0
           pageDir := 0, unblockOnExit := 0, userStackPageCount := 0, userCodeBuf := 0
           elfPageCount := 0, ppid := 0, exitCode := 0, children := [], pendingSignals := 0
           savedSignalEip := 0, savedSignalEflags := 0, savedSignalEsp := 0, historyBuf := 0 }

namespace Sched

open Scheduler

/-! ## effects -/

/-- A task was created in `slot`, or its creation failed half-way. -/
structure Created (s : Sched) (slot : Nat) (s' : Sched) : Prop where
  free : slot < s.taskCount ∧ (s.tasks slot).state = .dead ∨
    slot = s.taskCount ∧ s.taskCount < maxTasks
  count : s'.taskCount = max s.taskCount (slot + 1)
  currentIdx : s'.currentIdx = s.currentIdx
  sleepQueue : s'.sleepQueue = s.sleepQueue
  sleepCount : s'.sleepCount = s.sleepCount
  pit : s'.pit = s.pit
  quantumStartMs : s'.quantumStartMs = s.quantumStartMs
  initialized : s'.initialized = s.initialized
  syscallFrameEsp : s'.syscallFrameEsp = s.syscallFrameEsp
  fpuRegs : s'.fpuRegs = s.fpuRegs
  cr0Ts : s'.cr0Ts = s.cr0Ts
  awake : (s'.tasks slot).wakeupMs = 0
  state : (s'.tasks slot).state = (s.tasks slot).state ∨ (s'.tasks slot).state = .dead ∨
    (s'.tasks slot).state = .ready ∧ (s'.tasks slot).id = slot % 256
  fpuValid : (∀ j, (s.tasks j).fpuValid = false) → (s'.tasks slot).fpuValid = false
  others : ∀ j, j ≠ slot → ∃ children fpuState,
    s'.tasks j = { s.tasks j with children := children, fpuState := fpuState }

/-- The state of the scheduler after the current task died with `code`, left
the sleep queue and gave up its pages. -/
def departed (s : Sched) (code : Int) (q : Nat → SleepEntry) (n : Nat) : Sched :=
  { s.died code with sleepQueue := q, sleepCount := n }.release s.currentIdx

/-- The state after it also gave up the processor to `next`. -/
def exited (s : Sched) (code : Int) (next : Nat) (q : Nat → SleepEntry) (n : Nat) : Sched :=
  (s.departed code q n).leave.install next

/-- The slot of a task that exited. -/
theorem departed_cur (s : Sched) (code : Int) (q : Nat → SleepEntry) (n : Nat) :
    (s.departed code q n).tasks s.currentIdx = { s.cur with
      exitCode := code, state := .dead, historyBuf := 0, pageDir := 0, userStackPageCount := 0
      userCodeBuf := 0, elfPageCount := 0, unblockOnExit := -1 } := by
  simp only [departed, release, modify_tasks, if_true, died_cur]

/-- The other slots at an exit: only parents change. -/
theorem departed_tasks (s : Sched) (code : Int) (q : Nat → SleepEntry) (n : Nat) {j : Nat}
    (hj : j ≠ s.currentIdx) :
    ∃ ppid, (s.departed code q n).tasks j = { s.tasks j with ppid := ppid } := by
  simp only [departed, release, modify_tasks, hj, if_false]
  exact died_tasks s code hj

@[simp] theorem departed_currentIdx (s : Sched) (code : Int) (q : Nat → SleepEntry) (n : Nat) :
    (s.departed code q n).currentIdx = s.currentIdx := rfl

/-- The elementary effects of the operation `op`, started in `s₀`. -/
inductive Effect (s₀ : Sched) (op : Op) : Sched → Sched → Prop where
  | init {s : Sched} (hop : op = .init) : Effect s₀ op s s.init
  | quiet {s s' : Sched} (h : Quiet s s') : Effect s₀ op s s'
  | timer {s : Sched} (m : Nat) (p : Pit)
      (hp : op = .pitTick ∧ m = s.quantumStartMs ∧ p = s.pit.tick ∨
        (m = s.quantumStartMs ∨ m = s₀.pit.ticks) ∧
          p = s.pit.programForMs { s with quantumStartMs := m }.nextTickMs) :
      Effect s₀ op s { s with quantumStartMs := m, pit := p }
  | notify {s : Sched} (tasks : Nat → Task)
      (h : ∀ j, ∃ u, tasks j = { s.tasks j with unblockOnExit := u })
      (hwhy : op.waits = true ∨ ∀ j, s₀.ends op ≠ some j → tasks j = s.tasks j) :
      Effect s₀ op s { s with tasks := tasks }
  | reap {s : Sched} (k : Nat) (hop : op.waits = true) :
      Effect s₀ op s (s.modify s.currentIdx fun t =>
        { t with children := removeChild t.children k })
  | mark {s : Sched} (i : Nat) (code : Int) (hwhy : s₀.ends op = some i)
      (hlive : (s.tasks i).state ≠ .dead) :
      Effect s₀ op s (s.modify i fun t => { t with exitCode := code })
  | block {s : Sched} (hcur : s.currentIdx = s₀.currentIdx)
      (hop : op = .blockCurrentTask ∨ ∃ status, op = .waitpid status) :
      Effect s₀ op s (s.modify s.currentIdx fun t => { t with state := .blocked })
  | sleep {s : Sched} {ms : Nat} {q : Nat → SleepEntry} {n : Nat} {p : Pit} (hop : op = .sleep ms)
      (hs : s = s₀) (hlt : s.currentIdx < maxTasks)
      (hq : Inserted s { deadline := add64 s.pit.uptimeMs ms, taskId := s.currentIdx } q n)
      (hp : p = if add64 s.pit.uptimeMs ms < s.pit.deadline then s.pit.programForMs (ms % 2 ^ 32)
        else s.pit) :
      Effect s₀ op s { s.modify s.currentIdx fun t =>
          { t with wakeupMs := add64 s.pit.uptimeMs ms, state := .blocked } with
        sleepQueue := q, sleepCount := n, pit := p }
  | wake {s : Sched} {j : Nat} {q : Nat → SleepEntry} {n : Nat} {p : Pit} (hwhy : Wakes s₀ op j)
      (hlt : j < s.taskCount) (hb : (s.tasks j).state = .blocked) (hq : Erased s j q n)
      (hp : p = s.pit ∨ p = s.pit.programForMs 1) :
      Effect s₀ op s { s.modify j woken with sleepQueue := q, sleepCount := n, pit := p }
  | pop {s : Sched} {q : Nat → SleepEntry} {n : Nat} (h0 : 0 < s.sleepCount)
      (hq : Beheaded s q n) :
      Effect s₀ op s
        { s.modify (s.sleepQueue 0).taskId popped with sleepQueue := q, sleepCount := n }
  | switch {s : Sched} {next : Nat} (hlt : next < maxTasks)
      (hready : (s.leave.tasks next).state = .ready) : Effect s₀ op s (s.leave.install next)
  | exit {s : Sched} {code : Int} {next : Nat} {q : Nat → SleepEntry} {n : Nat}
      (hcur : s.currentIdx = s₀.currentIdx) (hwhy : s₀.ends op = some s.currentIdx)
      (hq : Erased s s.currentIdx q n)
      (hlt : next < maxTasks) (hne : next ≠ s.currentIdx) (hready : (s.tasks next).state = .ready) :
      Effect s₀ op s (s.exited code next q n)
  | kill {s : Sched} {i : Nat} {q : Nat → SleepEntry} {n : Nat} (hlt : i < s.taskCount)
      (hcur : i ≠ s.currentIdx) (hlive : (s.tasks i).state ≠ .dead)
      (hwhy : s₀.ends op = some i) (hq : Erased s i q n) : Effect s₀ op s
        { s.killed i with sleepQueue := q, sleepCount := n }
  | create {s s' : Sched} {slot : Nat} (hop : op.creates = true) (h : Created s slot s') :
      Effect s₀ op s s'
  | image {s : Sched} {f : Task → Task} (hop : ∃ out, op = .exec out) (hwhy : s.cur.pageDir ≠ 0)
      (hf : ∀ t, (f t).identity = t.identity) (hv : ∀ t, (f t).fpuValid = false) :
      Effect s₀ op s (s.modify s.currentIdx f)
  | fpu {s : Sched} (regs : FpuImage) (hop : ∃ g, op = .fpu g) (hts : s.cr0Ts = false) :
      Effect s₀ op s { s with fpuRegs := regs }

/-- A sequence of effects. -/
abbrev Effects (s₀ : Sched) (op : Op) : Sched → Sched → Prop := Relation.ReflTransGen (Effect s₀ op)

variable {s₀ s s' : Sched} {op : Op}

/-! ## waking, exiting, killing -/

/-- `unblockTask` wakes the named task, or nothing happens. -/
theorem unblockTask_effects {id : Int} (hwhy : ∀ j : Nat, id = j → Wakes s₀ op j)
    (h : s.unblockTask id = .ok s') : Effects s₀ op s s' := by
  rcases unblockTask_ok h with rfl | ⟨j, q, n, p, hj, hlt, hb, hq, hp, rfl⟩
  · exact .refl
  · exact .single (.wake (hwhy j hj) hlt hb hq hp)

/-- The end of a task wakes the task its slot names. -/
theorem wakes_of_ends {i j : Nat} (h : s₀.ends op = some i) (hn : (s₀.tasks i).Names j) :
    Wakes s₀ op j := by
  right
  rw [h]
  exact hn

/-- The task an exiting task is switched to is READY beforehand, and another
one. -/
theorem exit_next {code : Int} {q : Nat → SleepEntry} {n next : Nat}
    (h : ((s.departed code q n).leave.tasks next).state = .ready) :
    next ≠ s.currentIdx ∧ (s.tasks next).state = .ready := by
  rw [leave_tasks, departed_currentIdx] at h
  by_cases hn : next = s.currentIdx
  · rw [if_pos hn, hn, departed_cur] at h
    simp [left] at h
  · obtain ⟨ppid, hp⟩ := departed_tasks s code q n hn
    rw [if_neg hn, hp] at h
    exact ⟨hn, h⟩

/-- `exitCurrentTask`: the task dies, its waiter wakes, the next task runs. -/
theorem exitCurrentTask_effects {code : Int} (hcur : s.currentIdx = s₀.currentIdx)
    (hwhy : s₀.ends op = some s₀.currentIdx) (hun : s.cur.unblockOnExit = s₀.cur.unblockOnExit)
    (h : s.exitCurrentTask code = .ok s') : Effects s₀ op s s' := by
  obtain ⟨_, q, n, next, s₁, s₂, hq, hs₁, _, hlt, hready, hs₂, hend⟩ := exitCurrentTask_ok h
  subst hs₁
  obtain ⟨hne, hnext⟩ := exit_next hready
  have hexit : Effect s₀ op s s₂ := by
    rw [hs₂]
    exact .exit hcur (by rw [hcur]; exact hwhy) hq hlt hne hnext
  rcases hend with ⟨rfl, _⟩ | hend
  · exact .single hexit
  · refine .head hexit (unblockTask_effects (fun j hj => wakes_of_ends hwhy (.inl ?_)) hend)
    have hd := congrArg Task.unblockOnExit (died_cur s code)
    rw [← hj]
    exact (hd.trans hun).symm

/-- Waking a task does not change who runs, nor any other task. -/
theorem unblockTask_frame {id : Int} (h : s.unblockTask id = .ok s') :
    s'.currentIdx = s.currentIdx ∧ s'.taskCount = s.taskCount ∧
      ∀ i, (s'.tasks i).state = .dead ↔ (s.tasks i).state = .dead := by
  rcases unblockTask_ok h with rfl | ⟨j, q, n, p, _, _, hb, _, _, rfl⟩
  · exact ⟨rfl, rfl, fun _ => Iff.rfl⟩
  · refine ⟨rfl, rfl, fun i => ?_⟩
    simp only [modify_tasks]
    split
    · next hij => simp [hij, hb, woken]
    · rfl

/-- A task that is about to be killed forgets whom to wake. -/
theorem unregister_effect {i : Nat} (hwhy : s₀.ends op = some i) :
    Effect s₀ op s (s.modify i fun t => { t with unblockOnExit := -1 }) := by
  refine .notify _ (fun j => ?_) (.inr fun j hj => if_neg ?_)
  · split
    · exact ⟨-1, rfl⟩
    · exact ⟨(s.tasks j).unblockOnExit, rfl⟩
  · rintro rfl
    exact hj hwhy

/-- A kill: the task dies and its waiter wakes. -/
theorem kill_effects {i : Nat} (hlt : i < s.taskCount) (hcur : i ≠ s.currentIdx)
    (hlive : (s.tasks i).state ≠ .dead) (hwhy : s₀.ends op = some i)
    (hun : (s.tasks i).unblockOnExit = (s₀.tasks i).unblockOnExit) (h : s.kill i = .ok s') :
    Effects s₀ op s s' := by
  obtain ⟨q, n, s₁, hwake, hq, rfl⟩ := kill_ok h
  have hfirst := unregister_effect (s := s) hwhy
  obtain ⟨hc, ht, hd⟩ := unblockTask_frame hwake
  have hlast : Effect s₀ op s₁ { s₁.killed i with sleepQueue := q, sleepCount := n } := by
    refine .kill (by rw [ht]; exact hlt) (by rw [hc]; exact hcur) ?_ hwhy hq
    rw [ne_eq, hd]
    simpa using hlive
  refine .head hfirst
    (Relation.ReflTransGen.tail (unblockTask_effects (fun j hj => ?_) hwake) hlast)
  rw [hun] at hj
  exact wakes_of_ends hwhy (.inr hj)

/-- Waking: out of the queue and READY. -/
theorem wake_effects {i : Nat} (hwhy : Wakes s₀ op i) (hlt : i < s.taskCount)
    (hb : (s.tasks i).state = .blocked) (h : s.wake i = .ok s') : Effects s₀ op s s' := by
  obtain ⟨q, n, hq, rfl⟩ := wake_ok h
  exact .single (.wake hwhy hlt hb hq (.inl rfl))

/-! ## the timer interrupt -/

/-- A tick wakes the sleepers that are due. -/
theorem wakeExpired_effects {now k : Nat} (h : wakeExpired now k s = .ok s') :
    Effects s₀ op s s' := by
  refine Relation.ReflTransGen.mono ?_ _ _ (wakeExpired_ok h)
  rintro a b ⟨h0, hp⟩
  obtain ⟨q, n, hq, rfl⟩ := popSleeper_ok hp
  exact .pop h0 hq

/-- The end of a tick, with or without a switch. -/
theorem reschedule_effects {e : Nat} (h : s.reschedule s₀.pit.ticks = .ok (e, s')) :
    Effects s₀ op s s' := by
  rcases reschedule_ok h with ⟨m, hm, rfl⟩ | ⟨next, _, _, hlt, hready, rfl⟩
  · exact .single (.timer m _ (.inr ⟨hm, rfl⟩))
  · exact .single (.switch hlt hready)

/-- A quiet step keeps the waiter of the current task. -/
theorem Quiet.cur_unblockOnExit {s₁ : Sched} (hq : Quiet s s₁) :
    s₁.cur.unblockOnExit = s.cur.unblockOnExit := by
  rw [cur, hq.currentIdx]
  exact hq.field Task.unblockOnExit s.currentIdx fun _ => rfl

/-- `tick`, with all its parts. -/
theorem tick_effects {esp : Nat} {intact : Bool} {r : Option Nat}
    (hcur : s.currentIdx = s₀.currentIdx) (hun : s.cur.unblockOnExit = s₀.cur.unblockOnExit)
    (hpit : s.pit = s₀.pit)
    (hwhy : s.initialized = true → s.doomed = true → s₀.ends op = some s₀.currentIdx)
    (h : s.tick esp intact = .ok (r, s')) : Effects s₀ op s s' := by
  rcases tick_ok h with ⟨_, rfl⟩ | ⟨_, hi, hd, s₁, code, hq, he⟩ | ⟨e, s₁, s₂, _, _, hq, hw, hr⟩
  · exact .refl
  · exact .head (.quiet hq) (exitCurrentTask_effects (hq.currentIdx.trans hcur) (hwhy hi hd)
      (hq.cur_unblockOnExit.trans hun) he)
  · rw [hpit] at hr
    exact .head (.quiet hq) ((wakeExpired_effects hw).trans (reschedule_effects hr))

/-- Delivery at the end of a system call. -/
theorem deliverSignals_effects {esp : Nat} {b : Bool} (hs : s = s₀)
    (hwhy : s.doomed = true → s₀.ends op = some s₀.currentIdx)
    (h : s.deliverPendingSignalsAtEsp esp = .ok (b, s')) : Effects s₀ op s s' := by
  subst hs
  rcases deliverPendingSignalsAtEsp_ok h with ⟨_, hq⟩ | ⟨hd, s₁, code, hq, he⟩
  · exact .single (.quiet hq)
  · exact .head (.quiet hq)
      (exitCurrentTask_effects hq.currentIdx (hwhy hd) hq.cur_unblockOnExit he)

/-! ## signals -/

/-- `sendSignal`: a pending bit, or a kill. -/
theorem sendSignal_effects {pid sig : Int} (h : s.sendSignal pid sig = .ok s') :
    Effects s (.sendSignal pid sig) s s' := by
  rcases sendSignal_ok h with ⟨rfl, _⟩ | ⟨i, hi, hcase⟩
  · exact .refl
  obtain ⟨h0, hlt, _, hlive⟩ := findTarget_some hi
  have hends : sig = Task.sigkill → s.ends (.sendSignal pid sig) = some i := by
    intro hk
    rw [ends, if_pos hk]
    exact hi
  rcases hcase with ⟨hk, hic, he⟩ | ⟨hk, hic, hk'⟩ | ⟨s₁, ⟨hge, hlt', hk⟩, hq, ⟨rfl, _⟩ | ⟨hw, hb⟩⟩
  · exact exitCurrentTask_effects rfl (by rw [← hic]; exact hends hk) rfl he
  · refine .head (.mark i 137 (hends hk) hlive) (kill_effects hlt hic ?_ (hends hk) ?_ hk')
    · simpa using hlive
    · simp
  · exact .single (.quiet hq)
  · exact .head (.quiet hq)
      (wake_effects (.inl ⟨hge, hlt', hk, hi⟩) (by rw [hq.taskCount]; exact hlt)
      (by rw [hq.state]; exact hb) hw)

/-! ## creation -/

/-- What a slot must meet to count as created. -/
theorem built_created {slot n e : Nat} {child parent : Task} {frames : Nat → TrapFrame}
    (h : s.Vacant slot) (hw : child.wakeupMs = 0)
    (hstate : child.state = (s.tasks slot).state ∨ child.state = .dead ∨
      child.state = .ready ∧ child.id = slot % 256)
    (hv : (∀ j, (s.tasks j).fpuValid = false) → child.fpuValid = false)
    (hp : ∃ cs fs, parent = { s.cur with children := cs, fpuState := fs }) :
    Created s slot (s.built slot child parent n e frames) where
  free := h.free
  count := rfl
  currentIdx := rfl
  sleepQueue := rfl
  sleepCount := rfl
  pit := rfl
  quantumStartMs := rfl
  initialized := rfl
  syscallFrameEsp := rfl
  fpuRegs := rfl
  cr0Ts := rfl
  awake := by
    rw [built_slot]
    exact hw
  state := by
    rw [built_slot]
    exact hstate
  fpuValid := by
    rw [built_slot]
    exact hv
  others := by
    intro j hj
    by_cases hc : j = s.currentIdx
    · subst hc
      rw [built_cur hj]
      exact hp
    · exact ⟨(s.tasks j).children, (s.tasks j).fpuState, built_other hj hc⟩

/-- A new task is a creation. -/
theorem Newborn.created {slot n e : Nat} {child parent : Task} {frames : Nat → TrapFrame}
    (h : Newborn s slot child) (hv : s.Vacant slot)
    (hf : (∀ j, (s.tasks j).fpuValid = false) → child.fpuValid = false)
    (hp : ∃ cs fs, parent = { s.cur with children := cs, fpuState := fs }) :
    Created s slot (s.built slot child parent n e frames) :=
  built_created hv h.awake (.inr (.inr ⟨h.state, h.id⟩)) hf hp

/-- So is one that was given up, in a DEAD slot. -/
theorem Discarded.created {slot n e : Nat} {child : Task} {frames : Nat → TrapFrame}
    (h : Discarded child) (hv : s.Vacant slot) :
    Created s slot (s.built slot child s.cur n e frames) :=
  built_created hv h.awake (.inr (.inl h.state)) (fun _ => h.fpuValid) ⟨_, _, rfl⟩

/-- `addTask`, whether it finds a slot or not. -/
theorem addTask_effects (s : Sched) (named : Bool) (entry pageDir priority stack : Nat) :
    Effects s (.addTask named entry pageDir priority stack) s
      (s.addTask named entry pageDir priority stack).2 := by
  rcases addTask_ok s named entry pageDir priority stack with h | ⟨_, slot, hv, ⟨_, h⟩ |
    ⟨_, t, frames, hnew, hf, h⟩⟩
  · rw [h]
  · rw [h]
    exact .single (.create rfl (built_created hv rfl (.inl rfl) (fun hj => hj slot) ⟨_, _, rfl⟩))
  · rw [h]
    exact .single (.create rfl (hnew.created hv (fun hj => hf.trans (hj slot)) ⟨_, _, rfl⟩))

/-- `addUserElfTask`, with every failure. -/
theorem addUserElfTask_effects (s : Sched) (stack : Nat) (stackPhys : Option (Nat → Nat))
    (dir : Nat)
    (elf : Option ElfResult) :
    Effects s (.addUserElfTask stack stackPhys dir elf) s
      (s.addUserElfTask stack stackPhys dir elf).2 := by
  rcases addUserElfTask_ok s stack stackPhys dir elf with h | ⟨slot, hv, ⟨_, t, hd, h⟩ |
    ⟨_, t, e, frames, hnew, hf, h⟩⟩
  · rw [h]
  · rw [h]
    exact .single (.create rfl (hd.created hv))
  · rw [h]
    exact .single (.create rfl (hnew.created hv (fun _ => hf) ⟨_, _, rfl⟩))

/-- `fork`, with every failure. -/
theorem fork_effects (s : Sched) (stack dir : Nat) (hlt : s.currentIdx < s.taskCount)
    (hlive : s.cur.state ≠ .dead) : Effects s (.fork stack dir) s (s.fork stack dir).2 := by
  rcases fork_ok s stack dir hlt hlive with h | ⟨_, _, slot, hv, _, ⟨_, t, frames, hd, h⟩ |
    ⟨_, _, t, frames, hnew, hf, _, h⟩⟩
  · rw [h]
  · rw [h]
    exact .single (.create rfl (hd.created hv))
  · rw [h]
    exact .single
      (.create rfl (hnew.created hv (fun hj => hf.trans (hj s.currentIdx)) (forked_eq s s.cur)))

/-! ## exec -/

/-- Two changes of a slot are one. -/
theorem modify_modify (s : Sched) (i : Nat) (f g : Task → Task) :
    (s.modify i f).modify i g = s.modify i (fun t => g (f t)) := by
  simp only [modify]
  congr 1
  grind

/-- **Exec**: nothing happens, or the image of the current user task is
replaced, after which the task may exit. -/
theorem exec_ok {out : ExecOutcome} {r : Option Int} (h : s.exec out = .ok (r, s')) :
    s' = s ∧ (s.currentIdx ≥ maxTasks ∨ out = .noModule ∨ s.cur.pageDir = 0) ∨
    s.cur.pageDir ≠ 0 ∧ out ≠ .noModule ∧ ∃ f : Task → Task, (∀ t, (f t).identity = t.identity) ∧
      (∀ t, (f t).fpuValid = false) ∧
      ((out = .invalidElf ∨ ∃ phys elf, out = .loaded phys elf) ∧
          (∃ frames, s' = { s.modify s.currentIdx f with frames := frames }) ∨
        (out = .noStack ∨ ∃ phys, out = .loadFailed phys) ∧
          (s.modify s.currentIdx f).exitCurrentTask 1 = .ok s') := by
  unfold exec at h
  split at h
  · next hc =>
      simp only [Except.ok.injEq, Prod.mk.injEq] at h
      exact .inl ⟨h.2.symm, .inl hc⟩
  have hforget : ∀ t : Task, Task.identity { t with
      fpuValid := false, signalHandlers := fun _ => 0, savedSignalEip := 0, savedSignalEflags := 0
      savedSignalEsp := 0 } = t.identity := fun _ => rfl
  cases out with
  | noModule =>
      simp only [Except.ok.injEq, Prod.mk.injEq] at h
      exact .inl ⟨h.2.symm, .inr (.inl rfl)⟩
  | invalidElf =>
      simp only at h
      split at h
      · next hd =>
          simp only [Except.ok.injEq, Prod.mk.injEq] at h
          exact .inl ⟨h.2.symm, .inr (.inr hd)⟩
      · next hd =>
          simp only [Except.ok.injEq, Prod.mk.injEq] at h
          exact .inr ⟨hd, by simp, _, hforget, fun _ => rfl, .inl ⟨.inl rfl, s.frames, h.2.symm⟩⟩
  | noStack =>
      simp only at h
      split at h
      · next hd =>
          simp only [Except.ok.injEq, Prod.mk.injEq] at h
          exact .inl ⟨h.2.symm, .inr (.inr hd)⟩
      · next hd =>
          rw [bind_eq_ok] at h
          obtain ⟨s₁, he, h⟩ := h
          simp only [Except.ok.injEq, Prod.mk.injEq] at h
          rw [← h.2]
          simp only [execForget, execDrop, modify_currentIdx, modify_modify] at he
          refine .inr ⟨hd, by simp, _, ?_, ?_, .inr ⟨.inl rfl, he⟩⟩
          · exact fun _ => rfl
          · exact fun _ => rfl
  | loadFailed phys =>
      simp only at h
      split at h
      · next hd =>
          simp only [Except.ok.injEq, Prod.mk.injEq] at h
          exact .inl ⟨h.2.symm, .inr (.inr hd)⟩
      · next hd =>
          simp only [bind_eq_ok] at h
          obtain ⟨s₁, he, h⟩ := h
          simp only [Except.ok.injEq, Prod.mk.injEq] at h
          rw [← h.2]
          simp only [execForget, execDrop, mapUserStackPages, modify_currentIdx,
            modify_modify] at he
          refine .inr ⟨hd, by simp, _, ?_, ?_, .inr ⟨.inr ⟨phys, rfl⟩, he⟩⟩
          · exact fun _ => rfl
          · exact fun _ => rfl
  | loaded phys elf =>
      simp only at h
      split at h
      · next hd =>
          simp only [Except.ok.injEq, Prod.mk.injEq] at h
          exact .inl ⟨h.2.symm, .inr (.inr hd)⟩
      · next hd =>
          simp only [Except.ok.injEq, Prod.mk.injEq, execForget, execDrop, mapUserStackPages,
            trackElfPages, execFrame, modify_currentIdx, modify_modify] at h
          refine .inr ⟨hd, by simp, _, ?_, ?_, .inl ⟨.inr ⟨phys, elf, rfl⟩, _, h.2.symm⟩⟩
          · exact fun _ => rfl
          · exact fun _ => rfl

/-- `exec`: a new program, a failure, or the end of the task. -/
theorem exec_effects {out : ExecOutcome} {r : Option Int} (h : s.exec out = .ok (r, s')) :
    Effects s (.exec out) s s' := by
  rcases exec_ok h with ⟨rfl, _⟩ | ⟨hd, _, f, hf, hv, ⟨_, frames, rfl⟩ | ⟨hout, he⟩⟩
  · exact .refl
  · exact .head (.image ⟨out, rfl⟩ hd hf hv) (.single (.quiet (.frames _ frames)))
  · refine .head (.image ⟨out, rfl⟩ hd hf hv) (exitCurrentTask_effects rfl ?_ ?_ he)
    · rcases hout with rfl | ⟨phys, rfl⟩ <;> exact if_pos hd
    · have hun := congrArg Task.unblockOnExit (hf s.cur)
      rw [cur, modify_currentIdx, modify_tasks, if_pos rfl]
      exact hun

/-! ## waitpid and the FPU -/

/-- Reaping shortens a list of children. -/
theorem reapDeadChild_effects {p : Nat} (hop : op.waits = true) (hp : p = s.currentIdx) :
    Effects s₀ op s (s.reapDeadChild p).2 := by
  unfold reapDeadChild
  split
  · exact .refl
  · rw [hp]
    exact .single (.reap _ hop)

/-- Registering enters the caller as a waiter. -/
theorem registerChild_effect (hop : op.waits = true) (pid w : Nat) :
    Effect s₀ op s (s.registerChild pid w) := by
  refine .notify _ (fun j => ?_) (.inl hop)
  split
  · exact ⟨_, rfl⟩
  · exact ⟨(s.tasks j).unblockOnExit, rfl⟩

/-- The loop of `waitpid` over the children. -/
theorem registerChildren_effects (hop : op.waits = true) (pids : List Nat) :
    Effects s₀ op s (pids.foldl (fun s pid => s.registerChild pid s.currentIdx) s) := by
  induction pids generalizing s with
  | nil => exact .refl
  | cons pid pids ih => exact .head (registerChild_effect hop pid s.currentIdx) ih

/-- Registering does not switch. -/
theorem registerChildren_currentIdx (pids : List Nat) (s : Sched) :
    (pids.foldl (fun s pid => s.registerChild pid s.currentIdx) s).currentIdx = s.currentIdx := by
  induction pids generalizing s with
  | nil => rfl
  | cons pid pids ih => exact ih _

/-- Reaping does not switch. -/
theorem reapDeadChild_currentIdx (s : Sched) (p : Nat) :
    (s.reapDeadChild p).2.currentIdx = s.currentIdx := by
  unfold reapDeadChild
  split <;> rfl

/-- `waitpid` up to where it blocks. -/
theorem waitpid_effects {status : Nat} {r : WaitResult} (hs : s = s₀) (hop : op = .waitpid status)
    (h : s.waitpid status = .ok (r, s')) : Effects s₀ op s s' := by
  unfold waitpid at h
  split at h
  · simp only [Except.ok.injEq, Prod.mk.injEq] at h
    rw [h.2]
  have hwaits : op.waits = true := by
    rw [hop]
    rfl
  have hreap : Effects s₀ op s (s.reapDeadChild s.currentIdx).2 := reapDeadChild_effects hwaits rfl
  have hcur := reapDeadChild_currentIdx s s.currentIdx
  split at h
  · next pid code s₁ hr =>
      simp only [Except.ok.injEq, Prod.mk.injEq] at h
      rw [hr] at hreap
      rw [← h.2]
      exact hreap
  · next s₁ hr =>
      rw [hr] at hreap hcur
      split at h
      · simp only [Except.ok.injEq, Prod.mk.injEq] at h
        rw [← h.2]
        exact hreap
      · simp only [bind_eq_ok] at h
        obtain ⟨s₂, hb, h⟩ := h
        simp only [Except.ok.injEq, Prod.mk.injEq] at h
        obtain ⟨_, hs₂⟩ := blockOr_ok hb
        rw [← h.2, hs₂]
        refine hreap.trans
          ((registerChildren_effects hwaits _).tail (.block ?_ (.inr ⟨status, hop⟩)))
        rw [registerChildren_currentIdx, ← hs]
        exact hcur

/-- The rest of `waitpid`, once the caller runs again. -/
theorem waitpidResume_effects (hop : op.waits = true) : Effects s₀ op s s.waitpidResume.2 := by
  have hreap : Effects s₀ op s (s.reapDeadChild s.currentIdx).2 := reapDeadChild_effects hop rfl
  unfold waitpidResume
  split
  · next hr =>
      rw [hr] at hreap
      exact hreap
  · next hr =>
      rw [hr] at hreap
      exact hreap

/-! ## the trap -/

/-- **The trap never returns**: with `CR0.TS` set, the first FPU instruction of
the handler traps again, however large the stack is. -/
theorem handleNm_error (level : Nat) (hts : s.cr0Ts = true) :
    handleNm level s = .error .nested ∨
      maxTasks ≤ s.currentIdx ∧ handleNm level s = .error (.panic .handleNmCurrentIdx) := by
  induction level with
  | zero => exact .inl rfl
  | succ level ih =>
      rw [handleNm]
      split
      · next hge => exact .inr ⟨hge, rfl⟩
      · next hlt =>
          have htrap : handleNm level s = .error .nested := ih.resolve_right fun h => hlt h.1
          have hdevice : ∀ f, s.device (handleNm level) f = .error .nested := fun f => by
            simp only [device, hts, if_true, htrap]
            rfl
          -- the handler saves the owner's registers, or goes on to restore its own
          have hsave : s.saveOwner (handleNm level) = .error .nested ∨
              s.saveOwner (handleNm level) = .ok s := by
            unfold saveOwner
            split
            · split
              · exact .inl (hdevice _)
              · exact .inr rfl
            · exact .inr rfl
          left
          rcases hsave with hsave | hsave
          · rw [hsave]
            rfl
          · rw [hsave]
            show (s.device (handleNm level) _ >>= _) = .error .nested
            rw [hdevice]
            rfl

/-- An FPU instruction is executed only while `CR0.TS` is clear. -/
theorem fpuTrap_ok (h : s.fpuTrap = .ok s') : s.cr0Ts = false ∧ s' = s := by
  unfold fpuTrap at h
  split at h
  · next hts =>
      rcases handleNm_error nmLevels hts with he | ⟨-, he⟩ <;> rw [he] at h <;> contradiction
  · next hts => exact ⟨by simpa using hts, (Except.ok.inj h).symm⟩

/-! ## steps -/

/-- `setUnblockOnExit` enters a waiter. -/
theorem setUnblockOnExit_effects (hop : op.waits = true) (id u : Int) :
    Effects s₀ op s (s.setUnblockOnExit id u) := by
  unfold setUnblockOnExit
  split
  · refine .single (.notify _ (fun j => ?_) (.inl hop))
    split
    · exact ⟨_, rfl⟩
    · exact ⟨(s.tasks j).unblockOnExit, rfl⟩
  · exact .refl

/-- Whom `killTask` ends. -/
theorem ends_killTask {j : Nat} (hj : j < s.taskCount) (hne : j ≠ s.currentIdx)
    (hd : (s.tasks j).state ≠ .dead) : s.ends (.killTask j) = some j := by
  rw [ends, if_pos]
  · rfl
  · exact ⟨by omega, by omega, by omega, hd⟩

/-- **Effects of a step**: an operation that succeeds is a sequence of
elementary effects.  That the current task is a live task of the table is
only used for `fork`. -/
theorem step_effects (hlt : s.currentIdx < s.taskCount) (hlive : s.cur.state ≠ .dead)
    (h : s.step op = .ok s') : Effects s op s s' := by
  cases op with
  | init =>
      simp only [step, Except.ok.injEq] at h
      rw [← h]
      exact .single (.init rfl)
  | addTask named entry pageDir priority stack =>
      simp only [step, Except.ok.injEq] at h
      rw [← h]
      exact addTask_effects s named entry pageDir priority stack
  | addUserElfTask stack stackPhys dir elf =>
      simp only [step, Except.ok.injEq] at h
      rw [← h]
      exact addUserElfTask_effects s stack stackPhys dir elf
  | fork stack dir =>
      simp only [step, Except.ok.injEq] at h
      rw [← h]
      exact fork_effects s stack dir hlt hlive
  | exec out =>
      simp only [step, bind_eq_ok] at h
      obtain ⟨⟨r, s₁⟩, he, h⟩ := h
      simp only [Except.ok.injEq] at h
      rw [← h]
      exact exec_effects he
  | pitTick =>
      simp only [step, Except.ok.injEq] at h
      rw [← h]
      exact .single (.timer _ _ (.inl ⟨rfl, rfl, rfl⟩))
  | tick esp frame intact =>
      simp only [step, bind_eq_ok] at h
      obtain ⟨⟨r, s₁⟩, ht, h⟩ := h
      simp only [Except.ok.injEq] at h
      rw [← h]
      have hpush := Quiet.frames s (set s.frames esp frame)
      refine .head (.quiet hpush) (tick_effects rfl rfl rfl (fun hi hd => ?_) ht)
      exact if_pos ⟨hi, hd⟩
  | sleep ms =>
      obtain ⟨hcur, q, n, p, hq, hp, rfl⟩ := sleep_ok h
      exact .single (.sleep rfl rfl hcur hq hp)
  | blockCurrentTask =>
      obtain ⟨_, rfl⟩ := blockOr_ok h
      exact .single (.block rfl (.inl rfl))
  | unblockTask id => exact unblockTask_effects (fun j hj => .inl hj) h
  | sendSignal pid sig => exact sendSignal_effects h
  | killTask id =>
      rcases killTask_ok h with rfl | ⟨j, rfl, hj, hne, hd, hk⟩
      · exact .refl
      · exact kill_effects hj hne hd (ends_killTask hj hne hd) rfl hk
  | exitCurrentTask code => exact exitCurrentTask_effects rfl rfl rfl h
  | setUnblockOnExit id u =>
      simp only [step, Except.ok.injEq] at h
      rw [← h]
      exact setUnblockOnExit_effects rfl id u
  | waitpid status =>
      simp only [step, bind_eq_ok] at h
      obtain ⟨⟨r, s₁⟩, hw, h⟩ := h
      simp only [Except.ok.injEq] at h
      rw [← h]
      exact waitpid_effects rfl rfl hw
  | waitpidResume =>
      simp only [step, Except.ok.injEq] at h
      rw [← h]
      exact waitpidResume_effects rfl
  | deliverSignals esp =>
      simp only [step, bind_eq_ok] at h
      obtain ⟨⟨b, s₁⟩, hd, h⟩ := h
      simp only [Except.ok.injEq] at h
      rw [← h]
      exact deliverSignals_effects rfl (fun hdoom => if_pos hdoom) hd
  | fpu f =>
      simp only [step, bind_eq_ok] at h
      obtain ⟨s₁, ht, h⟩ := h
      simp only [Except.ok.injEq] at h
      rw [← h]
      obtain ⟨hts, rfl⟩ := fpuTrap_ok ht
      exact .single (.fpu _ ⟨f, rfl⟩ hts)

/-- What the effects of a plain operation leave alone. -/
structure Frame (s s' : Sched) : Prop where
  stable : ∀ i, (s'.tasks i).stable = (s.tasks i).stable
  fpuRegs : s'.fpuRegs = s.fpuRegs
  fpuOwner : s'.fpuOwner = s.fpuOwner
  nextPid : s'.nextPid = s.nextPid
  taskCount : s'.taskCount = s.taskCount
  trap : s'.cr0Ts = true ∨ s'.cr0Ts = s.cr0Ts ∧ s'.currentIdx = s.currentIdx

/-- A field that is stable is kept. -/
theorem Frame.field (h : Frame s s') {α : Type} (f : Task → α) (hf : ∀ t, f t.stable = f t)
    (i : Nat) :
    f (s'.tasks i) = f (s.tasks i) := by
  rw [← hf (s'.tasks i), h.stable i, hf]

/-- A change of other fields keeps the stable ones. -/
theorem modify_stable (s : Sched) (i : Nat) {f : Task → Task} (hf : ∀ t, (f t).stable = t.stable)
    (j : Nat) : ((s.modify i f).tasks j).stable = (s.tasks j).stable := by
  rw [modify_tasks]
  split
  · exact hf _
  · rfl

/-- A switch keeps the stable fields. -/
theorem switch_stable (s : Sched) (next j : Nat) :
    ((s.leave.install next).tasks j).stable = (s.tasks j).stable := by
  have hleft : ∀ t, (left t).stable = t.stable := by
    intro t
    unfold left
    split <;> rfl
  have hleave : (s.leave.tasks j).stable = (s.tasks j).stable := by
    rw [leave_tasks]
    split
    · exact hleft _
    · rfl
  rw [install_tasks]
  split
  · exact hleave
  · exact hleave

/-- **Frame**: the effects of a plain operation leave pids, programs and the
FPU alone. -/
theorem Effect.frame (he : Effect s₀ op s s') (hp : op.plain = true) : Frame s s' := by
  cases he with
  | init hop =>
      subst hop
      contradiction
  | quiet hq =>
      have hstable : ∀ i, (s'.tasks i).stable = (s.tasks i).stable :=
        fun i => hq.field Task.stable i fun _ => rfl
      obtain ⟨tasks, _, _, _, rfl⟩ := hq.rest
      exact ⟨hstable, rfl, rfl, rfl, rfl, .inr ⟨rfl, rfl⟩⟩
  | timer => exact ⟨fun _ => rfl, rfl, rfl, rfl, rfl, .inr ⟨rfl, rfl⟩⟩
  | notify tasks hu _ =>
      refine ⟨fun i => ?_, rfl, rfl, rfl, rfl, .inr ⟨rfl, rfl⟩⟩
      obtain ⟨u, hu⟩ := hu i
      exact (congrArg Task.stable hu).trans rfl
  | reap | mark | block =>
      exact ⟨modify_stable s _ fun _ => rfl, rfl, rfl, rfl, rfl, .inr ⟨rfl, rfl⟩⟩
  | sleep | wake | pop =>
      refine ⟨fun i => ?_, rfl, rfl, rfl, rfl, .inr ⟨rfl, rfl⟩⟩
      simp only [modify_tasks]
      split <;> rfl
  | switch => exact ⟨switch_stable s _, rfl, rfl, rfl, rfl, .inl rfl⟩
  | @exit code next q n =>
      refine ⟨fun i => (switch_stable (s.departed code q n) next i).trans ?_, rfl, rfl, rfl, rfl,
        .inl rfl⟩
      by_cases hi : i = s.currentIdx
      · rw [hi, departed_cur]
        rfl
      · obtain ⟨ppid, hp⟩ := departed_tasks s code q n hi
        rw [hp]
        rfl
  | @kill j q n =>
      refine ⟨fun i => ?_, rfl, rfl, rfl, rfl, .inr ⟨rfl, rfl⟩⟩
      by_cases hi : i = j
      · have hs := congrArg Task.stable (killed_self s j)
        rw [hi]
        exact hs
      · obtain ⟨ppid, hk⟩ := killed_tasks s j hi
        have hs := congrArg Task.stable hk
        exact hs
  | create hop => cases op <;> contradiction
  | image hop =>
      obtain ⟨out, rfl⟩ := hop
      contradiction
  | fpu _ hop =>
      obtain ⟨g, rfl⟩ := hop
      contradiction

/-- What every effect keeps, a sequence of effects keeps. -/
theorem effects_inv {P : Sched → Prop} (keep : ∀ a b, Effect s₀ op a b → P a → P b)
    (h : Effects s₀ op s s') (hs : P s) : P s' := by
  induction h with
  | refl => exact hs
  | tail _ he ih => exact keep _ _ he ih

/-- **Invariant rule for steps**: what every effect keeps, every step
keeps. -/
theorem step_inv {P : Sched → Prop} (hlt : s.currentIdx < s.taskCount) (hlive : s.cur.state ≠ .dead)
    (keep : ∀ a b, Effect s op a b → P a → P b) (hs : P s) (h : s.step op = .ok s') : P s' :=
  effects_inv keep (step_effects hlt hlive h) hs

end Sched

end Doors
