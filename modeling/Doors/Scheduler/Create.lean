import Doors.Scheduler.Step

/-!
# Doors.Scheduler.Create

What `addTask`, `addUserElfTask` and `fork` do to the scheduler.

All three take a slot from `findSlot`, fill it and may touch the current
task; `built` is the state they leave.

* `addTask_ok`, `addUserElfTask_ok`, `fork_ok` — the outcomes of the three
  functions, successful or not, as values of `built`.
-/

namespace Doors

open Cells

namespace Sched

open Scheduler

/-- `findSlot` hands out `slot`. -/
def Vacant (s : Sched) (slot : Nat) : Prop := s.findSlot = (some slot, s.grow slot)

/-- The scheduler with `child` in `slot` and `parent` in the current slot. -/
def built (s : Sched) (slot : Nat) (child parent : Task) (nextPid tssEsp0 : Nat)
    (frames : Nat → TrapFrame) : Sched :=
  { s.grow slot with
    tasks := set (set s.tasks s.currentIdx parent) slot child, nextPid, tssEsp0, frames }

/-- A task that was just put into `slot`. -/
structure Newborn (s : Sched) (slot : Nat) (t : Task) : Prop where
  state : t.state = .ready
  id : t.id = slot % 256
  pid : t.pid = s.nextPid
  exitCode : t.exitCode = 0
  children : t.children = []
  awake : t.wakeupMs = 0

variable {s s' : Sched} {slot : Nat} {child parent : Task} {n e : Nat} {frames : Nat → TrapFrame}

/-! ## slots -/

/-- `findSlot` fails or finds a vacant slot. -/
theorem findSlot_cases (s : Sched) : s.findSlot = (none, s) ∨ ∃ slot, s.Vacant slot := by
  cases hf : s.findSlot with
  | mk slot s₁ =>
      cases slot with
      | none => exact .inl (by rw [findSlot_none hf])
      | some slot => exact .inr ⟨slot, by rw [Vacant, hf, (findSlot_ok hf).1]⟩

/-- A vacant slot is DEAD or behind the table. -/
theorem Vacant.free (h : s.Vacant slot) : slot < s.taskCount ∧ (s.tasks slot).state = .dead ∨
    slot = s.taskCount ∧ s.taskCount < maxTasks := (findSlot_ok h).2.2

/-- What `findSlot` answers. -/
theorem Vacant.fst (h : s.Vacant slot) : s.findSlot.1 = some slot := by rw [h]

/-- There is one vacant slot that `findSlot` answers. -/
theorem Vacant.unique {k : Nat} (h : s.Vacant slot) (hk : s.findSlot.1 = some k) : k = slot := by
  rw [h.fst, Option.some.injEq] at hk
  exact hk.symm

/-- `findSlot` never hands out the slot of a live task of the table. -/
theorem Vacant.ne {j : Nat} (h : s.Vacant slot) (hlt : j < s.taskCount)
    (hj : (s.tasks j).state ≠ .dead) : j ≠ slot := by
  rintro rfl
  rcases h.free with ⟨_, hd⟩ | ⟨hd, _⟩
  · exact hj hd
  · omega

/-! ## building -/

/-- The table after a creation. -/
theorem built_tasks : (s.built slot child parent n e frames).tasks =
    set (set s.tasks s.currentIdx parent) slot child := rfl

@[simp] theorem built_slot : (s.built slot child parent n e frames).tasks slot = child :=
  set_self ..

/-- The creator after a creation. -/
theorem built_cur (h : s.currentIdx ≠ slot) :
    (s.built slot child parent n e frames).tasks s.currentIdx = parent := by
  rw [built_tasks, set_of_ne _ _ h, set_self]

/-- The other tasks after a creation. -/
theorem built_other {j : Nat} (hj : j ≠ slot) (hc : j ≠ s.currentIdx) :
    (s.built slot child parent n e frames).tasks j = s.tasks j := by
  rw [built_tasks, set_of_ne _ _ hj, set_of_ne _ _ hc]

/-- A creation that leaves the current task alone leaves all other tasks
alone. -/
theorem built_of_ne {j : Nat} (hj : j ≠ slot) :
    (s.built slot child s.cur n e frames).tasks j = s.tasks j := by
  by_cases hc : j = s.currentIdx
  · subst hc
    exact built_cur hj
  · exact built_other hj hc

/-- Writing the slot that was found. -/
theorem grow_modify (s : Sched) (slot : Nat) (f : Task → Task) :
    (s.grow slot).modify slot f =
      s.built slot (f (s.tasks slot)) s.cur s.nextPid s.tssEsp0 s.frames := by
  have htasks : ((s.grow slot).modify slot f).tasks =
      set (set s.tasks s.currentIdx s.cur) slot (f (s.tasks slot)) := by
    funext j
    simp only [modify_tasks, grow_tasks, Cells.set, cur]
    grind
  simp only [built, ← htasks]
  rfl

/-- Writing the new slot once more. -/
theorem built_modify (f : Task → Task) : (s.built slot child parent n e frames).modify slot f =
    s.built slot (f child) parent n e frames := by
  have htasks : ((s.built slot child parent n e frames).modify slot f).tasks =
      set (set s.tasks s.currentIdx parent) slot (f child) := by
    funext j
    simp only [modify_tasks, built, Cells.set]
    grind
  simp only [built, ← htasks]
  rfl

/-- Writing the creator once more. -/
theorem built_modify_cur (h : s.currentIdx ≠ slot) (f : Task → Task) :
    (s.built slot child parent n e frames).modify s.currentIdx f =
      s.built slot child (f parent) n e frames := by
  have htasks : ((s.built slot child parent n e frames).modify s.currentIdx f).tasks =
      set (set s.tasks s.currentIdx (f parent)) slot child := by
    funext j
    simp only [modify_tasks, built, Cells.set]
    grind
  simp only [built, ← htasks]
  rfl

/-- The slot after `initProcessFields`, for some parent pid. -/
theorem built_initProcessFields (s : Sched) (slot : Nat) (child parent : Task) (n e : Nat)
    (frames : Nat → TrapFrame) : ∃ ppid,
    (s.built slot child parent n e frames).initProcessFields slot =
      s.built slot { child with pid := n, ppid := ppid, exitCode := 0, children := [] } parent
        ((n + 1) % 256) e frames := by
  have hpid : (s.built slot child parent n e frames).takePid =
      s.built slot child parent ((n + 1) % 256) e frames := rfl
  unfold initProcessFields
  rw [hpid]
  dsimp only
  rw [built_modify, built_modify]
  exact ⟨_, rfl⟩

/-- What `addTask` and `addUserElfTask` do once the frame is on the new kernel
stack. -/
theorem built_finish (s : Sched) (slot : Nat) (child parent : Task) (e : Nat)
    (frames : Nat → TrapFrame) (esp entry stack : Nat) (hw : child.wakeupMs = 0) : ∃ t,
    ((((s.built slot child parent s.nextPid e frames).modify slot fun t =>
        { t with esp := esp, entry := entry, state := .ready, id := slot % 256 }).initProcessFields
      slot).modify slot fun t => { t with stackBuf := stack, stackSize := taskStackSize }) =
        s.built slot t parent ((s.nextPid + 1) % 256) e frames ∧
      Newborn s slot t ∧ t.fpuValid = child.fpuValid := by
  rw [built_modify]
  obtain ⟨ppid, hp⟩ := built_initProcessFields s slot
    { child with esp := esp, entry := entry, state := .ready, id := slot % 256 } parent s.nextPid e
    frames
  rw [hp, built_modify]
  exact ⟨_, rfl, ⟨rfl, rfl, rfl, rfl, rfl, hw⟩, rfl⟩

/-- A user task is finished. -/
theorem built_finishElfTask (s : Sched) (slot : Nat) (child parent : Task) (e : Nat)
    (frames : Nat → TrapFrame) (stack : Nat) (elf : ElfResult) (hw : child.wakeupMs = 0) :
    ∃ t e' frames', Newborn s slot t ∧ t.fpuValid = child.fpuValid ∧
      (s.built slot child parent s.nextPid e frames).finishElfTask slot stack elf =
        s.built slot t parent ((s.nextPid + 1) % 256) e' frames' := by
  obtain ⟨frames', hframes⟩ : ∃ frames', frames' = set frames (userFrameTop stack)
      { eip := elf.entry, cs := 0x1B, eflags := 0x202, userEsp := userStackVaddr + pageSize,
        userSs := 0x23 } :=
    ⟨_, rfl⟩
  obtain ⟨t, ht, hnew, hv⟩ :=
    built_finish s slot child parent e frames' (userFrameTop stack) 0 stack hw
  have htrack : ((s.built slot child parent s.nextPid e frames).finishElfTask slot stack elf) =
      { trackElfPages (s.built slot t parent ((s.nextPid + 1) % 256) e frames') slot elf with
        tssEsp0 := stack + taskStackSize } := by
    rw [← ht, hframes]
    rfl
  rw [htrack, trackElfPages, built_modify]
  refine ⟨{ t with elfPageCount := elf.numPages, elfVaddr := _, elfPhys := _ },
    stack + taskStackSize,
    frames', ?_, ?_, rfl⟩
  · exact ⟨hnew.state, hnew.id, hnew.pid, hnew.exitCode, hnew.children, hnew.awake⟩
  · exact hv

/-- A task whose registers are saved if it owns the FPU. -/
def flushed (s : Sched) (p : Task) : Task :=
  if p.fpuValid ∧ s.fpuOwner = some p.id then { p with fpuState := s.fpuRegs } else p

/-- The parent after `fork`: its list of children grows while there is room. -/
def forked (s : Sched) (p : Task) : Task :=
  if (s.flushed p).children.length < Task.maxChildren then
    { s.flushed p with children := (s.flushed p).children ++ [s.nextPid] }
  else s.flushed p

/-- Flushing the FPU saves its registers into the owner. -/
theorem flushed_eq (s : Sched) (p : Task) : ∃ fs, s.flushed p = { p with fpuState := fs } := by
  unfold flushed
  split
  · exact ⟨_, rfl⟩
  · exact ⟨p.fpuState, rfl⟩

/-- A parent with room in its list gets the child. -/
theorem forked_of_room {p : Task} (h : p.children.length < Task.maxChildren) :
    ∃ fs, s.forked p = { p with children := p.children ++ [s.nextPid], fpuState := fs } := by
  obtain ⟨fs, hfs⟩ := flushed_eq s p
  exact ⟨fs, by rw [forked, hfs, if_pos h]⟩

/-- A parent with a full list gets no child. -/
theorem forked_full {p : Task} (h : ¬ p.children.length < Task.maxChildren) :
    (s.forked p).children = p.children := by
  obtain ⟨fs, hfs⟩ := flushed_eq s p
  rw [forked, hfs, if_neg h]

/-- `fork` changes the parent's children and FPU image only. -/
theorem forked_eq (s : Sched) (p : Task) :
    ∃ cs fs, s.forked p = { p with children := cs, fpuState := fs } := by
  obtain ⟨fs, hfs⟩ := flushed_eq s p
  unfold forked
  rw [hfs]
  split
  · exact ⟨_, fs, rfl⟩
  · exact ⟨p.children, fs, rfl⟩

/-- `fork` copies the FPU state. -/
theorem built_forkFpu (hne : s.currentIdx ≠ slot) :
    (s.built slot child parent n e frames).forkFpu s.currentIdx slot =
      s.built slot { child with
        fpuState := if parent.fpuValid then (s.flushed parent).fpuState else child.fpuState
        fpuValid := parent.fpuValid } (s.flushed parent) n e frames := by
  have hown : (s.built slot child parent n e frames).fpuOwner = s.fpuOwner := rfl
  have hregs : (s.built slot child parent n e frames).fpuRegs = s.fpuRegs := rfl
  unfold forkFpu flushed
  rw [built_cur hne, hown, hregs]
  by_cases hv : parent.fpuValid = true
  · rw [if_pos hv, if_pos hv]
    by_cases ho : s.fpuOwner = some parent.id
    · rw [if_pos ho, if_pos ⟨hv, ho⟩]
      dsimp only
      rw [built_modify_cur hne, built_cur hne, built_modify, hv]
    · rw [if_neg ho, if_neg fun h => ho h.2]
      dsimp only
      rw [built_cur hne, built_modify, hv]
  · rw [if_neg hv, if_neg hv, if_neg fun h => hv h.1, built_modify, (Bool.not_eq_true _).mp hv]

/-- The last part of `fork`. -/
theorem built_finishFork (child parent : Task) (e : Nat) (frames : Nat → TrapFrame) (stack : Nat)
    (hne : s.currentIdx ≠ slot) (hw : child.wakeupMs = 0) :
    ∃ t, Newborn s slot t ∧ t.fpuValid = parent.fpuValid ∧
      (parent.fpuValid = true → t.fpuState = (s.flushed parent).fpuState) ∧
      (s.built slot child parent s.nextPid e frames).finishFork s.currentIdx slot stack =
        s.built slot t (s.forked parent) ((s.nextPid + 1) % 256) e frames := by
  have hpid : (s.built slot child parent s.nextPid e frames).takePid =
      s.built slot child parent ((s.nextPid + 1) % 256) e frames := rfl
  unfold finishFork addChild
  dsimp only
  rw [hpid, built_modify, built_forkFpu hne, built_modify_cur hne, built_cur hne]
  refine ⟨_, ?_, ?_, ?_, rfl⟩
  · exact ⟨rfl, rfl, rfl, rfl, rfl, hw⟩
  · rfl
  · intro hv
    exact if_pos hv

/-! ## the outcomes -/

/-- **addTask**: no slot, no stack, or a new task that inherits the FPU flag
of the slot. -/
theorem addTask_ok (s : Sched) (named : Bool) (entry pageDir priority stack : Nat) :
    s.addTask named entry pageDir priority stack = (none, s) ∨ named = true ∧ ∃ slot,
      s.Vacant slot ∧
      (stack = 0 ∧ s.addTask named entry pageDir priority stack =
          (none, s.built slot { s.tasks slot with
            stackBuf := 0,
            flags := 0, priority,
            wakeupMs := 0,
            runtimeMs := 0,
            onKill := 0, pageDir }
            s.cur s.nextPid s.tssEsp0 s.frames) ∨
        stack ≠ 0 ∧ ∃ t frames, Newborn s slot t ∧ t.fpuValid = (s.tasks slot).fpuValid ∧
          s.addTask named entry pageDir priority stack =
            (some slot, s.built slot t s.cur ((s.nextPid + 1) % 256) s.tssEsp0 frames)) := by
  unfold addTask
  split
  · exact .inl rfl
  next hnamed =>
  rcases findSlot_cases s with hf | ⟨slot, hf⟩
  · exact .inl (by rw [hf])
  refine .inr ⟨Decidable.not_not.mp hnamed, slot, hf, ?_⟩
  rw [hf]
  dsimp only
  rw [clearSlot, grow_modify]
  split
  · next h0 => exact .inl ⟨h0, rfl⟩
  · next h0 =>
      obtain ⟨t, ht, hnew, hv⟩ := built_finish s slot { s.tasks slot with
          stackBuf := 0, flags := 0, priority, wakeupMs := 0, runtimeMs := 0, onKill := 0, pageDir }
        s.cur s.tssEsp0
          (set s.frames (frameTop stack) { eip := s.taskWrapper, cs := 0x08, eflags := 0x202 })
        (frameTop stack) entry stack rfl
      exact .inr ⟨h0, t, _, hnew, hv, congrArg (Prod.mk (some slot)) ht⟩

/-- The slot of an ELF task before its frame is built. -/
def Task.mapped (phys : Nat → Nat) (dir : Nat) : Task :=
  { priority := Task.priorityNormal
    userStackVaddr := fun k => if k < userStackPages then userStackVaddr - k * pageSize else 0
    userStackPhys := fun k => if k < userStackPages then phys k else 0
    userStackPageCount := userStackPages
    pageDir := dir }

/-- What a creation that fails after the reset leaves in the slot. -/
structure Discarded (t : Task) : Prop where
  state : t.state = .dead
  pid : t.pid = 0
  exitCode : t.exitCode = 0
  children : t.children = []
  awake : t.wakeupMs = 0
  fpuValid : t.fpuValid = false

/-- **addUserElfTask**: no slot, a failure that leaves the slot reset, or a new
task that has not used the FPU. -/
theorem addUserElfTask_ok (s : Sched) (stack : Nat) (stackPhys : Option (Nat → Nat)) (dir : Nat)
    (elf : Option ElfResult) :
    s.addUserElfTask stack stackPhys dir elf = (none, s) ∨ ∃ slot, s.Vacant slot ∧
      (¬ (stack ≠ 0 ∧ stackPhys.isSome ∧ dir ≠ 0 ∧ elf.isSome) ∧
          (∃ t, Discarded t ∧ s.addUserElfTask stack stackPhys dir elf =
            (none, s.built slot t s.cur s.nextPid s.tssEsp0 s.frames)) ∨
        (stack ≠ 0 ∧ stackPhys.isSome ∧ dir ≠ 0 ∧ elf.isSome) ∧ ∃ t e frames, Newborn s slot t ∧
          t.fpuValid = false ∧
          s.addUserElfTask stack stackPhys dir elf =
            (some slot, s.built slot t s.cur ((s.nextPid + 1) % 256) e frames)) := by
  unfold addUserElfTask
  rcases findSlot_cases s with hf | ⟨slot, hf⟩
  · exact .inl (by rw [hf])
  refine .inr ⟨slot, hf, ?_⟩
  rw [hf]
  dsimp only
  rw [resetSlot, grow_modify, built_modify]
  split
  · next h0 => exact .inl ⟨fun h => h.1 h0, _, ⟨rfl, rfl, rfl, rfl, rfl, rfl⟩, rfl⟩
  next hstack =>
  cases stackPhys with
  | none => exact .inl ⟨by simp, _, ⟨rfl, rfl, rfl, rfl, rfl, rfl⟩, rfl⟩
  | some phys =>
      dsimp only
      rw [mapUserStackPages, setPageDir, built_modify, built_modify]
      split
      · next h0 => exact .inl ⟨fun h => h.2.2.1 h0, _, ⟨rfl, rfl, rfl, rfl, rfl, rfl⟩, rfl⟩
      next hdir =>
      cases elf with
      | none => exact .inl ⟨by simp, _, ⟨rfl, rfl, rfl, rfl, rfl, rfl⟩, rfl⟩
      | some elf =>
          obtain ⟨t, e, frames, hnew, hv, ht⟩ :=
            built_finishElfTask s slot (Task.mapped phys dir) s.cur
            s.tssEsp0 s.frames stack elf rfl
          exact .inr ⟨⟨hstack, rfl, hdir, rfl⟩, t, e, frames, hnew, hv,
            congrArg (Prod.mk (some slot)) ht⟩

/-- **fork**: no slot, a failure that leaves the slot reset, or a child with a
copy of its parent's FPU state. -/
theorem fork_ok (s : Sched) (stack dir : Nat) (hlt : s.currentIdx < s.taskCount)
    (hlive : s.cur.state ≠ .dead) :
    s.fork stack dir = (none, s) ∨ s.cur.userStackPageCount ≠ 0 ∧ s.syscallFrameEsp ≠ 0 ∧
      ∃ slot, s.Vacant slot ∧ s.currentIdx ≠ slot ∧
      (¬ (stack ≠ 0 ∧ dir ≠ 0) ∧ (∃ t frames, Discarded t ∧ s.fork stack dir =
          (none, s.built slot t s.cur s.nextPid s.tssEsp0 frames)) ∨
        stack ≠ 0 ∧ dir ≠ 0 ∧ ∃ t frames, Newborn s slot t ∧ t.fpuValid = s.cur.fpuValid ∧
          (s.cur.fpuValid = true → t.fpuState = (s.flushed s.cur).fpuState) ∧
          s.fork stack dir = (some s.nextPid,
            s.built slot t (s.forked s.cur) ((s.nextPid + 1) % 256) s.tssEsp0 frames)) := by
  unfold fork
  split
  · exact .inl rfl
  next hguard =>
  rcases findSlot_cases s with hf | ⟨slot, hf⟩
  · exact .inl (by rw [hf])
  have hne := hf.ne hlt hlive
  refine .inr ⟨fun h => hguard (.inr (.inl h)), fun h => hguard (.inr (.inr h)), slot, hf, hne, ?_⟩
  rw [hf]
  dsimp only
  rw [resetSlot, grow_modify]
  split
  · next h0 => exact .inl ⟨fun h => h.1 h0, _, _, ⟨rfl, rfl, rfl, rfl, rfl, rfl⟩, rfl⟩
  · next hstack =>
      have hcopy : (s.built slot {} s.cur s.nextPid s.tssEsp0 s.frames).copyFrame stack =
          s.built slot {} s.cur s.nextPid s.tssEsp0
            (set s.frames (userFrameTop stack) { s.frames s.syscallFrameEsp with eax := 0 }) := rfl
      rw [hcopy, setPageDir, built_modify]
      split
      · next h0 => exact .inl ⟨fun h => h.2 h0, _, _, ⟨rfl, rfl, rfl, rfl, rfl, rfl⟩, rfl⟩
      · next hdir =>
          obtain ⟨t, hnew, hv, hs, ht⟩ := built_finishFork { pageDir := dir } s.cur s.tssEsp0
            (set s.frames (userFrameTop stack) { s.frames s.syscallFrameEsp with eax := 0 })
              stack hne rfl
          exact .inr ⟨hstack, hdir, t, _, hnew, hv, hs, congrArg (Prod.mk (some s.nextPid)) ht⟩

end Sched

end Doors
