import Doors.Scheduler.Pid

/-!
# Doors.Syscall.Machine

System calls that a timer tick can interrupt.

`INT 0x80` goes through a trap gate, so `asmInt80`, `fork`, `addUserElfTask`
and `exec` run with interrupts enabled.  `CallSys` keeps for every task the
phase of its call and runs the calls part by part; the parts are the pieces
that `Scheduler::fork`, `addUserElfTask` and `exec` are composed of.

* `advance` — one part of the current task's call;
* `fork_parts`, `addUserElfTask_parts`, `exec_parts` — run without
  interruption, the parts are the whole call;
* `Sound` — the invariant of the task table holds under every interleaving.
-/

namespace Doors

open Cells Run Scheduler

/-! ## phases -/

def sysExecmod : Nat := 9
def sysFork : Nat := 14
def sysExec : Nat := 15

/-- Where a task is inside a system call. -/
inductive Phase where
  | user
  /-- `INT 0x80` pushed the trap frame of call `nr`. -/
  | pushed (nr : Nat)
  /-- `asmInt80` stored the address of the frame. -/
  | called (nr : Nat)
  | forkFound (slot : Nat)
  | forkReset (slot : Nat)
  | forkStacked (slot stack : Nat)
  | forkCopied (slot stack : Nat)
  | forkCloned (slot stack dir : Nat)
  | elfFound (slot : Nat)
  | elfReset (slot : Nat)
  | elfStacked (slot stack : Nat)
  | elfMapped (slot stack : Nat) (phys : Nat → Nat)
  | elfCloned (slot stack : Nat) (phys : Nat → Nat) (dir : Nat)
  /-- `exec` loaded a program that starts at `entry`. -/
  | execLoaded (entry : Nat)
  /-- The call is on its way back to `asmInt80`. -/
  | done

/-- The slot that a creation in progress works on. -/
def Phase.slot : Phase → Option Nat
  | .forkFound slot | .forkReset slot | .forkStacked slot _ | .forkCopied slot _
  | .forkCloned slot _ _ | .elfFound slot | .elfReset slot | .elfStacked slot _
  | .elfMapped slot _ _ | .elfCloned slot _ _ _ => some slot
  | _ => none

/-- The parts of the calls, with the answers of the allocators. -/
inductive PartOp where
  | find
  | reset
  | alloc (stack : Nat)
  | copy
  | map (stackPhys : Option (Nat → Nat))
  | clone (dir : Nat)
  | finish (elf : Option ElfResult)
  | redirect

/-- The slot in which a part brings a task to life. -/
def Phase.births : Phase → PartOp → Option Nat
  | .forkCloned slot _ _, .finish _ => some slot
  | .elfCloned slot _ _ _, .finish (some _) => some slot
  | _, _ => none

namespace Sched

/-- `exec` up to the trap frame, with the loaded program. -/
def execImage (s : Sched) (stackPhys : Nat → Nat) (elf : ElfResult) : Sched :=
  (s.execForget.execDrop.mapUserStackPages s.currentIdx stackPhys).trackElfPages s.currentIdx elf

/-- `fork` and `addUserElfTask` look for a slot. -/
def advanceFind (s : Sched) (found : Nat → Phase) : Sched × Phase :=
  match s.findSlot with
  | (none, s) => (s, .done)
  | (some slot, s) => (s, found slot)

/-- One part of the current task's call. -/
def advance (s : Sched) : Phase → PartOp → Sched × Phase
  | .called nr, .find =>
      if nr = sysFork then
        if s.currentIdx ≥ maxTasks ∨ s.cur.userStackPageCount = 0 ∨
          s.syscallFrameEsp = 0 then (s, .done)
        else s.advanceFind .forkFound
      else if nr = sysExecmod then s.advanceFind .elfFound
      else (s, .called nr)
  | .forkFound slot, .reset => (s.resetSlot slot, .forkReset slot)
  | .forkReset slot, .alloc stack => (s, if stack = 0 then .done else .forkStacked slot stack)
  | .forkStacked slot stack, .copy => (s.copyFrame stack, .forkCopied slot stack)
  | .forkCopied slot stack, .clone dir =>
      (s.setPageDir slot dir, if dir = 0 then .done else .forkCloned slot stack dir)
  | .forkCloned slot stack _, .finish _ => (s.finishFork s.currentIdx slot stack, .done)
  | .elfFound slot, .reset =>
      ((s.resetSlot slot).modify slot fun t => { t with priority := Task.priorityNormal },
        .elfReset slot)
  | .elfReset slot, .alloc stack => (s, if stack = 0 then .done else .elfStacked slot stack)
  | .elfStacked _ _, .map none => (s, .done)
  | .elfStacked slot stack, .map (some phys) =>
      (s.mapUserStackPages slot phys, .elfMapped slot stack phys)
  | .elfMapped slot stack phys, .clone dir =>
      (s.setPageDir slot dir, if dir = 0 then .done else .elfCloned slot stack phys dir)
  | .elfCloned _ _ _ _, .finish none => (s, .done)
  | .elfCloned slot stack _ _, .finish (some elf) => (s.finishElfTask slot stack elf, .done)
  | .execLoaded entry, .redirect => (s.execFrame entry, .done)
  | ph, _ => (s, ph)

/-- Parts that follow each other without interruption. -/
def advances (s : Sched) (ph : Phase) : List PartOp → Sched × Phase
  | [] => (s, ph)
  | op :: ops => (s.advance ph op).1.advances (s.advance ph op).2 ops

variable {s s' s₁ : Sched} {ph ph₁ : Phase} {op : PartOp} {ops : List PartOp}

/-- One more part. -/
theorem advances_cons (h : s.advance ph op = (s₁, ph₁)) :
    s.advances ph (op :: ops) = s₁.advances ph₁ ops := by
  rw [advances, h]

/-- A call that failed stays where it is. -/
theorem advances_done (s : Sched) (ops : List PartOp) : s.advances .done ops = (s, .done) := by
  induction ops with
  | nil => rfl
  | cons op ops ih =>
      have hop : s.advance .done op = (s, .done) := by
        cases op <;> rfl
      rw [advances_cons hop, ih]

/-- The search, when there is no slot. -/
theorem advanceFind_none {found : Nat → Phase} (h : s.findSlot = (none, s)) :
    s.advanceFind found = (s, .done) := by
  rw [advanceFind, h]

/-- The part that finds a slot. -/
theorem advanceFind_some {found : Nat → Phase} {slot : Nat} (h : s.Vacant slot) :
    s.advanceFind found = (s.grow slot, found slot) := by
  rw [advanceFind, h]

/-- **fork**, run part by part. -/
theorem fork_parts (s : Sched) (stack dir : Nat) :
    (s.advances (.called sysFork) [.find, .reset, .alloc stack, .copy, .clone dir,
        .finish none]).1 =
      (s.fork stack dir).2 := by
  have hfind : s.advance (.called sysFork) .find =
      if s.currentIdx ≥ maxTasks ∨ s.cur.userStackPageCount = 0 ∨
        s.syscallFrameEsp = 0 then (s, .done)
      else s.advanceFind .forkFound := rfl
  unfold fork
  by_cases hguard : s.currentIdx ≥ maxTasks ∨ s.cur.userStackPageCount = 0 ∨ s.syscallFrameEsp = 0
  · rw [if_pos hguard] at hfind ⊢
    rw [advances_cons hfind, advances_done]
  rw [if_neg hguard] at hfind ⊢
  rcases findSlot_cases s with hf | ⟨slot, hv⟩
  · rw [advanceFind_none hf] at hfind
    rw [advances_cons hfind, advances_done, hf]
  · have hf : s.findSlot = (some slot, s.grow slot) := hv
    rw [advanceFind_some hv] at hfind
    rw [advances_cons hfind, advances_cons rfl, advances_cons rfl, hf]
    dsimp only
    by_cases h0 : stack = 0
    · simp only [if_pos h0, advances_done]
    · simp only [if_neg h0]
      rw [advances_cons rfl, advances_cons rfl]
      by_cases hd : dir = 0
      · simp only [if_pos hd, advances_done]
      · simp only [if_neg hd]
        rfl

/-- **addUserElfTask**, run part by part. -/
theorem addUserElfTask_parts (s : Sched) (stack : Nat) (stackPhys : Option (Nat → Nat)) (dir : Nat)
    (elf : Option ElfResult) :
    (s.advances (.called sysExecmod)
        [.find, .reset, .alloc stack, .map stackPhys, .clone dir, .finish elf]).1 =
      (s.addUserElfTask stack stackPhys dir elf).2 := by
  have hfind : s.advance (.called sysExecmod) .find = s.advanceFind .elfFound := rfl
  unfold addUserElfTask
  rcases findSlot_cases s with hf | ⟨slot, hv⟩
  · rw [advanceFind_none hf] at hfind
    rw [advances_cons hfind, advances_done, hf]
  · have hf : s.findSlot = (some slot, s.grow slot) := hv
    rw [advanceFind_some hv] at hfind
    rw [advances_cons hfind, advances_cons rfl, advances_cons rfl, hf]
    dsimp only
    by_cases h0 : stack = 0
    · simp only [if_pos h0, advances_done]
    · simp only [if_neg h0]
      cases stackPhys with
      | none => rw [advances_cons rfl, advances_done]
      | some phys =>
          rw [advances_cons rfl, advances_cons rfl]
          dsimp only
          by_cases hd : dir = 0
          · simp only [if_pos hd, advances_done]
          · simp only [if_neg hd]
            cases elf with
            | none => rfl
            | some elf => rfl

/-- **exec** of a program that loads: its image, then the trap frame. -/
theorem exec_parts (s : Sched) (stackPhys : Nat → Nat) (elf : ElfResult)
    (hlt : s.currentIdx < maxTasks) (hdir : s.cur.pageDir ≠ 0) :
    s.exec (.loaded stackPhys elf) =
      .ok (some 0, ((s.execImage stackPhys elf).advance (.execLoaded elf.entry) .redirect).1) := by
  unfold exec
  rw [if_neg (by omega)]
  dsimp only
  rw [if_neg hdir]
  rfl

/-! ## what a part does -/

/-- A part of a creation worked on slot `k`. -/
structure Worked (s : Sched) (k : Nat) (s' : Sched) : Prop where
  taskCount : s'.taskCount = s.taskCount
  currentIdx : s'.currentIdx = s.currentIdx
  syscallFrameEsp : s'.syscallFrameEsp = s.syscallFrameEsp
  slot : (s'.tasks k).state = (s.tasks k).state ∧ (s'.tasks k).id = (s.tasks k).id ∨
    (s'.tasks k).state = .dead ∨ (s'.tasks k).state = .ready ∧ (s'.tasks k).id = k % 256
  others : ∀ j, j ≠ k → ∃ cs fs, s'.tasks j = { s.tasks j with children := cs, fpuState := fs }

variable {k stack : Nat}

theorem Worked.refl (s : Sched) (k : Nat) : Worked s k s where
  taskCount := rfl
  currentIdx := rfl
  syscallFrameEsp := rfl
  slot := .inl ⟨rfl, rfl⟩
  others := fun _ _ => ⟨_, _, rfl⟩

/-- A change of the slot itself, which keeps state and id or leaves it DEAD. -/
theorem Worked.modify {f : Task → Task} (hf : (f (s.tasks k)).state = (s.tasks k).state ∧
    (f (s.tasks k)).id = (s.tasks k).id ∨ (f (s.tasks k)).state = .dead) : Worked s k
      (s.modify k f) where
  taskCount := rfl
  currentIdx := rfl
  syscallFrameEsp := rfl
  slot := by
    rw [modify_tasks, if_pos rfl]
    rcases hf with h | h
    · exact .inl h
    · exact .inr (.inl h)
  others := by
    intro j hj
    rw [modify_tasks, if_neg hj]
    exact ⟨_, _, rfl⟩

/-- The slot is reset. -/
theorem resetSlot_worked (s : Sched) (slot : Nat) : Worked s slot (s.resetSlot slot) :=
  .modify (.inr rfl)

/-- The slot gets its page directory. -/
theorem setPageDir_worked (s : Sched) (slot dir : Nat) : Worked s slot (s.setPageDir slot dir) :=
  .modify (.inl ⟨rfl, rfl⟩)

/-- The slot gets its stack pages. -/
theorem mapUserStackPages_worked (s : Sched) (slot : Nat) (phys : Nat → Nat) :
    Worked s slot (s.mapUserStackPages slot phys) := .modify (.inl ⟨rfl, rfl⟩)

/-- `fork` changes FPU images only. -/
theorem forkFpu_tasks (s : Sched) (parent slot j : Nat) :
    ∃ fs v, (s.forkFpu parent slot).tasks j = { s.tasks j with fpuState := fs, fpuValid := v } ∧
      (j ≠ slot → v = (s.tasks j).fpuValid) := by
  have hsave :
    ∀ fs : FpuImage, ∃ fs', (s.modify parent fun t => { t with fpuState := fs }).tasks j =
      { s.tasks j with fpuState := fs' } := by
    intro fs
    rw [modify_tasks]
    split
    · exact ⟨_, rfl⟩
    · exact ⟨_, rfl⟩
  unfold forkFpu
  by_cases hj : j = slot
  · split
    · split
      · obtain ⟨fs', h⟩ := hsave s.fpuRegs
        rw [modify_tasks, if_pos hj, h]
        exact ⟨_, _, rfl, fun h => absurd hj h⟩
      · rw [modify_tasks, if_pos hj]
        exact ⟨_, _, rfl, fun h => absurd hj h⟩
    · rw [modify_tasks, if_pos hj]
      exact ⟨_, _, rfl, fun h => absurd hj h⟩
  · split
    · split
      · obtain ⟨fs', h⟩ := hsave s.fpuRegs
        rw [modify_tasks, if_neg hj, h]
        exact ⟨_, _, rfl, fun _ => rfl⟩
      · rw [modify_tasks, if_neg hj]
        exact ⟨_, _, rfl, fun _ => rfl⟩
    · rw [modify_tasks, if_neg hj]
      exact ⟨_, _, rfl, fun _ => rfl⟩

/-- The slot after the last part of a creation, as far as it is the creator's
own. -/
structure Mine (t : Task) (slot stack dir : Nat) : Prop where
  state : t.state = .ready
  id : t.id = slot % 256
  esp : t.esp = userFrameTop stack
  stackBuf : t.stackBuf = stack
  pageDir : t.pageDir = dir

/-- A child is listed. -/
theorem addChild_tasks (s : Sched) (parent pid j : Nat) :
    ∃ cs, (s.addChild parent pid).tasks j = { s.tasks j with children := cs } ∧
      (j ≠ parent → cs = (s.tasks j).children) := by
  unfold addChild
  rw [modify_tasks]
  split
  · next hj =>
      split
      · exact ⟨_, rfl, fun h => absurd hj h⟩
      · exact ⟨_, rfl, fun h => absurd hj h⟩
  · exact ⟨_, rfl, fun _ => rfl⟩

/-- The new task is the one that was begun. -/
theorem finishFork_slot (s : Sched) (parent slot stack : Nat) :
    Mine ((s.finishFork parent slot stack).tasks slot) slot stack (s.tasks slot).pageDir ∧
      ((s.finishFork parent slot stack).tasks slot).pid = s.nextPid := by
  unfold finishFork
  dsimp only
  obtain ⟨cs, hc, _⟩ := addChild_tasks (forkFpu _ parent slot) parent s.nextPid slot
  rw [hc]
  obtain ⟨fs, v, hf, _⟩ := forkFpu_tasks (s.takePid.modify slot _) parent slot slot
  rw [hf, modify_tasks, if_pos rfl]
  exact ⟨⟨rfl, rfl, rfl, rfl, rfl⟩, rfl⟩

/-- The other tasks keep all but children and FPU image. -/
theorem finishFork_others (s : Sched) {parent slot j : Nat} (stack : Nat) (hj : j ≠ slot) :
    ∃ cs fs, (s.finishFork parent slot stack).tasks j =
      { s.tasks j with children := cs, fpuState := fs } := by
  unfold finishFork
  dsimp only
  obtain ⟨cs, hc, _⟩ := addChild_tasks (forkFpu _ parent slot) parent s.nextPid j
  rw [hc]
  obtain ⟨fs, v, hf, hv⟩ := forkFpu_tasks (s.takePid.modify slot _) parent slot j
  rw [hf, hv hj, modify_tasks, if_neg hj]
  exact ⟨_, _, rfl⟩

@[simp] theorem takePid_tasks (s : Sched) : s.takePid.tasks = s.tasks := rfl

@[simp] theorem initUserStackFrame_tasks (s : Sched) (stack eip esp : Nat) :
    (s.initUserStackFrame stack eip esp).tasks = s.tasks := rfl

/-- The new task is the one that was begun. -/
theorem finishElfTask_slot (s : Sched) (slot stack : Nat) (elf : ElfResult) :
    Mine ((s.finishElfTask slot stack elf).tasks slot) slot stack (s.tasks slot).pageDir ∧
      ((s.finishElfTask slot stack elf).tasks slot).userStackPhys = (s.tasks slot).userStackPhys ∧
      ((s.finishElfTask slot stack elf).tasks slot).elfPageCount = elf.numPages ∧
      ∀ i < elf.numPages, ((s.finishElfTask slot stack elf).tasks slot).elfPhys i = elf.phys i := by
  unfold finishElfTask trackElfPages initProcessFields
  dsimp only
  simp only [modify_tasks, takePid_tasks, initUserStackFrame_tasks, if_true]
  exact ⟨⟨rfl, rfl, rfl, rfl, rfl⟩, trivial, trivial, fun i hi => if_pos hi⟩

/-- The other tasks stay. -/
theorem finishElfTask_others (s : Sched) {slot j : Nat} (stack : Nat) (elf : ElfResult)
    (hj : j ≠ slot) :
    (s.finishElfTask slot stack elf).tasks j = s.tasks j := by
  unfold finishElfTask trackElfPages initProcessFields
  dsimp only
  simp only [modify_tasks, takePid_tasks, initUserStackFrame_tasks, if_neg hj]

/-- The FPU part of `fork` is in the tasks and the registers. -/
theorem forkFpu_rest (s : Sched) (parent slot : Nat) :
    ∃ tasks, s.forkFpu parent slot = { s with tasks := tasks } := by
  unfold forkFpu
  split
  · split
    · exact ⟨_, rfl⟩
    · exact ⟨_, rfl⟩
  · exact ⟨_, rfl⟩

/-- Outside the task table, `fork` ends with a new value of `nextPid_`. -/
theorem finishFork_rest (s : Sched) (parent slot stack : Nat) :
    ∃ tasks n, s.finishFork parent slot stack = { s with tasks := tasks, nextPid := n } := by
  unfold finishFork
  dsimp only
  obtain ⟨tasks, h⟩ := forkFpu_rest (s.takePid.modify slot _) parent slot
  rw [h]
  exact ⟨_, _, rfl⟩

/-- The last part of `fork`. -/
theorem finishFork_worked (s : Sched) (parent slot stack : Nat) :
    Worked s slot (s.finishFork parent slot stack) where
  taskCount := by
    obtain ⟨tasks, n, h⟩ := finishFork_rest s parent slot stack
    rw [h]
  currentIdx := by
    obtain ⟨tasks, n, h⟩ := finishFork_rest s parent slot stack
    rw [h]
  syscallFrameEsp := by
    obtain ⟨tasks, n, h⟩ := finishFork_rest s parent slot stack
    rw [h]
  slot :=
    .inr (.inr ⟨(finishFork_slot s parent slot stack).1.state,
      (finishFork_slot s parent slot stack).1.id⟩)
  others := fun _ hj => finishFork_others s stack hj

/-- The last part of `addUserElfTask`. -/
theorem finishElfTask_worked (s : Sched) (slot stack : Nat) (elf : ElfResult) :
    Worked s slot (s.finishElfTask slot stack elf) where
  taskCount := rfl
  currentIdx := rfl
  syscallFrameEsp := rfl
  slot :=
    .inr (.inr ⟨(finishElfTask_slot s slot stack elf).1.state,
      (finishElfTask_slot s slot stack elf).1.id⟩)
  others :=
    fun j hj => ⟨(s.tasks j).children, (s.tasks j).fpuState, finishElfTask_others s stack elf hj⟩

/-- What one part does: it finds a slot, works on the slot that was found, or
writes a trap frame. -/
inductive Advanced (s : Sched) (ph : Phase) (op : PartOp) : Sched → Phase → Prop where
  | found (slot : Nat) (ph' : Phase) (hfind : op = .find) (hnone : ph.slot = none)
    (hv : s.Vacant slot)
      (hslot : ph'.slot = some slot) : Advanced s ph op (s.grow slot) ph'
  | worked (slot : Nat) (s' : Sched) (ph' : Phase) (hold : ph.slot = some slot)
      (hnew : ph'.slot = none ∨ ph'.slot = some slot) (hw : Worked s slot s')
      (hborn : (s'.tasks slot).state = (s.tasks slot).state ∨ (s'.tasks slot).state = .dead ∨
        ph.births op = some slot) : Advanced s ph op s' ph'
  | framed (frames : Nat → TrapFrame) (ph' : Phase) (hnew : ph'.slot = none) :
      Advanced s ph op { s with frames := frames } ph'

/-- A part that does nothing. -/
theorem Advanced.idle (s : Sched) (ph : Phase) (op : PartOp) : Advanced s ph op s ph := by
  cases h : ph.slot with
  | none => exact .framed s.frames ph h
  | some slot => exact .worked slot s ph h (.inr h) (.refl s slot) (.inl rfl)

/-- The failure of a creation. -/
theorem Advanced.fail {slot : Nat} (h : ph.slot = some slot) : Advanced s ph op s .done :=
  .worked slot s .done h (.inl rfl) (.refl s slot) (.inl rfl)

/-- The search for a slot. -/
theorem advanceFind_advanced {found : Nat → Phase} (hnone : ph.slot = none)
    (hfound : ∀ slot, (found slot).slot = some slot) :
    Advanced s ph .find (s.advanceFind found).1 (s.advanceFind found).2 := by
  rcases findSlot_cases s with hf | ⟨slot, hv⟩
  · rw [advanceFind_none hf]
    exact .framed s.frames .done rfl
  · rw [advanceFind_some hv]
    exact .found slot (found slot) rfl hnone hv (hfound slot)

/-- **Parts**: every part is one of the three. -/
theorem advance_ok (s : Sched) (ph : Phase) (op : PartOp) :
    Advanced s ph op (s.advance ph op).1 (s.advance ph op).2 := by
  unfold advance
  split
  · split
    · split
      · exact .framed s.frames .done rfl
      · exact advanceFind_advanced rfl fun _ => rfl
    · split
      · exact advanceFind_advanced rfl fun _ => rfl
      · exact .idle s _ _
  · refine .worked _ _ _ rfl (.inr rfl) (resetSlot_worked s _) (.inr (.inl ?_))
    simp only [resetSlot, modify_tasks, if_true]
  · dsimp only
    split
    · exact .fail rfl
    · exact .worked _ _ _ rfl (.inr rfl) (.refl s _) (.inl rfl)
  · exact .worked _ _ _ rfl (.inr rfl) ⟨rfl, rfl, rfl, .inl ⟨rfl, rfl⟩, fun _ _ => ⟨_, _, rfl⟩⟩
      (.inl rfl)
  · next slot _ dir =>
      have hstate : ((s.setPageDir slot dir).tasks slot).state = (s.tasks slot).state := by
        simp only [setPageDir, modify_tasks, if_true]
      dsimp only
      split
      · exact .worked _ _ _ rfl (.inl rfl) (setPageDir_worked s _ _) (.inl hstate)
      · exact .worked _ _ _ rfl (.inr rfl) (setPageDir_worked s _ _) (.inl hstate)
  · exact .worked _ _ _ rfl (.inl rfl) (finishFork_worked s _ _ _) (.inr (.inr rfl))
  · have hdead : ∀ slot, (((s.resetSlot slot).modify slot fun t =>
        { t with priority := Task.priorityNormal }).tasks slot).state = .dead := by
      intro slot
      simp only [resetSlot, modify_tasks, if_true]
    refine .worked _ _ _ rfl (.inr rfl) ⟨rfl, rfl, rfl, .inr (.inl (hdead _)), fun j hj => ?_⟩
      (.inr (.inl (hdead _)))
    simp only [resetSlot, modify_tasks, if_neg hj]
    exact ⟨_, _, rfl⟩
  · dsimp only
    split
    · exact .fail rfl
    · exact .worked _ _ _ rfl (.inr rfl) (.refl s _) (.inl rfl)
  · exact .fail rfl
  · refine .worked _ _ _ rfl (.inr rfl) (mapUserStackPages_worked s _ _) (.inl ?_)
    simp only [mapUserStackPages, modify_tasks, if_true]
  · next slot _ _ dir =>
      have hstate : ((s.setPageDir slot dir).tasks slot).state = (s.tasks slot).state := by
        simp only [setPageDir, modify_tasks, if_true]
      dsimp only
      split
      · exact .worked _ _ _ rfl (.inl rfl) (setPageDir_worked s _ _) (.inl hstate)
      · exact .worked _ _ _ rfl (.inr rfl) (setPageDir_worked s _ _) (.inl hstate)
  · exact .fail rfl
  · exact .worked _ _ _ rfl (.inl rfl) (finishElfTask_worked s _ _ _) (.inr (.inr rfl))
  · exact .framed _ .done rfl
  · exact .idle s _ _

/-- Who is alive after a part was alive before, or was born by it. -/
theorem Advanced.live {ph' : Phase} {p : Nat} (h : Advanced s ph op s' ph')
    (hp : (s'.tasks p).state ≠ .dead) :
    (s.tasks p).state ≠ .dead ∨ ph.births op = some p := by
  cases h with
  | found => exact .inl hp
  | worked slot _ _ _ _ hw hborn =>
      by_cases hs : p = slot
      · subst hs
        rcases hborn with h | h | h
        · exact .inl (h ▸ hp)
        · exact absurd h hp
        · exact .inr h
      · obtain ⟨cs, fs, he⟩ := hw.others p hs
        rw [he] at hp
        exact .inl hp
  | framed => exact .inl hp

/-! ## the task table under parts -/

/-- Handing out a slot. -/
theorem Table.grow {slot : Nat} (h : Table s) (hv : s.Vacant slot) : Table (s.grow slot) := by
  have hmax := hv.lt_max h
  constructor
  · have := h.cur_lt
    change s.currentIdx < max s.taskCount (slot + 1)
    omega
  · have := h.count_le
    change max s.taskCount (slot + 1) ≤ maxTasks
    omega
  · exact h.running
  · exact h.id_eq
  · exact h.cur_live
  · intro i hi
    change max s.taskCount (slot + 1) ≤ i at hi
    exact h.beyond i (by omega)

/-- Working on a slot of the table other than the current task's. -/
theorem Table.worked (h : Table s) (hw : Worked s k s') (hk : k < s.taskCount)
    (hcur : k ≠ s.currentIdx) : Table s' := by
  have hother : ∀ j, j ≠ k → (s'.tasks j).state = (s.tasks j).state ∧
      (s'.tasks j).id = (s.tasks j).id := by
    intro j hj
    obtain ⟨cs, fs, he⟩ := hw.others j hj
    rw [he]
    exact ⟨rfl, rfl⟩
  have hid : k % 256 = k := by
    have := h.count_le
    have : maxTasks = 8 := rfl
    omega
  constructor
  · rw [hw.currentIdx, hw.taskCount]
    exact h.cur_lt
  · rw [hw.taskCount]
    exact h.count_le
  · intro j hj
    rw [hw.currentIdx]
    by_cases hjk : j = k
    · subst hjk
      rcases hw.slot with hs | hs | hs
      · exact h.running j (hs.1.symm.trans hj)
      · rw [hs] at hj
        contradiction
      · rw [hs.1] at hj
        contradiction
    · exact h.running j ((hother j hjk).1.symm.trans hj)
  · intro j hj
    by_cases hjk : j = k
    · subst hjk
      rcases hw.slot with hs | hs | hs
      · rw [hs.1] at hj
        exact hs.2.trans (h.id_eq j hj)
      · exact absurd hs hj
      · exact hs.2.trans hid
    · rw [(hother j hjk).1] at hj
      exact (hother j hjk).2.trans (h.id_eq j hj)
  · rw [cur, hw.currentIdx, (hother _ hcur.symm).1]
    exact h.cur_live
  · intro j hj
    rw [hw.taskCount] at hj
    rw [(hother j (by omega)).1]
    exact h.beyond j hj

end Sched

/-! ## the machine -/

/-- The scheduler, the phases of its tasks and, as a ghost, where the last
`INT 0x80` of each of them pushed its frame. -/
structure CallSys where
  sched : Sched
  phase : Nat → Phase := fun _ => .user
  trap : Nat → Nat := fun _ => 0

/-- The steps. -/
inductive CallOp where
  /-- An interrupt, or the body of a call that is not run part by part. -/
  | sys (op : Op)
  | int80 (frame : TrapFrame)
  /-- `movl %esp, syscallFrameEsp`. -/
  | store
  | part (op : PartOp)
  /-- `exec` up to the trap frame. -/
  | load (out : Sched.ExecOutcome)
  /-- The way out of `asmInt80`. -/
  | ret (eax : Nat)

namespace CallSys

open Sched

def start (s : Sched) : CallSys := { sched := s.init }

/-- A new task is in no call. -/
def settle (m : CallSys) : Option Nat → Nat → Phase
  | some slot => set m.phase slot .user
  | none => m.phase

/-- The current task goes on in `ph`. -/
def goto (m : CallSys) (ph : Phase) : CallSys :=
  { m with phase := set m.phase m.sched.currentIdx ph }

/-- The current task leaves `asmInt80`. -/
def iret (m : CallSys) (eax : Nat) : CallSys :=
  let esp := m.trap m.sched.currentIdx
  let frame := { m.sched.frames esp with eax }
  { m with sched := { m.sched with frames := set m.sched.frames esp frame } }.goto .user

/-- One step. -/
def step (m : CallSys) : CallOp → Except Fault CallSys
  | .sys op => do
      let sched ← m.sched.step op
      .ok { m with sched, phase := m.settle (if op.creates then m.sched.findSlot.1 else none) }
  | .int80 frame =>
      match m.phase m.sched.currentIdx with
      | .user =>
          let esp := m.sched.tssEsp0 - frameSizeUser
          .ok ({ m with
            sched := { m.sched with frames := set m.sched.frames esp frame }
            trap := set m.trap m.sched.currentIdx esp : CallSys }.goto (.pushed frame.eax))
      | _ => .ok m
  | .store =>
      match m.phase m.sched.currentIdx with
      | .pushed nr =>
          .ok
            ({ m with
              sched :=
                { m.sched with syscallFrameEsp := m.trap m.sched.currentIdx } : CallSys }.goto
            (.called nr))
      | _ => .ok m
  | .part op =>
      let ph := m.phase m.sched.currentIdx
      .ok { m with
        sched := (m.sched.advance ph op).1
        phase := set (m.settle (ph.births op)) m.sched.currentIdx (m.sched.advance ph op).2 }
  | .load out =>
      match m.phase m.sched.currentIdx with
      | .called nr =>
          if nr = sysExec then
            match out with
            | .loaded stackPhys elf =>
                if m.sched.currentIdx ≥ maxTasks ∨ m.sched.cur.pageDir = 0 then .ok (m.goto .done)
                else .ok ({ m with sched := m.sched.execImage stackPhys elf : CallSys }.goto
                  (.execLoaded elf.entry))
            | out => do
                let (_, sched) ← m.sched.exec out
                .ok { m with sched, phase := set m.phase m.sched.currentIdx .done }
          else .ok m
      | _ => .ok m
  | .ret eax =>
      match m.phase m.sched.currentIdx with
      | .done => .ok (m.iret eax)
      | .called nr => if nr = sysFork ∨ nr = sysExec ∨ nr = sysExecmod then .ok m
          else .ok (m.iret eax)
      | _ => .ok m

/-- A task between two calls, or in the body of one that is not run part by
part. -/
def Phase.open : Phase → Bool
  | .user | .called _ | .done => true
  | _ => false

/-- Programs: the scheduler is initialised once, `fork` and `exec` are run
part by part, only tasks in ring 3 execute `INT 0x80`, and inside a call that
is run part by part there are only interrupts. -/
def Legal (m : CallSys) : CallOp → Prop
  | .sys op =>
      match op with
      | .init | .fork _ _ | .exec _ => False
      | .pitTick | .tick _ _ _ => True
      | _ => Phase.open (m.phase m.sched.currentIdx) = true
  | .int80 _ => m.sched.cur.userStackPageCount ≠ 0
  | _ => True

instance (m : CallSys) (op : CallOp) : Decidable (Legal m op) := by
  match op with
  | .sys op => apply @Op.casesOn _ op <;> intros <;> unfold Legal <;> infer_instance
  | .int80 _ | .store | .part _ | .load _ | .ret _ => unfold Legal; infer_instance

/-! ## the invariant of the table -/

/-- The task table is sound, and no task works on its own slot. -/
structure Sound (m : CallSys) : Prop where
  table : Table m.sched
  slots : ∀ p k, (m.sched.tasks p).state ≠ .dead → (m.phase p).slot = some k →
    k < m.sched.taskCount ∧ k ≠ p

variable {m m' : CallSys} {s s' s₀ : Sched} {op : Op} {p k : Nat}

/-- No part is open at the start. -/
theorem start_sound (s : Sched) : Sound (start s) := ⟨init_table s, fun _ _ _ h => by contradiction⟩

/-- The new phases after a task came to life. -/
theorem settle_cases (m : CallSys) (born : Option Nat) (p : Nat) :
    born = some p ∧ m.settle born p = .user ∨ m.settle born p = m.phase p := by
  unfold settle
  split
  · next slot =>
      by_cases hp : p = slot
      · subst hp
        exact .inl ⟨rfl, set_self ..⟩
      · exact .inr (set_of_ne _ _ hp)
  · exact .inr rfl

/-- What a step can be. -/
inductive Moved (m : CallSys) : CallOp → CallSys → Prop where
  | idle (op : CallOp) : Moved m op m
  | sys (op : Op) (s' : Sched) (hs : m.sched.step op = .ok s') :
      Moved m (.sys op)
        { m with sched := s', phase := m.settle (if op.creates then m.sched.findSlot.1 else none) }
  | pushed (frame : TrapFrame) (esp : Nat) (hesp : esp = m.sched.tssEsp0 - frameSizeUser) :
      Moved m (.int80 frame) ({ m with
        sched := { m.sched with frames := set m.sched.frames esp frame }
        trap := set m.trap m.sched.currentIdx esp : CallSys }.goto (.pushed frame.eax))
  | stored (nr : Nat) (hph : m.phase m.sched.currentIdx = .pushed nr) :
      Moved m .store
        ({ m with
          sched := { m.sched with syscallFrameEsp := m.trap m.sched.currentIdx } : CallSys }.goto
          (.called nr))
  | part (op : PartOp) (s' : Sched) (ph' : Phase)
      (hadv : m.sched.advance (m.phase m.sched.currentIdx) op = (s', ph')) :
      Moved m (.part op) { m with
        sched := s',
        phase := set (m.settle ((m.phase m.sched.currentIdx).births op)) m.sched.currentIdx ph' }
  | image (stackPhys : Nat → Nat) (elf : ElfResult)
    (hph : m.phase m.sched.currentIdx = .called sysExec) :
      Moved m (.load (.loaded stackPhys elf))
        ({ m with sched := m.sched.execImage stackPhys elf : CallSys }.goto (.execLoaded elf.entry))
  | failed (out : ExecOutcome) (s' : Sched) (hs : m.sched.step (.exec out) = .ok s') :
      Moved m (.load out) { m with sched := s', phase := set m.phase m.sched.currentIdx .done }
  | refused (op : CallOp) : Moved m op (m.goto .done)
  | iret (eax : Nat) : Moved m (.ret eax) (m.iret eax)

/-- **Steps**: every step is one of these. -/
theorem step_moved {op : CallOp} (hs : m.step op = .ok m') : Moved m op m' := by
  unfold step at hs
  split at hs
  · next op =>
      simp only [bind_eq_ok, Except.ok.injEq] at hs
      obtain ⟨s', hs, rfl⟩ := hs
      exact .sys op s' hs
  · split at hs
    · simp only [Except.ok.injEq] at hs
      rw [← hs]
      exact .pushed _ _ rfl
    · simp only [Except.ok.injEq] at hs
      rw [← hs]
      exact .idle _
  · split at hs
    · next nr hph =>
        simp only [Except.ok.injEq] at hs
        rw [← hs]
        exact .stored nr hph
    · simp only [Except.ok.injEq] at hs
      rw [← hs]
      exact .idle _
  · simp only [Except.ok.injEq] at hs
    rw [← hs]
    exact .part _ _ _ rfl
  · split at hs
    · next nr hph =>
        split at hs
        · next hnr =>
            subst hnr
            split at hs
            · split at hs
              · simp only [Except.ok.injEq] at hs
                rw [← hs]
                exact .refused _
              · simp only [Except.ok.injEq] at hs
                rw [← hs]
                exact .image _ _ hph
            · simp only [bind_eq_ok, Except.ok.injEq] at hs
              obtain ⟨⟨r, s'⟩, he, rfl⟩ := hs
              refine .failed _ s' ?_
              simp only [Sched.step, bind_eq_ok, Except.ok.injEq]
              exact ⟨(r, s'), he, rfl⟩
        · simp only [Except.ok.injEq] at hs
          rw [← hs]
          exact .idle _
    · simp only [Except.ok.injEq] at hs
      rw [← hs]
      exact .idle _
  · split at hs
    · simp only [Except.ok.injEq] at hs
      rw [← hs]
      exact .iret _
    · split at hs
      · simp only [Except.ok.injEq] at hs
        rw [← hs]
        exact .idle _
      · simp only [Except.ok.injEq] at hs
        rw [← hs]
        exact .iret _
    · simp only [Except.ok.injEq] at hs
      rw [← hs]
      exact .idle _

/-- Who is alive after an operation was alive before, or was just created. -/
theorem sys_live (ht : Table s) (hi : op ≠ .init) (hs : s.step op = .ok s')
    (hp : (s'.tasks p).state ≠ .dead) :
    (s.tasks p).state ≠ .dead ∨ op.creates = true ∧ s.findSlot.1 = some p := by
  cases hc : op.creates with
  | false => exact .inl fun hd => hp ((step_keeps hc hi ht hs).dead p hd)
  | true =>
      rcases step_built hc ht hs with rfl |
        ⟨slot, child, parent, n, e, frames, hv, _, ⟨cs, fs, rfl⟩, rfl⟩
      · exact .inl hp
      · by_cases hslot : p = slot
        · subst hslot
          exact .inr ⟨rfl, hv.fst⟩
        · left
          by_cases hcur : p = s.currentIdx
          · subst hcur
            exact ht.cur_live
          · rw [built_other hslot hcur] at hp
            exact hp

/-- Operations never shrink the table. -/
theorem sys_taskCount (ht : Table s) (hi : op ≠ .init) (hs : s.step op = .ok s') :
    s.taskCount ≤ s'.taskCount := by
  cases hc : op.creates with
  | false => exact Nat.le_of_eq (step_keeps hc hi ht hs).taskCount.symm
  | true =>
      rcases step_built hc ht hs with rfl | ⟨slot, child, parent, n, e, frames, _, _, _, rfl⟩
      · exact Nat.le_refl _
      · exact Nat.le_max_left _ _

/-- `exec` keeps the state and the id of every task. -/
theorem execImage_task (s : Sched) (stackPhys : Nat → Nat) (elf : ElfResult) (j : Nat) :
    ((s.execImage stackPhys elf).tasks j).state = (s.tasks j).state ∧
      ((s.execImage stackPhys elf).tasks j).id = (s.tasks j).id := by
  unfold execImage execForget execDrop mapUserStackPages trackElfPages
  simp only [modify_tasks, modify_currentIdx]
  split <;> exact ⟨rfl, rfl⟩

/-- Steps of the current task that leave the states of all tasks alone. -/
theorem Sound.goto (h : Sound m) {ph : Phase} {trap : Nat → Nat} (ht : Table s')
    (hs : ∀ j, (s'.tasks j).state = (m.sched.tasks j).state) (hn : s'.taskCount = m.sched.taskCount)
    (hph : ph.slot = none) :
    Sound { sched := s', phase := set m.phase m.sched.currentIdx ph, trap := trap } := by
  refine ⟨ht, fun p k hp hk => ?_⟩
  dsimp only at hp hk ⊢
  rw [hs] at hp
  rw [hn]
  by_cases hpc : p = m.sched.currentIdx
  · rw [hpc, set_self, hph] at hk
    contradiction
  · rw [set_of_ne _ _ hpc] at hk
    exact h.slots p k hp hk

/-- A whole operation. -/
theorem Sound.sys (h : Sound m) (hi : op ≠ .init) (hs : m.sched.step op = .ok s') :
    Sound { m with
      sched := s', phase := m.settle (if op.creates then m.sched.findSlot.1 else none) } := by
  refine ⟨step_table h.table hs, fun p k hp hk => ?_⟩
  dsimp only at hp hk ⊢
  have hcount := sys_taskCount h.table hi hs
  have hold : m.settle (if op.creates then m.sched.findSlot.1 else none) p = m.phase p ∧
      (m.sched.tasks p).state ≠ .dead := by
    rcases settle_cases m (if op.creates then m.sched.findSlot.1 else none) p with ⟨_, hu⟩ | hsame
    · rw [hu] at hk
      contradiction
    · refine ⟨hsame, ?_⟩
      rcases sys_live h.table hi hs hp with hl | ⟨hc, hborn⟩
      · exact hl
      · rw [if_pos hc, hborn] at hk
        change (set m.phase p .user p).slot = some k at hk
        rw [set_self] at hk
        contradiction
  rw [hold.1] at hk
  obtain ⟨hlt, hne⟩ := h.slots p k hold.2 hk
  exact ⟨by omega, hne⟩

/-- A part of a call. -/
theorem Sound.part (h : Sound m) {op : PartOp} {ph' : Phase}
    (hadv : m.sched.advance (m.phase m.sched.currentIdx) op = (s', ph')) :
    Sound { m with
      sched := s',
      phase :=
        set (m.settle ((m.phase m.sched.currentIdx).births op)) m.sched.currentIdx ph' } := by
  have hok := advance_ok m.sched (m.phase m.sched.currentIdx) op
  rw [hadv] at hok
  dsimp only at hok
  have hother : ∀ p, p ≠ m.sched.currentIdx → (s'.tasks p).state ≠ .dead → ∀ k,
      (m.settle ((m.phase m.sched.currentIdx).births op) p).slot = some k →
      k < m.sched.taskCount ∧ k ≠ p := by
    intro p _ hp k hk
    rcases settle_cases m ((m.phase m.sched.currentIdx).births op) p with ⟨_, hu⟩ | hsame
    · rw [hu] at hk
      contradiction
    · rw [hsame] at hk
      rcases hok.live hp with hl | hborn
      · exact h.slots p k hl hk
      · rw [hborn] at hsame
        change set m.phase p .user p = m.phase p at hsame
        rw [set_self] at hsame
        rw [← hsame] at hk
        contradiction
  have hself := h.slots m.sched.currentIdx
  have hcur := h.table.cur_live
  cases hok with
  | found slot _ _ hnone hv hslot =>
      refine ⟨h.table.grow hv, fun p k hp hk => ?_⟩
      dsimp only at hp hk ⊢
      change k < max m.sched.taskCount (slot + 1) ∧ k ≠ p
      by_cases hpc : p = m.sched.currentIdx
      · rw [hpc, set_self, hslot, Option.some.injEq] at hk
        rw [← hk, hpc]
        exact ⟨by omega, (hv.ne h.table.cur_lt hcur).symm⟩
      · rw [set_of_ne _ _ hpc] at hk
        obtain ⟨hlt, hne⟩ := hother p hpc hp k hk
        exact ⟨by omega, hne⟩
  | worked slot _ _ hold hnew hw _ =>
      obtain ⟨hlt, hne⟩ := hself slot hcur hold
      refine ⟨h.table.worked hw hlt hne, fun p k hp hk => ?_⟩
      dsimp only at hp hk ⊢
      rw [hw.taskCount]
      by_cases hpc : p = m.sched.currentIdx
      · rw [hpc, set_self] at hk
        rcases hnew with hn | hn
        · rw [hn] at hk
          contradiction
        · rw [hn, Option.some.injEq] at hk
          rw [← hk, hpc]
          exact ⟨hlt, hne⟩
      · rw [set_of_ne _ _ hpc] at hk
        exact hother p hpc hp k hk
  | framed frames _ hnew =>
      refine ⟨h.table.congr rfl rfl (fun _ => rfl) fun _ => rfl, fun p k hp hk => ?_⟩
      dsimp only at hp hk ⊢
      by_cases hpc : p = m.sched.currentIdx
      · rw [hpc, set_self, hnew] at hk
        contradiction
      · rw [set_of_ne _ _ hpc] at hk
        exact hother p hpc hp k hk

/-- **The table** stays sound under every interleaving. -/
theorem step_sound {op : CallOp} (h : Sound m) (hl : Legal m op) (hs : m.step op = .ok m') :
    Sound m' := by
  have hsame : Table m.sched := h.table
  cases step_moved hs with
  | idle => exact h
  | sys op s' hstep =>
      refine h.sys ?_ hstep
      rintro rfl
      exact hl
  | pushed => exact h.goto (hsame.congr rfl rfl (fun _ => rfl) fun _ => rfl) (fun _ => rfl) rfl rfl
  | stored => exact h.goto (hsame.congr rfl rfl (fun _ => rfl) fun _ => rfl) (fun _ => rfl) rfl rfl
  | part op s' ph' hadv => exact h.part hadv
  | image stackPhys elf _ =>
      refine h.goto (hsame.congr rfl rfl (fun j => ?_) fun j => ?_) (fun j => ?_) rfl rfl
      · exact (execImage_task m.sched stackPhys elf j).1
      · exact (execImage_task m.sched stackPhys elf j).2
      · exact (execImage_task m.sched stackPhys elf j).1
  | failed out s' hstep =>
      have hne : Op.exec out ≠ .init := by simp
      have hk := step_keeps rfl hne hsame hstep
      refine ⟨step_table hsame hstep, fun p k hp hpk => ?_⟩
      dsimp only at hp hpk ⊢
      rw [hk.taskCount]
      by_cases hpc : p = m.sched.currentIdx
      · rw [hpc, set_self] at hpk
        contradiction
      · rw [set_of_ne _ _ hpc] at hpk
        exact h.slots p k (fun hd => hp (hk.dead p hd)) hpk
  | refused => exact h.goto hsame (fun _ => rfl) rfl rfl
  | iret => exact h.goto (hsame.congr rfl rfl (fun _ => rfl) fun _ => rfl) (fun _ => rfl) rfl rfl

end CallSys

end Doors
