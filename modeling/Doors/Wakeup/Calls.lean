import Doors.Wakeup

/-!
# Doors.Wakeup.Calls

Whom the end of a task wakes.

`waitpid` and `SYS_EXECMOD` write the number of their caller's slot to
`unblockOnExit` of a child, and nothing takes it back when the caller goes on:
another child wakes it first, or a signal.  `CalledSys` numbers the calls and
remembers which of them wrote to a slot.

* `Rightly` — a task that a death would wake is in the call that asked for it;
* `wakes_caller_iff` — so it is in a run in which no task blocks while its slot
  is still named by an earlier call;
* `wakes_stranger` — `waitpid` for two children, the end of the first, and the
  second cuts a later `SYS_EXECMOD` short.
-/

namespace Doors

open Cells Run Scheduler

/-- The system with its calls numbered. -/
structure CalledSys extends WakeSys where
  calls : Nat := 0
  /-- The last call of a task in the slot. -/
  call : Nat → Nat := fun _ => 0
  /-- The call that wrote `unblockOnExit` of the slot. -/
  setter : Nat → Nat := fun _ => 0

/-- The first steps of the two calls. -/
def WakeOp.begins : WakeOp → Bool
  | .waitpid _ | .execMod _ _ _ _ => true
  | _ => false

/-- The steps of the current task itself, which is not BLOCKED then.  A task
that is BLOCKED stays in a loop of `hlt`. -/
def WakeOp.own : WakeOp → Bool
  | .sys .pitTick | .sys (.tick _ _ _) | .sys (.unblockTask _) | .sys (.sendSignal _ _) | .sys
      (.killTask _) => false
  | .resume => false
  | _ => true

/-- The task is in the wait loop of one of the calls. -/
def Pc.waits : Pc → Bool
  | .waiting | .attending _ => true
  | _ => false

namespace Sched

/-! ## registrations -/

variable {s s' s₀ : Sched} {op : Op}

/-- Every registration of `s'` is one of `s`. -/
def Unnaming (s s' : Sched) : Prop :=
  ∀ t, (s'.tasks t).unblockOnExit = (s.tasks t).unblockOnExit ∨ (s'.tasks t).unblockOnExit = -1

theorem Unnaming.refl (s : Sched) : Unnaming s s := fun _ => .inl rfl

/-- A change that keeps or clears a registration. -/
theorem Unnaming.modify {i : Nat} {f : Task → Task} (h : Unnaming s₀ s)
    (hf : ∀ t, (f t).unblockOnExit = t.unblockOnExit ∨ (f t).unblockOnExit = -1) :
    Unnaming s₀ (s.modify i f) := by
  intro t
  rw [modify_tasks]
  split
  · rcases hf (s.tasks t) with he | he
    · rw [he]
      exact h t
    · exact .inr he
  · exact h t

/-- The record updates of the slots do not write `unblockOnExit`. -/
theorem Unnaming.update {i : Nat} {f : Task → Task} (h : Unnaming s₀ s)
    (hf : ∀ t, (f t).unblockOnExit = t.unblockOnExit) : Unnaming s₀ (s.modify i f) :=
  h.modify fun t => .inl (hf t)

/-- A new task is registered nowhere. -/
theorem Unnaming.initProcessFields (h : Unnaming s₀ s) (i : Nat) :
    Unnaming s₀ (s.initProcessFields i) := by
  unfold Sched.initProcessFields
  apply Unnaming.update
  · apply Unnaming.update
    · exact h
    · exact fun _ => rfl
  · exact fun _ => rfl

/-- The last part of `addTask`. -/
theorem Unnaming.finishTask (h : Unnaming s₀ s) (slot entry stack : Nat) :
    Unnaming s₀ (s.finishTask slot entry stack) := by
  unfold Sched.finishTask
  apply Unnaming.update
  · apply Unnaming.initProcessFields
    apply Unnaming.update
    · exact h
    · exact fun _ => rfl
  · exact fun _ => rfl

/-- The pages of a new task. -/
theorem Unnaming.trackElfPages (h : Unnaming s₀ s) (i : Nat) (elf : ElfResult) :
    Unnaming s₀ (s.trackElfPages i elf) := by
  unfold Sched.trackElfPages
  apply Unnaming.update h
  exact fun _ => rfl

/-- The last part of `addUserElfTask`. -/
theorem Unnaming.finishElfTask (h : Unnaming s₀ s) (slot stack : Nat) (elf : ElfResult) :
    Unnaming s₀ (s.finishElfTask slot stack elf) := by
  unfold Sched.finishElfTask
  apply Unnaming.trackElfPages
  apply Unnaming.update
  · apply Unnaming.initProcessFields
    apply Unnaming.update
    · exact h
    · exact fun _ => rfl
  · exact fun _ => rfl

/-- The FPU part of `fork`. -/
theorem Unnaming.forkFpu (h : Unnaming s₀ s) (parent slot : Nat) :
    Unnaming s₀ (s.forkFpu parent slot) := by
  unfold Sched.forkFpu
  split
  · apply Unnaming.update
    · split
      · apply Unnaming.update h
        exact fun _ => rfl
      · exact h
    · exact fun _ => rfl
  · apply Unnaming.update h
    exact fun _ => rfl

/-- A child is listed. -/
theorem Unnaming.addChild (h : Unnaming s₀ s) (parent pid : Nat) :
    Unnaming s₀ (s.addChild parent pid) := by
  unfold Sched.addChild
  apply Unnaming.update h
  intro t
  split <;> rfl

/-- The last part of `fork`. -/
theorem Unnaming.finishFork (h : Unnaming s₀ s) (parent slot stack : Nat) :
    Unnaming s₀ (s.finishFork parent slot stack) := by
  unfold Sched.finishFork
  apply Unnaming.addChild
  apply Unnaming.forkFpu
  apply Unnaming.update
  · exact h
  · exact fun _ => rfl

/-- A creation writes no slot number. -/
theorem create_unnaming (hop : op.creates = true) (hs : s.step op = .ok s') : Unnaming s s' := by
  have hgrow : ∀ slot, Unnaming s (s.grow slot) := fun _ => .refl s
  cases op with
  | addTask named entry pageDir priority stack =>
      simp only [step, Except.ok.injEq] at hs
      rw [← hs]
      unfold addTask
      split
      · exact .refl s
      · rcases findSlot_cases s with hf | ⟨slot, hf⟩
        · rw [hf]
          exact .refl s
        · rw [hf]
          dsimp only
          have hclear : Unnaming s ((s.grow slot).clearSlot slot pageDir priority) := by
            unfold clearSlot
            refine .update (hgrow slot) ?_
            exact fun _ => rfl
          split
          · exact hclear
          · exact hclear.finishTask slot entry stack
  | addUserElfTask stack stackPhys dir elf =>
      simp only [step, Except.ok.injEq] at hs
      rw [← hs]
      unfold addUserElfTask
      rcases findSlot_cases s with hf | ⟨slot, hf⟩
      · rw [hf]
        exact .refl s
      · rw [hf]
        dsimp only
        have hreset : Unnaming s (((s.grow slot).resetSlot slot).modify slot fun t =>
            { t with priority := Task.priorityNormal }) := by
          refine .update (.modify (hgrow slot) fun _ => .inr rfl) ?_
          exact fun _ => rfl
        split
        · exact hreset
        · cases stackPhys with
          | none => exact hreset
          | some phys =>
              have hdir : Unnaming s (((((s.grow slot).resetSlot slot).modify slot fun t =>
                  { t with priority := Task.priorityNormal }).mapUserStackPages slot
                    phys).setPageDir slot dir) := by
                unfold setPageDir mapUserStackPages
                refine .update (.update hreset ?_) ?_
                · exact fun _ => rfl
                · exact fun _ => rfl
              dsimp only
              split
              · exact hdir
              · cases elf with
                | none => exact hdir
                | some elf => exact hdir.finishElfTask slot stack elf
  | fork stack dir =>
      simp only [step, Except.ok.injEq] at hs
      rw [← hs]
      unfold fork
      split
      · exact .refl s
      · rcases findSlot_cases s with hf | ⟨slot, hf⟩
        · rw [hf]
          exact .refl s
        · rw [hf]
          dsimp only
          have hreset : Unnaming s ((s.grow slot).resetSlot slot) :=
            (hgrow slot).modify fun _ => .inr rfl
          split
          · exact hreset
          · have hdir : Unnaming s
                ((((s.grow slot).resetSlot slot).copyFrame stack).setPageDir slot dir) := by
              unfold setPageDir
              refine .update hreset ?_
              exact fun _ => rfl
            split
            · exact hdir
            · exact hdir.finishFork _ slot stack
  | init | exec | pitTick | tick | sleep | blockCurrentTask | unblockTask | sendSignal | killTask
  | exitCurrentTask | setUnblockOnExit | waitpid | waitpidResume | deliverSignals | fpu =>
      contradiction

/-- A creation blocks nobody. -/
theorem built_blocked {slot n e j : Nat} {child parent : Task} {frames : Nat → TrapFrame}
    (hchild : child.state ≠ .blocked) (hparent : parent.state = s.cur.state)
    (hb : ((s.built slot child parent n e frames).tasks j).state = .blocked) :
    (s.tasks j).state = .blocked := by
  by_cases hj : j = slot
  · rw [hj, built_slot] at hb
    exact absurd hb hchild
  · by_cases hc : j = s.currentIdx
    · subst hc
      rw [built_cur hj, hparent] at hb
      exact hb
    · rw [built_other hj hc] at hb
      exact hb

/-- A creation blocks nobody. -/
theorem create_blocked (hop : op.creates = true) (h : Table s) (hs : s.step op = .ok s') {j : Nat}
    (hb : (s'.tasks j).state = .blocked) : (s.tasks j).state = .blocked := by
  have hready : ∀ {slot t}, Newborn s slot t → t.state ≠ .blocked :=
    fun hnew => by simp [hnew.state]
  have hdead : ∀ {t}, Discarded t → t.state ≠ .blocked := fun hd => by simp [hd.state]
  cases op with
  | addTask named entry pageDir priority stack =>
      simp only [step, Except.ok.injEq] at hs
      rw [← hs] at hb
      rcases addTask_ok s named entry pageDir priority stack with
        he | ⟨_, slot, hv, ⟨_, he⟩ | ⟨_, t, frames, hnew, _, he⟩⟩
      · rw [he] at hb
        exact hb
      · rw [he] at hb
        refine built_blocked ?_ rfl hb
        change (s.tasks slot).state ≠ .blocked
        simp [hv.dead h]
      · rw [he] at hb
        exact built_blocked (hready hnew) rfl hb
  | addUserElfTask stack stackPhys dir elf =>
      simp only [step, Except.ok.injEq] at hs
      rw [← hs] at hb
      rcases addUserElfTask_ok s stack stackPhys dir elf with
        he | ⟨slot, hv, ⟨_, t, hd, he⟩ | ⟨_, t, e, frames, hnew, _, he⟩⟩
      · rw [he] at hb
        exact hb
      · rw [he] at hb
        exact built_blocked (hdead hd) rfl hb
      · rw [he] at hb
        exact built_blocked (hready hnew) rfl hb
  | fork stack dir =>
      simp only [step, Except.ok.injEq] at hs
      rw [← hs] at hb
      rcases fork_ok s stack dir h.cur_lt h.cur_live with
        he | ⟨_, _, slot, hv, _, ⟨_, t, frames, hd, he⟩ | ⟨_, _, t, frames, hnew, _, _, he⟩⟩
      · rw [he] at hb
        exact hb
      · rw [he] at hb
        exact built_blocked (hdead hd) rfl hb
      · rw [he] at hb
        obtain ⟨cs, fs, hforked⟩ := forked_eq s s.cur
        exact built_blocked (hready hnew) (by rw [hforked]) hb
  | init | exec | pitTick | tick | sleep | blockCurrentTask | unblockTask | sendSignal | killTask
  | exitCurrentTask | setUnblockOnExit | waitpid | waitpidResume | deliverSignals | fpu =>
      contradiction

/-! ## names -/

variable {t : Task} {i j p : Nat}

/-- Without a registration nobody is named. -/
theorem not_names (ht : t.unblockOnExit = -1) (hj : j < maxTasks) : ¬ t.Names j := by
  have : maxTasks = 8 := rfl
  unfold Task.Names uchar
  rw [ht]
  omega

/-- A slot number is read back by both ways to end. -/
theorem names_slot (ht : t.unblockOnExit = p) (hp : p < maxTasks) (hn : t.Names j) : j = p := by
  have : maxTasks = 8 := rfl
  unfold Task.Names uchar at hn
  rw [ht] at hn
  omega

/-- The registration says who is named. -/
theorem names_congr {t' : Task} (h : t'.unblockOnExit = t.unblockOnExit) :
    t'.Names j ↔ t.Names j := by
  unfold Task.Names
  rw [h]

end Sched

namespace CalledSys

open Sched

/-! ## steps -/

def start (s : Sched) : CalledSys := { toWakeSys := .start s }

/-- The step writes the number of the current slot to slot `t`. -/
def registers (m : WakeSys) (op : WakeOp) (t : Nat) : Bool :=
  match op, m.pc m.sched.currentIdx with
  | .register, .registering (pid :: _) =>
      decide (t < m.sched.taskCount ∧ (m.sched.tasks t).pid = pid ∧ (m.sched.tasks t).state ≠ .dead)
  | .announce, .launched child => decide (t = child ∧ t < m.sched.taskCount)
  | _, _ => false

/-- One step. -/
def step (m : CalledSys) (op : WakeOp) : Except Fault CalledSys := do
  let w ← m.toWakeSys.step op
  .ok {
    toWakeSys := w
    calls := if op.begins then m.calls + 1 else m.calls
    call := if op.begins then set m.call m.sched.currentIdx (m.calls + 1) else m.call
    setter := fun t => if registers m.toWakeSys op t then m.call m.sched.currentIdx
      else m.setter t }

/-- Programs: the scheduler is initialised once, the parts of the two calls are
run in the calls only, and a task in one of them does nothing else. -/
def Legal (m : CalledSys) (o : WakeOp) : Prop :=
  (o.own = true → m.sched.cur.state ≠ .blocked) ∧
    match o with
    | .sys .init | .sys (.setUnblockOnExit _ _) | .sys (.waitpid _) | .sys .waitpidResume => False
    | .sys op => WakeOp.own (.sys op) = true → m.pc m.sched.currentIdx = .free
    | .waitpid _ | .execMod _ _ _ _ => m.pc m.sched.currentIdx = .free
    | _ => True

/-- The step makes the current task BLOCKED. -/
def blocks (m : WakeSys) (op : WakeOp) : Bool :=
  match op, m.pc m.sched.currentIdx with
  | .sys op, _ => op.blocks
  | .block, .registering [] | .block, .announced _ => true
  | _, _ => false

/-- The current task does not block while another call than the one it is in
names its slot. -/
def Clear (m : CalledSys) (o : WakeOp) : Prop :=
  blocks m.toWakeSys o = true → ∀ t < maxTasks, (m.sched.tasks t).Names m.sched.currentIdx →
    m.pc m.sched.currentIdx ≠ .free ∧ m.setter t = m.call m.sched.currentIdx

/-- The steps of the runs in which deaths wake callers only. -/
def Tidy (m : CalledSys) (o : WakeOp) : Prop := Legal m o ∧ Clear m o

/-- If slot `j` is BLOCKED, a task that would wake it names it in the call in
which it waits. -/
def RightAt (m : CalledSys) (j : Nat) : Prop :=
  (m.sched.tasks j).state = .blocked → ∀ i < maxTasks, (m.sched.tasks i).Names j →
    (m.pc j).waits = true ∧ m.setter i = m.call j

/-- Whoever dies next wakes a caller. -/
def Rightly (m : CalledSys) : Prop := ∀ j, RightAt m j

instance (m : CalledSys) (o : WakeOp) : Decidable (Legal m o) := by
  match o with
  | .sys op => apply @Op.casesOn _ op <;> intros <;> unfold Legal <;> infer_instance
  | .waitpid _ | .register | .execMod .. | .announce | .block | .resume =>
      unfold Legal; infer_instance

instance (m : CalledSys) (o : WakeOp) : Decidable (Clear m o) := by
  unfold Clear
  infer_instance

instance (m : CalledSys) (o : WakeOp) : Decidable (Tidy m o) := inferInstanceAs (Decidable (_ ∧ _))

/-! ## one step -/

variable {m m' : CalledSys} {w : WakeSys} {o : WakeOp} {s s' : Sched} {op : Op}

/-- What a step does to states and registrations. -/
structure Part (m : WakeSys) (o : WakeOp) (w : WakeSys) : Prop where
  table : Table w.sched
  blocked : ∀ j, (w.sched.tasks j).state = .blocked →
    (m.sched.tasks j).state = .blocked ∧ w.pc j = m.pc j ∨
    blocks m o = true ∧ j = m.sched.currentIdx
  written : ∀ t, registers m o t = true → (w.sched.tasks t).unblockOnExit = m.sched.currentIdx
  kept : ∀ t, registers m o t = false → (w.sched.tasks t).unblockOnExit =
    (m.sched.tasks t).unblockOnExit ∨
    blocks m o = false ∧ (w.sched.tasks t).unblockOnExit = -1
  waits : blocks m o = true → (w.sched.tasks m.sched.currentIdx).state = .blocked ∧
    ((w.pc m.sched.currentIdx).waits = true ↔ m.pc m.sched.currentIdx ≠ .free)

/-- A step that touches neither states nor registrations, except that the
current task goes on at `pc`. -/
theorem Part.goto {m : WakeSys} {s' : Sched} (ht : Table s') (hcur : m.sched.cur.state ≠ .blocked)
    (hstate : ∀ j, (s'.tasks j).state = .blocked → (m.sched.tasks j).state = .blocked)
    (hwritten : ∀ t, registers m o t = true → (s'.tasks t).unblockOnExit = m.sched.currentIdx)
    (hkept : ∀ t, registers m o t = false → (s'.tasks t).unblockOnExit =
    (m.sched.tasks t).unblockOnExit)
    (hno : blocks m o = false) (pc : Pc) :
    Part m o { sched := s', pc := set m.pc m.sched.currentIdx pc } where
  table := ht
  blocked := by
    intro j hb
    have hold := hstate j hb
    refine .inl ⟨hold, set_of_ne _ _ ?_⟩
    rintro rfl
    exact hcur hold
  written := hwritten
  kept := fun t ht => .inl (hkept t ht)
  waits := by simp [hno]

/-- A step that does nothing. -/
theorem Part.refl {m : WakeSys} (ht : Table m.sched) (hno : blocks m o = false)
    (hreg : ∀ t, registers m o t = false) :
    Part m o m where
  table := ht
  blocked := fun _ hb => .inl ⟨hb, rfl⟩
  written := by simp [hreg]
  kept := fun _ _ => .inl rfl
  waits := by simp [hno]

/-- Reaping touches a list of children only. -/
theorem Part.reaped {m : WakeSys} {i : Nat} (ht : Table m.sched)
    (hcur : m.sched.cur.state ≠ .blocked)
    (hno : blocks m o = false) (hreg : ∀ t, registers m o t = false) (pc : Pc) :
    Part m o
      { sched := m.sched.modify m.sched.currentIdx fun t =>
          { t with children := removeChild t.children i }
        pc := set m.pc m.sched.currentIdx pc } := by
  have hsame : ∀ j, ((m.sched.modify m.sched.currentIdx fun t =>
      { t with children := removeChild t.children i }).tasks j).state = (m.sched.tasks j).state ∧
      ((m.sched.modify m.sched.currentIdx fun t =>
        { t with children := removeChild t.children i }).tasks j).unblockOnExit =
          (m.sched.tasks j).unblockOnExit := by
    intro j
    rw [modify_tasks]
    split <;> exact ⟨rfl, rfl⟩
  refine .goto (ht.modify _ ?_) hcur (fun j hb => ?_) (by simp [hreg]) (fun t _ => ?_) hno pc
  · exact fun _ => ⟨rfl, rfl⟩
  · rw [(hsame j).1] at hb
    exact hb
  · exact (hsame t).2

/-- The first half of `waitpid`. -/
theorem waitpid_part {status : Nat} (ht : Table m.sched) (hl : Legal m (.waitpid status))
    (hs : m.toWakeSys.step (.waitpid status) = .ok w) : Part m.toWakeSys (.waitpid status) w := by
  have hcur := hl.1 rfl
  have hfree : m.pc m.sched.currentIdx = .free := hl.2
  have hno : blocks m.toWakeSys (.waitpid status) = false := by simp [blocks]
  have hreg : ∀ t, registers m.toWakeSys (.waitpid status) t = false := by simp [registers]
  unfold WakeSys.step at hs
  dsimp only at hs
  split at hs
  · simp only [Except.ok.injEq] at hs
    rw [← hs]
    exact .refl ht hno hreg
  · rcases reapDeadChild_ok m.sched m.sched.currentIdx with ⟨_, hr⟩ | ⟨i, pid, t, _, _, hr⟩
    · rw [hr] at hs
      dsimp only at hs
      split at hs
      · simp only [Except.ok.injEq] at hs
        rw [← hs]
        exact .refl ht hno hreg
      · simp only [Except.ok.injEq] at hs
        rw [← hs]
        exact .goto ht hcur (fun _ hb => hb) (by simp [hreg]) (fun _ _ => rfl) hno _
    · rw [hr] at hs
      simp only [Except.ok.injEq] at hs
      rw [← hs]
      have hreaped := Part.reaped (i := i) ht hcur hno hreg .free
      rw [set_eq_self hfree] at hreaped
      exact hreaped

/-- One round of the loop over the children. -/
theorem register_part (ht : Table m.sched) (hl : Legal m .register)
    (hs : m.toWakeSys.step .register = .ok w) :
    Part m.toWakeSys .register w := by
  have hcur := hl.1 rfl
  have hlt := Nat.lt_of_lt_of_le ht.cur_lt ht.count_le
  have hno : blocks m.toWakeSys .register = false := by simp [blocks]
  unfold WakeSys.step at hs
  dsimp only at hs
  split at hs
  · next pid rest hpc =>
      simp only [Except.ok.injEq] at hs
      rw [← hs]
      have htask := WakeSys.registerChild_tasks m.sched pid m.sched.currentIdx
      have heff : Effect m.sched .waitpidResume m.sched
          (m.sched.registerChild pid m.sched.currentIdx) :=
        registerChild_effect rfl pid m.sched.currentIdx
      have hreg : ∀ t, registers m.toWakeSys .register t =
          decide (t < m.sched.taskCount ∧ (m.sched.tasks t).pid = pid ∧
            (m.sched.tasks t).state ≠ .dead) := by
        intro t
        simp only [registers, hpc]
      refine .goto (heff.table ht) hcur (fun j hb => ?_) (fun t hw => ?_) (fun t hw => ?_) hno _
      · rw [htask] at hb
        exact hb
      · rw [hreg, decide_eq_true_eq] at hw
        rw [htask]
        dsimp only
        rw [if_pos hw, WakeSys.int8_slot hlt]
      · rw [hreg, decide_eq_false_iff_not] at hw
        rw [htask]
        exact if_neg hw
  · next hpc =>
      simp only [Except.ok.injEq] at hs
      rw [← hs]
      refine .refl ht hno fun t => ?_
      unfold registers
      split
      · exact absurd ‹_› (hpc _ _)
      · contradiction
      · rfl

/-- A creation, and the program counter of the new task. -/
theorem born_part {m : WakeSys} (ht : Table m.sched) (hop : op.creates = true)
    (hno : blocks m o = false)
    (hreg : ∀ t, registers m o t = false) (hs : m.sched.step op = .ok s') :
    Part m o { sched := s', pc := m.bornPc } where
  table := step_table ht hs
  blocked := by
    intro j hb
    have hold := create_blocked hop ht hs hb
    refine .inl ⟨hold, ?_⟩
    unfold WakeSys.bornPc
    rcases findSlot_cases m.sched with hnone | ⟨slot, hv⟩
    · rw [hnone]
    · rw [hv.fst]
      refine set_of_ne _ _ ?_
      rintro rfl
      rw [hv.dead ht] at hold
      contradiction
  written := by simp [hreg]
  kept := by
    intro t _
    rcases create_unnaming hop hs t with h | h
    · exact .inl h
    · exact .inr ⟨hno, h⟩
  waits := by simp [hno]

/-- `SYS_EXECMOD` creates its task. -/
theorem execMod_part {stack dir : Nat} {stackPhys : Option (Nat → Nat)} {elf : Option ElfResult}
    (ht : Table m.sched) (hl : Legal m (.execMod stack stackPhys dir elf))
    (hs : m.toWakeSys.step (.execMod stack stackPhys dir elf) = .ok w) :
    Part m.toWakeSys (.execMod stack stackPhys dir elf) w := by
  have hcur := hl.1 rfl
  have hfree : m.pc m.sched.currentIdx = .free := hl.2
  have hno : blocks m.toWakeSys (.execMod stack stackPhys dir elf) = false := by simp [blocks]
  have hreg : ∀ t, registers m.toWakeSys (.execMod stack stackPhys dir elf) t = false := by
    simp [registers]
  have hcreate : m.sched.step (.addUserElfTask stack stackPhys dir elf) =
      .ok (m.sched.addUserElfTask stack stackPhys dir elf).2 := rfl
  have hcreates : Op.creates (.addUserElfTask stack stackPhys dir elf) = true := rfl
  have hborn := born_part ht hcreates hno hreg hcreate
  unfold WakeSys.step at hs
  dsimp only at hs
  split at hs
  · next s' he =>
      simp only [Except.ok.injEq] at hs
      rw [← hs]
      rw [he] at hborn
      exact hborn
  · next slot s' he =>
      simp only [Except.ok.injEq] at hs
      rw [← hs]
      rw [he] at hborn
      have hidx : s'.currentIdx = m.sched.currentIdx := by
        rcases addUserElfTask_ok m.sched stack stackPhys dir elf with
          hadd | ⟨_, _, ⟨_, _, _, hadd⟩ | ⟨_, _, _, _, _, _, hadd⟩⟩
        · simp [hadd] at he
        · simp [hadd] at he
        · rw [hadd, Prod.mk.injEq] at he
          rw [← he.2]
          rfl
      refine ⟨hborn.table, fun j hb => ?_, hborn.written, hborn.kept, by simp [hno]⟩
      rcases hborn.blocked j hb with ⟨hold, hpc⟩ | h
      · refine .inl ⟨hold, (set_of_ne _ _ ?_).trans hpc⟩
        rintro rfl
        dsimp only at hold
        rw [hidx] at hold
        exact hcur hold
      · exact .inr h

/-- Where a registration goes. -/
theorem setUnblockOnExit_tasks (s : Sched) (child : Nat) {p : Nat} (hp : p < maxTasks) (t : Nat) :
    (s.setUnblockOnExit child p).tasks t = { s.tasks t with
      unblockOnExit := if t = child ∧ t < s.taskCount then (p : Int)
        else (s.tasks t).unblockOnExit } := by
  unfold setUnblockOnExit
  rw [Int.toNat_natCast, WakeSys.int8_slot hp]
  by_cases hc : t = child ∧ t < s.taskCount
  · obtain ⟨rfl, hlt⟩ := hc
    rw [if_pos ⟨Int.natCast_nonneg t, Int.ofNat_lt.mpr hlt⟩, modify_tasks, if_pos rfl,
      if_pos ⟨rfl, hlt⟩]
  · rw [if_neg hc]
    split
    · next hlt =>
        rw [modify_tasks, if_neg]
        rintro rfl
        exact hc ⟨rfl, Int.ofNat_lt.mp hlt.2⟩
    · rfl

/-- `SYS_EXECMOD` names its waiter. -/
theorem announce_part (ht : Table m.sched) (hl : Legal m .announce)
    (hs : m.toWakeSys.step .announce = .ok w) :
    Part m.toWakeSys .announce w := by
  have hcur := hl.1 rfl
  have hlt := Nat.lt_of_lt_of_le ht.cur_lt ht.count_le
  have hno : blocks m.toWakeSys .announce = false := by simp [blocks]
  unfold WakeSys.step at hs
  dsimp only at hs
  split at hs
  · next child hpc =>
      simp only [Except.ok.injEq] at hs
      rw [← hs]
      have hreg : ∀ t, registers m.toWakeSys .announce t =
          decide (t = child ∧ t < m.sched.taskCount) := by
        intro t
        simp only [registers, hpc]
      have htask := setUnblockOnExit_tasks m.sched child hlt
      have hidx : (m.sched.setUnblockOnExit child m.sched.currentIdx).currentIdx =
          m.sched.currentIdx := by
        unfold setUnblockOnExit
        split <;> rfl
      have hset : m.sched.step (.setUnblockOnExit child m.sched.currentIdx) =
          .ok (m.sched.setUnblockOnExit child m.sched.currentIdx) := rfl
      have htable := step_table ht hset
      unfold WakeSys.goto
      dsimp only
      rw [hidx]
      refine .goto htable hcur (fun j hb => ?_) (fun t hw => ?_) (fun t hw => ?_) hno _
      · rw [htask] at hb
        exact hb
      · rw [hreg, decide_eq_true_eq] at hw
        rw [htask]
        exact if_pos hw
      · rw [hreg, decide_eq_false_iff_not] at hw
        rw [htask]
        exact if_neg hw
  · next hpc =>
      simp only [Except.ok.injEq] at hs
      rw [← hs]
      refine .refl ht hno fun t => ?_
      unfold registers
      split
      · contradiction
      · exact absurd ‹_› (hpc _)
      · rfl

/-- The current task blocks. -/
theorem Part.block {m : WakeSys} {pc : Pc} (ht : Table m.sched)
    (hs : m.sched.blockCurrentTaskAndYield = .ok s')
    (hreg : ∀ t, registers m o t = false) (hblocks : blocks m o = true)
    (hfree : m.pc m.sched.currentIdx ≠ .free)
    (hwaits : pc.waits = true) :
    Part m o { sched := s', pc := set m.pc m.sched.currentIdx pc } := by
  obtain ⟨_, rfl⟩ := blockOr_ok hs
  have heff : Effect m.sched .blockCurrentTask m.sched
      (m.sched.modify m.sched.currentIdx fun t => { t with state := .blocked }) :=
        .block rfl (.inl rfl)
  refine ⟨heff.table ht, fun j hb => ?_, by simp [hreg], fun t _ => .inl ?_, fun _ => ⟨?_, ?_⟩⟩
  · by_cases hj : j = m.sched.currentIdx
    · exact .inr ⟨hblocks, hj⟩
    · rw [modify_tasks, if_neg hj] at hb
      exact .inl ⟨hb, set_of_ne _ _ hj⟩
  · rw [modify_tasks]
    split <;> rfl
  · rw [modify_tasks, if_pos rfl]
  · dsimp only
    rw [set_self]
    exact iff_of_true hwaits hfree

/-- The step that blocks. -/
theorem block_part (ht : Table m.sched) (hs : m.toWakeSys.step .block = .ok w) :
    Part m.toWakeSys .block w := by
  have hreg : ∀ t, registers m.toWakeSys .block t = false := by simp [registers]
  unfold WakeSys.step at hs
  dsimp only at hs
  split at hs
  · next hpc =>
      rw [bind_eq_ok] at hs
      obtain ⟨s', hb, hs⟩ := hs
      simp only [Except.ok.injEq] at hs
      rw [← hs]
      have hidx : s'.currentIdx = m.sched.currentIdx := by
        obtain ⟨_, rfl⟩ := blockOr_ok hb
        rfl
      unfold WakeSys.goto
      dsimp only
      rw [hidx]
      exact .block ht hb hreg (by simp [blocks, hpc]) (by simp [hpc]) rfl
  · next child hpc =>
      rw [bind_eq_ok] at hs
      obtain ⟨s', hb, hs⟩ := hs
      simp only [Except.ok.injEq] at hs
      rw [← hs]
      have hidx : s'.currentIdx = m.sched.currentIdx := by
        obtain ⟨_, rfl⟩ := blockOr_ok hb
        rfl
      unfold WakeSys.goto
      dsimp only
      rw [hidx]
      exact .block ht hb hreg (by simp [blocks, hpc]) (by simp [hpc]) rfl
  · next hreging hann =>
      simp only [Except.ok.injEq] at hs
      rw [← hs]
      refine .refl ht ?_ hreg
      unfold blocks
      split
      · contradiction
      · exact absurd ‹_› hreging
      · exact absurd ‹_› (hann _)
      · rfl

/-- The step that goes on. -/
theorem resume_part (ht : Table m.sched) (hs : m.toWakeSys.step .resume = .ok w) :
    Part m.toWakeSys .resume w := by
  have hno : blocks m.toWakeSys .resume = false := by simp [blocks]
  have hreg : ∀ t, registers m.toWakeSys .resume t = false := by simp [registers]
  unfold WakeSys.step at hs
  dsimp only at hs
  split at hs
  · split at hs
    · simp only [Except.ok.injEq] at hs
      rw [← hs]
      exact .refl ht hno hreg
    · next hcur =>
        simp only [Except.ok.injEq] at hs
        rw [← hs]
        rcases waitpidResume_ok m.sched with ⟨_, hr⟩ | ⟨i, pid, t, _, _, hr⟩
        · rw [hr]
          exact .goto ht hcur (fun _ hb => hb) (by simp [hreg]) (fun _ _ => rfl) hno _
        · rw [hr]
          exact .reaped ht hcur hno hreg _
  · split at hs
    · simp only [Except.ok.injEq] at hs
      rw [← hs]
      exact .refl ht hno hreg
    · next hcur =>
        simp only [Except.ok.injEq] at hs
        rw [← hs]
        exact .goto ht hcur (fun _ hb => hb) (by simp [hreg]) (fun _ _ => rfl) hno _
  · simp only [Except.ok.injEq] at hs
    rw [← hs]
    exact .refl ht hno hreg

/-- `sleep` and `blockCurrentTask` leave the current task BLOCKED. -/
theorem step_blocks (hop : op.bystands = true) (hb : op.blocks = true) (hs : s.step op = .ok s') :
    (s'.tasks s.currentIdx).state = .blocked := by
  cases op with
  | sleep ms =>
      obtain ⟨_, q, n, p, _, _, rfl⟩ := sleep_ok hs
      simp
  | blockCurrentTask =>
      obtain ⟨_, rfl⟩ := blockOr_ok hs
      simp
  | _ => contradiction

/-- A whole operation. -/
theorem sys_part (ht : Table m.sched) (hl : Legal m (.sys op))
    (hs : m.toWakeSys.step (.sys op) = .ok w) :
    Part m.toWakeSys (.sys op) w := by
  simp only [WakeSys.step, bind_eq_ok, Except.ok.injEq] at hs
  obtain ⟨s', hs, rfl⟩ := hs
  have hop := hl.2
  have hreg : ∀ t, registers m.toWakeSys (.sys op) t = false := by simp [registers]
  have hblocks : blocks m.toWakeSys (.sys op) = op.blocks := rfl
  by_cases hc : op.creates = true
  · rw [if_pos hc]
    refine born_part ht hc ?_ hreg hs
    cases op <;> first | rfl | contradiction
  · rw [if_neg hc]
    have hby : op.bystands = true := by
      cases op <;> first | rfl | contradiction
    have hcalm := step_calm hby ht hs
    refine ⟨step_table ht hs,
      fun j hb => ?_, by simp [hreg], fun t _ => ?_, fun hb => ⟨step_blocks hby hb hs, ?_⟩⟩
    · rcases hcalm.blocked j hb with hb | ⟨rfl, hbl⟩
      · exact .inl ⟨hb, rfl⟩
      · exact .inr ⟨hbl, rfl⟩
    · by_cases hend : m.sched.ends op = some t
      · refine .inr ⟨?_, step_unnamed ht hend hs⟩
        cases op <;> first | rfl | contradiction
      · exact .inl (hcalm.waker t hend)
    · have hfree : m.pc m.sched.currentIdx = .free := by
        rw [hblocks] at hb
        cases op <;> first | exact hop rfl | contradiction
      rw [hfree]
      simp [Pc.waits]

/-- **Parts**: every step is one. -/
theorem step_part (ht : Table m.sched) (hl : Legal m o) (hs : m.toWakeSys.step o = .ok w) :
    Part m.toWakeSys o w := by
  cases o with
  | sys op => exact sys_part ht hl hs
  | waitpid status => exact waitpid_part ht hl hs
  | register => exact register_part ht hl hs
  | execMod stack stackPhys dir elf => exact execMod_part ht hl hs
  | announce => exact announce_part ht hl hs
  | block => exact block_part ht hs
  | resume => exact resume_part ht hs

/-! ## who is woken -/

/-- A call begins with a step of the current task. -/
theorem own_of_begins (h : o.begins = true) : o.own = true := by
  cases o <;> first | rfl | contradiction

/-- So does a registration. -/
theorem own_of_registers {m : WakeSys} {t : Nat} (h : registers m o t = true) : o.own = true := by
  cases o <;> first | rfl | simp [registers] at h

/-- A step that blocks begins no call and writes no slot number. -/
theorem blocks_quiet {m : WakeSys} (h : blocks m o = true) :
    o.begins = false ∧ ∀ t, registers m o t = false := by
  cases o with
  | sys op => exact ⟨rfl, fun _ => rfl⟩
  | block => exact ⟨rfl, fun _ => by simp [registers]⟩
  | _ => simp [blocks] at h

/-- Whoever is BLOCKED before and after a step is named as before. -/
theorem RightAt.stay {j : Nat} (h : RightAt m j) (hp : Part m.toWakeSys o w) (hl : Legal m o)
    (hj : j < maxTasks)
    (hlt : m.sched.currentIdx < maxTasks) (hb : (m.sched.tasks j).state = .blocked)
    (hpc : w.pc j = m.pc j)
    {i : Nat} (hi : i < maxTasks) (hn : (w.sched.tasks i).Names j) :
    (w.pc j).waits = true ∧ (if registers m.toWakeSys o i then m.call m.sched.currentIdx
      else m.setter i) =
      (if o.begins then set m.call m.sched.currentIdx (m.calls + 1) else m.call) j := by
  -- what the current task does itself, it does awake
  have hne : o.own = true → j ≠ m.sched.currentIdx := by
    rintro hown rfl
    exact hl.1 hown hb
  have hcall : (if o.begins then set m.call m.sched.currentIdx (m.calls + 1) else m.call) j =
      m.call j := by
    split
    · next hbegins => exact set_of_ne _ _ (hne (own_of_begins hbegins))
    · rfl
  rw [hcall, hpc]
  by_cases hreg : registers m.toWakeSys o i = true
  · exact absurd (names_slot (hp.written i hreg) hlt hn) (hne (own_of_registers hreg))
  · rw [if_neg hreg]
    rcases hp.kept i ((Bool.not_eq_true _).mp hreg) with hsame | ⟨_, hnone⟩
    · exact h hb i hi ((names_congr hsame).mp hn)
    · exact absurd hn (not_names hnone hj)

/-- **One step** keeps deaths from waking strangers exactly if it is clear. -/
theorem rightly_step (h : Rightly m) (ht : Table m.sched) (hl : Legal m o)
    (hs : m.step o = .ok m') :
    Table m'.sched ∧ (Rightly m' ↔ Clear m o) := by
  simp only [step, bind_eq_ok, Except.ok.injEq] at hs
  obtain ⟨w, hs, rfl⟩ := hs
  have hp := step_part ht hl hs
  have hlt : m.sched.currentIdx < maxTasks := Nat.lt_of_lt_of_le ht.cur_lt ht.count_le
  have hslot : ∀ j, (w.sched.tasks j).state = .blocked → j < maxTasks := by
    intro j hb
    by_contra hge
    have hdead := hp.table.beyond j (Nat.le_trans hp.table.count_le (Nat.not_lt.mp hge))
    rw [hdead] at hb
    contradiction
  refine ⟨hp.table, fun hr hblocks t htlt hn => ?_, fun hclear j hb i hi hn => ?_⟩
  · obtain ⟨hbegins, hreg⟩ := blocks_quiet hblocks
    obtain ⟨hb, hwaits⟩ := hp.waits hblocks
    have hsame : (w.sched.tasks t).unblockOnExit = (m.sched.tasks t).unblockOnExit := by
      rcases hp.kept t (hreg t) with hsame | ⟨hno, _⟩
      · exact hsame
      · rw [hblocks] at hno
        contradiction
    have hright := hr m.sched.currentIdx hb t htlt ((names_congr hsame).mpr hn)
    simp only [hbegins, hreg] at hright
    exact ⟨hwaits.mp hright.1, hright.2⟩
  · rcases hp.blocked j hb with ⟨hold, hpc⟩ | ⟨hblocks, rfl⟩
    · exact (h j).stay hp hl (hslot j hb) hlt hold hpc hi hn
    · obtain ⟨hbegins, hreg⟩ := blocks_quiet hblocks
      have hsame : (w.sched.tasks i).unblockOnExit = (m.sched.tasks i).unblockOnExit := by
        rcases hp.kept i (hreg i) with hsame | ⟨hno, _⟩
        · exact hsame
        · rw [hblocks] at hno
          contradiction
      obtain ⟨hcalls, hset⟩ := hclear hblocks i hi ((names_congr hsame).mp hn)
      simp only [hbegins, hreg]
      exact ⟨(hp.waits hblocks).2.mpr hcalls, hset⟩

/-- Nobody is registered at the start. -/
theorem start_rightly (s : Sched) : Rightly (start s) := by
  intro j hb
  have hstate : (s.init.tasks j).state = .blocked := hb
  unfold Sched.init at hstate
  dsimp only at hstate
  split at hstate <;> contradiction

/-- **Callers are woken**: in a run in which no task blocks while an earlier
call names its slot, the end of a task wakes a task that waits in the call that
asked for it, and a further step keeps it so exactly if it is clear. -/
theorem wakes_caller_iff {s₀ : Sched} {tr : List WakeOp} (hrun : Reach step Tidy (start s₀) tr m) :
    (∀ op i j, m.sched.ends op = some i → (m.sched.tasks i).Names j →
      (m.sched.tasks j).state = .blocked →
      (m.pc j).waits = true ∧ m.setter i = m.call j) ∧
    ∀ o m', Legal m o → m.step o = .ok m' → (Rightly m' ↔ Clear m o) := by
  have hinv : Table m.sched ∧ Rightly m := by
    refine hrun.inv (P := fun m => Table m.sched ∧ Rightly m) ⟨init_table s₀, start_rightly s₀⟩ ?_
    rintro m o m' ⟨ht, h⟩ ⟨hl, hclear⟩ hs
    obtain ⟨ht', hiff⟩ := rightly_step h ht hl hs
    exact ⟨ht', hiff.mpr hclear⟩
  obtain ⟨ht, h⟩ := hinv
  refine ⟨fun op i j hend hn hb => ?_, fun o m' hl hs => (rightly_step h ht hl hs).2⟩
  exact h j hb i (Nat.lt_of_lt_of_le (ends_live ht hend).1 ht.count_le) hn

/-- A number is that of one call: no two slots share one. -/
theorem call_unique {s₀ : Sched} {tr : List WakeOp} (hrun : Reach step Legal (start s₀) tr m)
    {p q : Nat}
    (hp : m.call p ≠ 0) (hpq : m.call p = m.call q) : p = q := by
  have hinv : (∀ p, m.call p ≤ m.calls) ∧ ∀ p q, m.call p ≠ 0 → m.call p = m.call q → p = q := by
    refine hrun.inv (P := fun m => (∀ p, m.call p ≤ m.calls) ∧ ∀ p q, m.call p ≠ 0 →
      m.call p = m.call q → p = q)
      ⟨fun _ => Nat.le_refl _, fun p _ h _ => absurd rfl h⟩ ?_
    rintro m o m' ⟨hle, hinj⟩ _ hs
    simp only [step, bind_eq_ok, Except.ok.injEq] at hs
    obtain ⟨w, _, rfl⟩ := hs
    by_cases hb : o.begins = true
    · simp only [hb, if_true]
      refine ⟨fun p => ?_, fun p q => ?_⟩
      · have := hle p
        unfold Cells.set
        split <;> omega
      · have h₁ := hle p
        have h₂ := hle q
        have h := hinj p q
        unfold Cells.set
        split <;> split <;> omega
    · simp only [hb]
      exact ⟨hle, hinj⟩
  exact hinv.2 p q hp hpq

/-- The task in slot 1 forks two children and waits; the first one exits. -/
def twoChildren : List WakeOp :=
  [.sys (.addUserElfTask 0x8000 (some fun _ => 0) 0x1000 (some {})), .sys (.tick 0 {} true),
    .sys .pitTick,
    .sys (.tick 0 {} true), .sys (.fork 0xA000 0x2000), .sys (.fork 0xB000 0x3000), .waitpid 0,
      .register, .register,
    .block, .sys .pitTick, .sys (.tick 0 {} true), .sys (.exitCurrentTask 0), .sys .pitTick,
      .sys (.tick 0 {} true),
    .resume]

/-- A second `waitpid` names the child that is left again. -/
theorem wakes_caller_again :
    ∃ m m' : CalledSys, Reach step Tidy (start { syscallFrameEsp := 0x9000 }) (twoChildren ++
        [.waitpid 0, .register, .block, .sys .pitTick, .sys (.tick 0 {} true)]) m ∧
      m.sched.ends (.exitCurrentTask 0) = some 3 ∧ (m.pc 1).waits = true ∧ m.setter 3 = m.call 1 ∧
      m.step (.sys (.exitCurrentTask 0)) = .ok m' ∧ Rightly m' := by
  obtain ⟨m, hr, hp⟩ := Reach.of_runsTo step Tidy (start { syscallFrameEsp := 0x9000 })
    (twoChildren ++
      [.waitpid 0, .register, .block, .sys .pitTick, .sys (.tick 0 {} true)])
    (fun m => decide (m.sched.ends (.exitCurrentTask 0) = some 3 ∧ (m.sched.tasks 3).Names 1 ∧
        (m.sched.tasks 1).state = .blocked ∧ Tidy m (.sys (.exitCurrentTask 0))) &&
      (m.step (.sys (.exitCurrentTask 0))).isOk) (by decide +kernel)
  simp only [Bool.and_eq_true, decide_eq_true_eq] at hp
  obtain ⟨⟨hend, hn, hb, hl, hclear⟩, hok⟩ := hp
  obtain ⟨hwaits, hset⟩ := (wakes_caller_iff hr).1 _ 3 1 hend hn hb
  exact ⟨m, _, hr, hend, hwaits, hset, step_follow hok,
    ((wakes_caller_iff hr).2 _ _ hl (step_follow hok)).mpr hclear⟩

/-- **A stranger is woken**: the second child ends while its parent is in
`SYS_EXECMOD`, which returns at once. -/
theorem wakes_stranger :
    ∃ m m' : CalledSys, Reach step Legal (start { syscallFrameEsp := 0x9000 }) (twoChildren ++
        [.execMod 0xC000 (some fun _ => 0) 0x4000 (some {}), .announce, .block, .sys .pitTick,
          .sys (.tick 0 {} true),
          .sys .pitTick, .sys (.tick 0 {} true)]) m ∧
      m.step (.sys (.exitCurrentTask 0)) = .ok m' ∧ m.sched.ends (.exitCurrentTask 0) = some 3 ∧
      (m.sched.tasks 1).state = .blocked ∧ (m'.sched.tasks 1).state = .ready ∧
        m.setter 3 ≠ m.call 1 := by
  obtain ⟨m, hr, hp⟩ := Reach.of_runsTo step Legal (start { syscallFrameEsp := 0x9000 })
    (twoChildren ++
      [.execMod 0xC000 (some fun _ => 0) 0x4000 (some {}), .announce, .block, .sys .pitTick,
        .sys (.tick 0 {} true),
        .sys .pitTick, .sys (.tick 0 {} true)])
    (fun m => (m.step (.sys (.exitCurrentTask 0))).isOk &&
      decide (m.sched.ends (.exitCurrentTask 0) = some 3 ∧ (m.sched.tasks 1).state = .blocked ∧
        ((follow step m (.sys (.exitCurrentTask 0))).sched.tasks 1).state = .ready ∧
          m.setter 3 ≠ m.call 1))
    (by decide +kernel)
  simp only [Bool.and_eq_true, decide_eq_true_eq] at hp
  exact ⟨m, _, hr, step_follow hp.1, hp.2⟩

end CalledSys

end Doors
