import Doors.Scheduler.Bystander

/-!
# Doors.Scheduler.Pid

Process ids.

`nextPid_` is an 8-bit counter that starts at 0, the pid reserved for the idle
task, and is never checked against the live tasks.

* `step_built` — all creations in one statement;
* `step_keeps` — nothing else changes a pid or revives a slot;
* `pids_identify` — pids identify the live tasks as long as every creation
  finds the counter at a value that is neither reserved nor in use;
* `pid_of_idle` — the very first creation does not.
-/

namespace Doors

open Cells Run

namespace Sched

open Scheduler

variable {s₀ s s' : Sched} {op : Op}

/-! ## creations -/

/-- Apart from the search for a slot, the creation goes through. -/
def Provided (s : Sched) : Op → Prop
  | .addTask named _ _ _ stack => named = true ∧ stack ≠ 0
  | .addUserElfTask stack stackPhys dir elf => stack ≠ 0 ∧ stackPhys.isSome ∧ dir ≠ 0 ∧ elf.isSome
  | .fork stack dir => s.cur.userStackPageCount ≠ 0 ∧ s.syscallFrameEsp ≠ 0 ∧ stack ≠ 0 ∧ dir ≠ 0
  | _ => False

instance (s : Sched) (op : Op) : Decidable (Provided s op) := by
  apply @Op.casesOn _ op <;> intros <;> unfold Provided <;> infer_instance

/-- A task that was created, or a slot that a failed creation left DEAD. -/
def Outcome (s : Sched) (op : Op) (slot : Nat) (child : Task) : Prop :=
  Newborn s slot child ∧ Provided s op ∨ child.state = .dead

/-- **Creations**: nothing, or a slot is filled, of which the creator notices
at most a longer list of children and a saved FPU state. -/
theorem step_built (hop : op.creates = true) (h : Table s) (hs : s.step op = .ok s') :
    s' = s ∨ ∃ slot child parent n e frames, s.Vacant slot ∧ Outcome s op slot child ∧
      (∃ cs fs, parent = { s.cur with children := cs, fpuState := fs }) ∧
      s' = s.built slot child parent n e frames := by
  have hself : ∃ cs fs, s.cur = { s.cur with children := cs, fpuState := fs } := ⟨_, _, rfl⟩
  cases op with
  | addTask named entry pageDir priority stack =>
      simp only [step, Except.ok.injEq] at hs
      subst hs
      rcases addTask_ok s named entry pageDir priority stack with
        he | ⟨hnamed, slot, hv, ⟨h0, he⟩ | ⟨h0, t, frames, hnew, _, he⟩⟩
      · exact .inl (by rw [he])
      · rw [he]
        refine .inr ⟨slot, _, _, _, _, _, hv, .inr ?_, hself, rfl⟩
        exact hv.dead h
      · rw [he]
        exact .inr ⟨slot, t, _, _, _, _, hv, .inl ⟨hnew, hnamed, h0⟩, hself, rfl⟩
  | addUserElfTask stack stackPhys dir elf =>
      simp only [step, Except.ok.injEq] at hs
      subst hs
      rcases addUserElfTask_ok s stack stackPhys dir elf with
        he | ⟨slot, hv, ⟨_, t, hd, he⟩ | ⟨hyes, t, e, frames, hnew, _, he⟩⟩
      · exact .inl (by rw [he])
      · rw [he]
        exact .inr ⟨slot, t, _, _, _, _, hv, .inr hd.state, hself, rfl⟩
      · rw [he]
        exact .inr ⟨slot, t, _, _, _, _, hv, .inl ⟨hnew, hyes⟩, hself, rfl⟩
  | fork stack dir =>
      simp only [step, Except.ok.injEq] at hs
      subst hs
      rcases fork_ok s stack dir h.cur_lt h.cur_live with
        he | ⟨huser, hesp, slot, hv, _,
          ⟨_, t, frames, hd, he⟩ | ⟨hstack, hdir, t, frames, hnew, _, _, he⟩⟩
      · exact .inl (by rw [he])
      · rw [he]
        exact .inr ⟨slot, t, _, _, _, _, hv, .inr hd.state, hself, rfl⟩
      · rw [he]
        exact .inr ⟨slot, t, _, _, _, _, hv, .inl ⟨hnew, huser, hesp, hstack, hdir⟩,
          forked_eq s s.cur, rfl⟩
  | init | exec | pitTick | tick | sleep | blockCurrentTask | unblockTask | sendSignal | killTask
  | exitCurrentTask | setUnblockOnExit | waitpid | waitpidResume | deliverSignals | fpu =>
      contradiction

/-! ## everything else -/

/-- What operations other than creations keep of the whole table. -/
structure Kept (s s' : Sched) : Prop where
  taskCount : s'.taskCount = s.taskCount
  pid : ∀ i, (s'.tasks i).pid = (s.tasks i).pid
  dead : ∀ i, (s.tasks i).state = .dead → (s'.tasks i).state = .dead

/-- **Everything else** changes no pid and revives no slot. -/
theorem step_keeps (hc : op.creates = false) (hi : op ≠ .init) (h : Table s)
    (hs : s.step op = .ok s') :
    Kept s s' := by
  by_cases hw : op.waits = true
  · have hp : op.plain = true := by
      cases op <;> first | rfl | contradiction
    have hkeep : ∀ a b, Effect s op a b → Table a ∧ Kept s a → Table b ∧ Kept s b := by
      rintro a b he ⟨ht, hk⟩
      have hf := he.frame hp
      refine ⟨he.table ht, hf.taskCount.trans hk.taskCount, fun i => ?_, fun i hd => ?_⟩
      · exact (hf.field Task.pid (fun _ => rfl) i).trans (hk.pid i)
      · exact he.stays_dead hp ht (hk.dead i hd)
    exact (step_inv h.cur_lt h.cur_live hkeep ⟨h, rfl, fun _ => rfl, fun _ hd => hd⟩ hs).2
  · have hby : op.bystands = true := by
      cases op <;> first | rfl | contradiction
    have hcalm := step_calm hby h hs
    exact ⟨hcalm.taskCount, hcalm.pid, fun i hd => (hcalm.dead i hd).1⟩

/-! ## pids -/

/-- The pids of the live tasks tell them apart, and only slot 0 has the idle
task's. -/
structure Pids (s : Sched) : Prop where
  inj : ∀ i j, (s.tasks i).state ≠ .dead → (s.tasks j).state ≠ .dead →
    (s.tasks i).pid = (s.tasks j).pid → i = j
  idle : ∀ i, (s.tasks i).state ≠ .dead → (s.tasks i).pid = idleTaskId → i = 0

/-- A creation that goes through finds `nextPid_` at a value that is neither
the idle task's nor that of a live task. -/
def Untaken (s : Sched) (op : Op) : Prop :=
  Provided s op → s.findSlot.1 ≠ none → s.nextPid ≠ idleTaskId ∧
    ∀ i < s.taskCount, (s.tasks i).state ≠ .dead → (s.tasks i).pid ≠ s.nextPid

instance (s : Sched) (op : Op) : Decidable (Untaken s op) := by
  unfold Untaken
  infer_instance

theorem init_pids (s : Sched) : Pids s.init := by
  have hzero : ∀ i, (s.init.tasks i).state ≠ .dead → i = 0 := by
    intro i hi
    by_contra h0
    exact hi (congrArg Task.state (if_neg h0))
  exact ⟨fun i j hi hj _ => (hzero i hi).trans (hzero j hj).symm, fun i hi _ => hzero i hi⟩

theorem Pids.kept (h : Pids s) (hk : Kept s s') : Pids s' := by
  have hlive : ∀ i, (s'.tasks i).state ≠ .dead → (s.tasks i).state ≠ .dead :=
    fun i hl hd => hl (hk.dead i hd)
  constructor
  · intro i j hi hj he
    rw [hk.pid, hk.pid] at he
    exact h.inj i j (hlive i hi) (hlive j hj) he
  · intro i hi he
    rw [hk.pid] at he
    exact h.idle i (hlive i hi) he

/-- A slot that is filled with a task of a free pid, or not at all. -/
theorem Pids.built {slot n e : Nat} {child parent : Task} {frames : Nat → TrapFrame} (h : Pids s)
    (ht : Table s) (hv : s.Vacant slot)
    (hnew : child.state ≠ .dead → child.pid ≠ idleTaskId ∧
      ∀ i < s.taskCount, (s.tasks i).state ≠ .dead → (s.tasks i).pid ≠ child.pid)
    (hp : ∃ cs fs, parent = { s.cur with children := cs, fpuState := fs }) :
    Pids (s.built slot child parent n e frames) := by
  have hother : ∀ i, i ≠ slot →
      ((s.built slot child parent n e frames).tasks i).state = (s.tasks i).state ∧
      ((s.built slot child parent n e frames).tasks i).pid = (s.tasks i).pid := by
    intro i hi
    obtain ⟨cs, fs, rfl⟩ := hp
    by_cases hc : i = s.currentIdx
    · subst hc
      rw [built_cur hi]
      exact ⟨rfl, rfl⟩
    · rw [built_other hi hc]
      exact ⟨rfl, rfl⟩
  have hlt : ∀ i, (s.tasks i).state ≠ .dead → i < s.taskCount := by
    intro i hl
    by_contra hge
    exact hl (ht.beyond i (by omega))
  constructor
  · intro i j hi hj he
    by_cases his : i = slot
    · by_cases hjs : j = slot
      · rw [his, hjs]
      · subst his
        rw [built_slot] at hi he
        rw [(hother j hjs).1] at hj
        rw [(hother j hjs).2] at he
        exact absurd he.symm ((hnew hi).2 j (hlt j hj) hj)
    · rw [(hother i his).1] at hi
      rw [(hother i his).2] at he
      by_cases hjs : j = slot
      · subst hjs
        rw [built_slot] at hj he
        exact absurd he ((hnew hj).2 i (hlt i hi) hi)
      · rw [(hother j hjs).1] at hj
        rw [(hother j hjs).2] at he
        exact h.inj i j hi hj he
  · intro i hi he
    by_cases his : i = slot
    · subst his
      rw [built_slot] at hi he
      exact absurd he (hnew hi).1
    · rw [(hother i his).1] at hi
      rw [(hother i his).2] at he
      exact h.idle i hi he

theorem step_pids (h : Pids s) (ht : Table s) (hu : Untaken s op) (hs : s.step op = .ok s') :
    Pids s' := by
  by_cases hinit : op = .init
  · subst hinit
    simp only [step, Except.ok.injEq] at hs
    rw [← hs]
    exact init_pids s
  cases hc : op.creates with
  | false => exact h.kept (step_keeps hc hinit ht hs)
  | true =>
      rcases step_built hc ht hs with rfl | ⟨slot, child, parent, n, e, frames, hv, hout, hp, rfl⟩
      · exact h
      · refine h.built ht hv (fun hl => ?_) hp
        rcases hout with ⟨hnew, hprov⟩ | hd
        · rw [hnew.pid]
          exact hu hprov (by simp [hv.fst])
        · exact absurd hd hl

/-- **Pids identify the live tasks** in every run in which no creation takes a
pid that is reserved or in use. -/
theorem pids_identify {tr : List Op} (h : Reach step Untaken s₀.init tr s) : Pids s := by
  have hboth := h.inv (P := fun s => Table s ∧ Pids s) ⟨init_table s₀, init_pids s₀⟩
    fun _ _ _ hp hu hs => ⟨step_table hp.1 hs, step_pids hp.2 hp.1 hu hs⟩
  exact hboth.2

/-- With the counter at 1, as if the reserved pid had been skipped. -/
theorem pids_identify_twoTasks :
    ∃ s : Sched, Reach step Untaken { nextPid := 1 : Sched }.init
      [.addTask true 0x1000 0 Task.priorityNormal 0x8000,
        .addTask true 0x2000 0 Task.priorityNormal 0xA000] s ∧
      (s.tasks 2).pid = 2 ∧ Pids s := by
  obtain ⟨s, hr, hp⟩ := Reach.of_runsTo step Untaken { nextPid := 1 : Sched }.init
    [.addTask true 0x1000 0 Task.priorityNormal 0x8000,
      .addTask true 0x2000 0 Task.priorityNormal 0xA000]
    (fun s => (s.tasks 2).pid = 2) (by decide)
  exact ⟨s, hr, of_decide_eq_true hp, pids_identify hr⟩

/-- **The idle task's pid** is given to the first task that is created. -/
theorem pid_of_idle :
    ∃ s : Sched, Reach step Free ({} : Sched).init
      [.addTask true 0x1000 0 Task.priorityNormal 0x8000] s ∧
      ¬ Pids s := by
  obtain ⟨s, hr, hp⟩ := Reach.of_runsTo step Free ({} : Sched).init
    [.addTask true 0x1000 0 Task.priorityNormal 0x8000]
    (fun s => (s.tasks 1).state = .ready ∧ (s.tasks 1).pid = idleTaskId) (by decide)
  obtain ⟨hready, hpid⟩ := of_decide_eq_true hp
  refine ⟨s, hr, fun hpids => ?_⟩
  have h0 := hpids.idle 1 (by rw [hready]; decide) hpid
  contradiction

end Sched

end Doors
