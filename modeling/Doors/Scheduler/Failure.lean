import Doors.Scheduler.Effect

/-!
# Doors.Scheduler.Failure

Which tests of the source can fail, and when.

* `step_fails` — an operation that fails ran some effects first and then met
  a failing test: a sleep queue that does not fit its array, a corrupted
  index, a table without a task to run, a slot 0 that cannot be switched to,
  or a damaged stack canary.
* `step_safe` — hence a fault whose test cannot fail in any state the effects
  keep to is no outcome of the operation.
-/

namespace Doors

open Cells Run

namespace Sched

open Scheduler

variable {s₀ s s' : Sched} {op : Op}

/-! ## failing tests -/

/-- The tests of the source that can fail in `s`, during the operation `op`
started in `s₀`. -/
inductive Stuck (s₀ : Sched) (op : Op) (s : Sched) : Fault → Prop where
  /-- a loop over a queue longer than its array -/
  | queue (h : maxSleepers < s.sleepCount) : Stuck s₀ op s .sleepQueueBounds
  /-- an insertion into a full queue -/
  | insert {ms : Nat} (hop : op = .sleep ms) (hs : s = s₀) (h : maxSleepers ≤ s.sleepCount) :
      Stuck s₀ op s .sleepQueueBounds
  | index {p : Panic} (h : maxTasks ≤ s.currentIdx) : Stuck s₀ op s (.panic p)
  | count (h : maxTasks < s.taskCount) : Stuck s₀ op s (.panic .findNextTaskCount)
  /-- the only task of the table exits -/
  | alone (hcur : s.currentIdx = s₀.currentIdx) (hwhy : s₀.ends op = some s₀.currentIdx)
      (h : s.taskCount ≤ 1) : Stuck s₀ op s (.panic .exitNoRunnable)
  /-- an exiting task falls back to slot 0, which cannot run -/
  | exitIdle (hcur : s.currentIdx = s₀.currentIdx) (hwhy : s₀.ends op = some s₀.currentIdx)
      (h : s.currentIdx = 0 ∨ (s.tasks 0).state ≠ .ready) : Stuck s₀ op s (.panic .switchToNotReady)
  /-- `tick` falls back to slot 0, which cannot run -/
  | idle (hne : s.currentIdx ≠ 0) (h : (s.tasks 0).state ≠ .ready) :
      Stuck s₀ op s (.panic .switchToNotReady)
  | canary : Stuck s₀ op s (.panic .stackOverflow)
  /-- an FPU instruction behind a switch -/
  | nested (hop : ∃ g, op = .fpu g) (h : s.cr0Ts = true) : Stuck s₀ op s .nested

/-- Some effects, then a failing test. -/
def Fails (s₀ : Sched) (op : Op) (s : Sched) (f : Fault) : Prop :=
  ∃ s₁, Effects s₀ op s s₁ ∧ Stuck s₀ op s₁ f

variable {f : Fault}

/-- The failure is in the state in hand. -/
theorem Fails.now (h : Stuck s₀ op s f) : Fails s₀ op s f := ⟨s, .refl, h⟩

/-- A failure later in the operation is one of the operation. -/
theorem Fails.after {s₁ : Sched} (he : Effects s₀ op s s₁) (h : Fails s₀ op s₁ f) :
    Fails s₀ op s f := by
  obtain ⟨s₂, he₂, hst⟩ := h
  exact ⟨s₂, he.trans he₂, hst⟩

/-- The search leaves the array only behind a count that is too large. -/
theorem removeFromSleepQueue_error {i : Nat} (h : s.removeFromSleepQueue i = .error f) :
    f = .sleepQueueBounds ∧ maxSleepers < s.sleepCount := by
  have hlong : maxSleepers < s.sleepCount := by
    by_contra hle
    obtain ⟨q, n, hok, _⟩ := removeFromSleepQueue_spec s i (by omega)
    rw [hok] at h
    contradiction
  refine ⟨?_, hlong⟩
  have hfind : ∀ k j, s.findSleeper i k j = .error f → f = .sleepQueueBounds := by
    intro k
    induction k with
    | zero => intro j hj; contradiction
    | succ k ih =>
        intro j hj
        simp only [findSleeper, bind_eq_error] at hj
        rcases hj with hj | ⟨e, _, hj⟩
        · exact read_error hj
        · split at hj
          · contradiction
          · exact ih (j + 1) hj
  simp only [removeFromSleepQueue, bind_eq_error] at h
  rcases h with h | ⟨found, _, h⟩
  · exact hfind _ _ h
  · cases found with
    | none => contradiction
    | some k =>
        simp only [bind_eq_error] at h
        rcases h with h | ⟨_, _, h⟩
        · exact shiftDown_error _ _ _ h
        · contradiction

/-- The insertion leaves the array only when it is full. -/
theorem insertSleeper_error {e : SleepEntry} (h : s.insertSleeper e = .error f) :
    f = .sleepQueueBounds ∧ maxSleepers ≤ s.sleepCount := by
  have hlong : maxSleepers ≤ s.sleepCount := by
    by_contra hlt
    obtain ⟨q, n, hok, _⟩ := insertSleeper_spec s e (by omega)
    rw [hok] at h
    contradiction
  refine ⟨?_, hlong⟩
  simp only [insertSleeper, bind_eq_error] at h
  rcases h with h | ⟨_, _, h | ⟨_, _, h⟩⟩
  · exact insertFrom_error _ _ _ h
  · exact write_error h
  · contradiction

/-- Taking the head leaves the array only behind a count that is too large. -/
theorem popSleeper_error (h0 : 0 < s.sleepCount) (h : s.popSleeper = .error f) :
    f = .sleepQueueBounds ∧ maxSleepers < s.sleepCount := by
  have hlong : maxSleepers < s.sleepCount := by
    by_contra hle
    obtain ⟨q, n, hok, _⟩ := popSleeper_spec s h0 (by omega)
    rw [hok] at h
    contradiction
  refine ⟨?_, hlong⟩
  simp only [popSleeper, bind_eq_error] at h
  rcases h with h | ⟨_, _, h | ⟨_, _, h⟩⟩
  · exact read_error h
  · exact shiftDown_error _ _ _ h
  · contradiction

/-! ## waking, exiting, killing -/

/-- Waking fails where the removal from the queue does. -/
theorem wake_error {i : Nat} (h : s.wake i = .error f) : Fails s₀ op s f := by
  obtain ⟨rfl, hlong⟩ := removeFromSleepQueue_error h
  exact .now (.queue hlong)

/-- `unblockTask` fails where waking does. -/
theorem unblockTask_error {id : Int} (h : s.unblockTask id = .error f) : Fails s₀ op s f := by
  unfold unblockTask at h
  split at h
  · rw [bind_eq_error] at h
    rcases h with h | ⟨_, _, h⟩
    · exact wake_error h
    · contradiction
  · contradiction

/-- The two panics of `findNext`, each with the bound that is broken. -/
theorem findNext_error (h : s.findNext = .error f) :
    (∃ p, f = .panic p ∧ maxTasks ≤ s.currentIdx) ∨
      f = .panic .findNextTaskCount ∧ maxTasks < s.taskCount := by
  unfold findNext at h
  split at h
  · next hc => exact .inl ⟨_, (Except.error.inj h).symm, hc⟩
  split at h
  · next hc => exact .inr ⟨(Except.error.inj h).symm, hc⟩
  split at h <;> contradiction

/-- `switchTo` panics on a slot that is out of range or not READY. -/
theorem switchTo_error {next : Nat} (h : s.switchTo next = .error f) :
    f = .panic .switchToNotReady ∧ (maxTasks ≤ next ∨ (s.leave.tasks next).state ≠ .ready) := by
  simp only [switchTo] at h
  split at h
  · next hc => exact ⟨(Except.error.inj h).symm, hc⟩
  · contradiction

/-- The slot `findNext` picks for an exiting task can be switched to, unless
it is slot 0 by default. -/
theorem exit_switch {code : Int} {q : Nat → SleepEntry} {n next : Nat}
    (hn : Sched.findNext { s.died code with sleepQueue := q, sleepCount := n } = .ok (some next))
    (hbad : maxTasks ≤ next ∨ ((s.departed code q n).leave.tasks next).state ≠ .ready) :
    s.currentIdx = 0 ∨ (s.tasks 0).state ≠ .ready := by
  rcases findNext_ok hn with ⟨h, _⟩ | ⟨_, hcount, k, hk, he, hready⟩
  · contradiction
  rw [Option.some.injEq] at he
  subst he
  have hbad : ((s.departed code q n).leave.tasks next).state ≠ .ready := by
    rcases hbad with hbad | hbad
    · omega
    · exact hbad
  by_cases hne : next = s.currentIdx
  · rcases hready with h0 | hr
    · exact .inl (by omega)
    · change ((s.died code).tasks next).state = .ready at hr
      rw [hne, died_cur] at hr
      contradiction
  · obtain ⟨ppid, hp⟩ := departed_tasks s code q n hne
    rw [leave_tasks, departed_currentIdx, if_neg hne, hp] at hbad
    rcases hready with rfl | hr
    · exact .inr hbad
    · obtain ⟨ppid, hp⟩ := died_tasks s code hne
      change ((s.died code).tasks next).state = .ready at hr
      rw [hp] at hr
      exact absurd hr hbad

/-- `exitCurrentTask` fails in what it calls, once the current task has died. -/
theorem exitCurrentTask_error {code : Int} (hcur : s.currentIdx = s₀.currentIdx)
    (hwhy : s₀.ends op = some s₀.currentIdx) (h : s.exitCurrentTask code = .error f) :
    Fails s₀ op s f := by
  unfold exitCurrentTask at h
  split at h
  · next hc =>
      rw [← Except.error.inj h]
      exact .now (.index hc)
  · next hlt =>
      rw [bind_eq_error] at h
      rcases h with h | ⟨s₁, hd, h⟩
      · simp only [die, bind_eq_error] at h
        rcases h with h | ⟨_, _, h⟩
        · obtain ⟨rfl, hlong⟩ := removeFromSleepQueue_error h
          exact .now (.queue hlong)
        · contradiction
      obtain ⟨q, n, hq, rfl⟩ := die_ok hd
      rw [bind_eq_error] at h
      rcases h with h | ⟨r, hn, h⟩
      · rcases findNext_error h with ⟨p, rfl, hi⟩ | ⟨rfl, hc⟩
        · exact .now (.index hi)
        · exact .now (.count hc)
      cases r with
      | none =>
          rw [← Except.error.inj h]
          rcases findNext_ok hn with ⟨_, h1⟩ | ⟨_, _, _, _, he, _⟩
          · exact .now (.alone hcur hwhy h1)
          · contradiction
      | some next =>
          simp only [bind_eq_error] at h
          rcases h with h | ⟨r, hs, h⟩
          · obtain ⟨rfl, hbad⟩ := switchTo_error h
            exact .now (.exitIdle hcur hwhy (exit_switch hn hbad))
          · obtain ⟨hnext, hready, hinst⟩ := switchTo_ok hs
            obtain ⟨hne, hr⟩ := exit_next hready
            have hexit : Effect s₀ op s r.2 := by
              rw [hinst]
              exact .exit hcur (by rw [hcur]; exact hwhy) hq hnext hne hr
            split at h
            · exact .after (.single hexit) (unblockTask_error h)
            · contradiction

/-- Killing a slot fails in what it calls, once the task has died. -/
theorem kill_error {i : Nat} (hwhy : s₀.ends op = some i)
    (hun : (s.tasks i).unblockOnExit = (s₀.tasks i).unblockOnExit) (h : s.kill i = .error f) :
    Fails s₀ op s f := by
  have hu : uchar (s.tasks i).unblockOnExit ≠ -1 := by
    unfold uchar
    omega
  have hfirst := unregister_effect (s := s) hwhy
  simp only [kill, hu, ne_eq, not_false_eq_true, if_true, bind_eq_error] at h
  rcases h with h | ⟨s₁, hwake, h | ⟨s₂, _, h⟩⟩
  · exact .after (.single hfirst) (unblockTask_error h)
  · obtain ⟨rfl, hlong⟩ := removeFromSleepQueue_error h
    refine ⟨s₁, .head hfirst (unblockTask_effects (fun j hj => ?_) hwake), .queue hlong⟩
    rw [hun] at hj
    exact wakes_of_ends hwhy (.inr hj)
  · contradiction

/-- `killTask` fails only where it kills. -/
theorem killTask_error {id : Int}
    (hwhy : ∀ j : Nat, id = j → j < s.taskCount → j ≠ s.currentIdx → (s.tasks j).state ≠ .dead →
      s₀.ends op = some j ∧ (s.tasks j).unblockOnExit = (s₀.tasks j).unblockOnExit)
    (h : s.killTask id = .error f) : Fails s₀ op s f := by
  unfold killTask at h
  split at h
  · contradiction
  split at h
  · contradiction
  split at h
  · contradiction
  · next hr hc hd =>
      obtain ⟨he, hun⟩ := hwhy id.toNat (by omega) (by omega) (by omega) hd
      exact kill_error he hun h

/-- Blocking fails where the search for the next task does. -/
theorem blockOr_error {p : Panic} (h : blockOr p s = .error f) : Fails s₀ op s f := by
  unfold blockOr at h
  split at h
  · next hc =>
      rw [← Except.error.inj h]
      exact .now (.index hc)
  · contradiction

/-- `sleep` fails in the queue or in the search for the next task. -/
theorem sleep_error {ms : Nat} (hs : s = s₀) (hop : op = .sleep ms) (h : s.sleep ms = .error f) :
    Fails s₀ op s f := by
  unfold sleep at h
  split at h
  · next hc =>
      rw [← Except.error.inj h]
      exact .now (.index hc)
  · rw [bind_eq_error] at h
    rcases h with h | ⟨_, _, h⟩
    · obtain ⟨rfl, hlong⟩ := insertSleeper_error h
      exact .now (.insert hop hs hlong)
    · contradiction

/-! ## the timer interrupt -/

/-- Waking the sleepers that are due fails in the queue. -/
theorem wakeExpired_error {now k : Nat} (h : wakeExpired now k s = .error f) : Fails s₀ op s f := by
  induction k generalizing s with
  | zero => contradiction
  | succ k ih =>
      unfold wakeExpired at h
      split at h
      · next h0 =>
          rw [bind_eq_error] at h
          rcases h with h | ⟨e, _, h⟩
          · rw [read_of_lt (by decide)] at h
            contradiction
          split at h
          · rw [bind_eq_error] at h
            rcases h with h | ⟨s₁, hp, h⟩
            · obtain ⟨rfl, hlong⟩ := popSleeper_error h0 h
              exact .now (.queue hlong)
            · obtain ⟨q, n, hq, rfl⟩ := popSleeper_ok hp
              exact .after (.single (.pop h0 hq)) (ih h)
          · contradiction
      · contradiction

/-- The end of a tick fails where the search or the switch does. -/
theorem reschedule_error {now : Nat} (h : s.reschedule now = .error f) : Fails s₀ op s f := by
  unfold reschedule at h
  split at h
  · rw [bind_eq_error] at h
    rcases h with h | ⟨r, hn, h⟩
    · rcases findNext_error h with ⟨p, rfl, hi⟩ | ⟨rfl, hc⟩
      · exact .now (.index hi)
      · exact .now (.count hc)
    cases r with
    | none => contradiction
    | some next =>
        dsimp only at h
        split at h
        · contradiction
        · next hne =>
            obtain ⟨rfl, hbad⟩ := switchTo_error h
            rcases findNext_ok hn with ⟨h, _⟩ | ⟨_, hcount, k, hk, he, hready⟩
            · contradiction
            rw [Option.some.injEq] at he
            subst he
            rw [leave_tasks, if_neg hne] at hbad
            rcases hbad with hbad | hbad
            · omega
            rcases hready with rfl | hr
            · exact .now (.idle (by omega) hbad)
            · exact absurd hr hbad
  · contradiction

/-- Delivery fails only when the task is killed by a signal. -/
theorem deliverPendingSignals_error (hcur : s.currentIdx = s₀.currentIdx)
    (hwhy : s.doomed = true → s₀.ends op = some s₀.currentIdx)
    (h : s.deliverPendingSignals = .error f) : Fails s₀ op s f := by
  unfold deliverPendingSignals at h
  split at h
  · contradiction
  split at h
  · contradiction
  · next huser =>
      split at h
      · contradiction
      · next sig hsig =>
          split at h
          · split at h <;> contradiction
          · next hno =>
              have hdoom : s.doomed = true := by simpa [doomed, hsig, huser] using hno
              rw [bind_eq_error] at h
              rcases h with h | ⟨_, _, h⟩
              · have hq := clearPending_quiet s s.currentIdx sig
                exact .after (.single (.quiet hq))
                  (exitCurrentTask_error (hq.currentIdx.trans hcur) (hwhy hdoom) h)
              · contradiction

/-- `tick` fails by the canary, in the queue, in the switch or in the delivery. -/
theorem tick_error {esp : Nat} {intact : Bool} (hcur : s.currentIdx = s₀.currentIdx)
    (hwhy : s.initialized = true → s.doomed = true → s₀.ends op = some s₀.currentIdx)
    (h : s.tick esp intact = .error f) : Fails s₀ op s f := by
  unfold tick at h
  split at h
  · contradiction
  · next hinit =>
    split at h
    · next hc =>
        rw [← Except.error.inj h]
        exact .now (.index hc)
    have hesp : Quiet s (s.modify s.currentIdx fun t => { t with esp := esp }) :=
      .modify s _ fun _ => rfl
    simp only [bind_eq_error] at h
    rcases h with h | ⟨_, _, h | ⟨⟨b, s₁⟩, hd, h⟩⟩
    · unfold checkCanary at h
      split at h
      · contradiction
      split at h
      · contradiction
      split at h
      · rw [← Except.error.inj h]
        exact .now .canary
      · contradiction
    · refine .after (.single (.quiet hesp)) (deliverPendingSignals_error hcur (fun hd => ?_) h)
      rw [doomed_esp] at hd
      exact hwhy (by simpa using hinit) hd
    · rcases deliverPendingSignals_ok hd with ⟨rfl, _, hq⟩ | ⟨rfl, _⟩
      · simp only [Bool.false_eq_true, if_false, bind_eq_error] at h
        have hquiet := (hesp.trans hq).trans (charge_quiet s₁ s₁.pit.uptimeMs)
        rcases h with h | ⟨s₂, hw, h | ⟨_, _, h⟩⟩
        · exact .after (.single (.quiet hquiet)) (wakeExpired_error h)
        · exact .after (.head (.quiet hquiet) (wakeExpired_effects hw)) (reschedule_error h)
        · contradiction
      · simp at h

/-- `sendSignal` fails where it kills or wakes. -/
theorem sendSignal_error {pid sig : Int} (h : s.sendSignal pid sig = .error f) :
    Fails s (.sendSignal pid sig) s f := by
  unfold sendSignal at h
  split at h
  · contradiction
  split at h
  · contradiction
  · next i hi =>
      split at h
      · next hk =>
          have hends : s.ends (.sendSignal pid sig) = some i := by
            rw [ends, if_pos hk]
            exact hi
          split at h
          · next hc => exact exitCurrentTask_error rfl (by rw [← hc]; exact hends) h
          · refine .after (.single (.mark i _ hends (findTarget_some hi).2.2.2))
              (killTask_error (fun j hj _ _ _ => ?_) h)
            obtain rfl : i = j := by omega
            exact ⟨hends, by simp⟩
      · dsimp only at h
        split at h
        · refine .after (.single (.quiet (.modify s i ?_))) (wake_error h)
          exact fun _ => rfl
        · contradiction

/-! ## the other operations -/

/-- `exec` fails where it ends the task. -/
theorem exec_error {out : ExecOutcome} (h : s.exec out = .error f) : Fails s (.exec out) s f := by
  unfold exec at h
  split at h
  · contradiction
  cases out with
  | noModule => contradiction
  | invalidElf =>
      simp only at h
      split at h <;> contradiction
  | noStack =>
      simp only at h
      split at h
      · contradiction
      · next hd =>
          rw [bind_eq_error] at h
          rcases h with h | ⟨_, _, h⟩
          · simp only [execForget, execDrop, modify_currentIdx, modify_modify] at h
            refine .after (.single (.image ⟨_, rfl⟩ hd ?_ ?_))
              (exitCurrentTask_error rfl (if_pos hd) h)
            · exact fun _ => rfl
            · exact fun _ => rfl
          · contradiction
  | loadFailed phys =>
      simp only at h
      split at h
      · contradiction
      · next hd =>
          simp only [bind_eq_error] at h
          rcases h with h | ⟨_, _, h⟩
          · simp only [execForget, execDrop, mapUserStackPages, modify_currentIdx,
              modify_modify] at h
            refine .after (.single (.image ⟨_, rfl⟩ hd ?_ ?_))
              (exitCurrentTask_error rfl (if_pos hd) h)
            · exact fun _ => rfl
            · exact fun _ => rfl
          · contradiction
  | loaded phys elf =>
      simp only at h
      split at h <;> contradiction

/-- `waitpid` fails where it blocks the caller. -/
theorem waitpid_error {status : Nat} (hop : op.waits = true) (h : s.waitpid status = .error f) :
    Fails s₀ op s f := by
  unfold waitpid at h
  split at h
  · contradiction
  have hreap : Effects s₀ op s (s.reapDeadChild s.currentIdx).2 := reapDeadChild_effects hop rfl
  split at h
  · contradiction
  · next s₁ hr =>
      rw [hr] at hreap
      split at h
      · contradiction
      · simp only [bind_eq_error] at h
        rcases h with h | ⟨_, _, h⟩
        · exact .after (hreap.trans (registerChildren_effects hop _)) (blockOr_error h)
        · contradiction

/-- Delivery at the end of a system call fails as delivery by a tick does. -/
theorem deliverSignals_error {esp : Nat} (hcur : s.currentIdx = s₀.currentIdx)
    (hwhy : s.doomed = true → s₀.ends op = some s₀.currentIdx)
    (h : s.deliverPendingSignalsAtEsp esp = .error f) : Fails s₀ op s f := by
  unfold deliverPendingSignalsAtEsp at h
  split at h
  · contradiction
  · have hesp : Quiet s (s.modify s.currentIdx fun t => { t with esp := esp }) :=
      .modify s _ fun _ => rfl
    refine .after (.single (.quiet hesp)) (deliverPendingSignals_error hcur (fun hd => ?_) h)
    rw [doomed_esp] at hd
    exact hwhy hd

/-- The handler panics without an owner to switch to. -/
theorem fpuTrap_error {g : FpuImage → FpuImage} (h : s.fpuTrap = .error f) :
    Fails s (.fpu g) s f := by
  unfold fpuTrap at h
  split at h
  · next hts =>
      rcases handleNm_error nmLevels hts with he | ⟨hge, he⟩ <;> rw [he] at h <;>
        rw [← Except.error.inj h]
      · exact .now (.nested ⟨g, rfl⟩ hts)
      · exact .now (.index hge)
  · contradiction

/-- **Failures of a step**: an operation that fails ran some effects and then
met a failing test. -/
theorem step_fails (h : s.step op = .error f) : Fails s op s f := by
  cases op with
  | init | addTask | addUserElfTask | fork | pitTick | setUnblockOnExit | waitpidResume =>
      contradiction
  | exec out =>
      simp only [step, bind_eq_error] at h
      rcases h with h | ⟨_, _, h⟩
      · exact exec_error h
      · contradiction
  | tick esp frame intact =>
      simp only [step, bind_eq_error] at h
      rcases h with h | ⟨_, _, h⟩
      · have hpush := Quiet.frames s (set s.frames esp frame)
        refine .after (.single (.quiet hpush)) (tick_error rfl (fun hi hd => ?_) h)
        exact if_pos ⟨hi, hd⟩
      · contradiction
  | sleep ms => exact sleep_error rfl rfl h
  | blockCurrentTask => exact blockOr_error h
  | unblockTask id => exact unblockTask_error h
  | sendSignal pid sig => exact sendSignal_error h
  | killTask id =>
      refine killTask_error (fun j hj hlt hne hd => ?_) h
      subst hj
      exact ⟨ends_killTask hlt hne hd, rfl⟩
  | exitCurrentTask code => exact exitCurrentTask_error rfl rfl h
  | waitpid status =>
      simp only [step, bind_eq_error] at h
      rcases h with h | ⟨_, _, h⟩
      · exact waitpid_error rfl h
      · contradiction
  | deliverSignals esp =>
      simp only [step, bind_eq_error] at h
      rcases h with h | ⟨_, _, h⟩
      · exact deliverSignals_error rfl (fun hdoom => if_pos hdoom) h
      · contradiction
  | fpu g =>
      simp only [step, bind_eq_error] at h
      rcases h with h | ⟨_, _, h⟩
      · exact fpuTrap_error h
      · contradiction

/-- **Safety rule for steps**: a fault whose test holds in every state that
the effects keep to is no outcome. -/
theorem step_safe {P : Sched → Prop} (keep : ∀ a b, Effect s op a b → P a → P b) (hs : P s)
    (hstuck : ∀ a, P a → ¬ Stuck s op a f) : s.step op ≠ .error f := by
  intro h
  obtain ⟨s₁, he, hst⟩ := step_fails h
  exact hstuck s₁ (effects_inv keep he hs) hst

end Sched

end Doors
