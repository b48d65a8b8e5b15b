import Doors.Scheduler.RoundRobin
import Doors.Scheduler.Timer

/-!
# Doors.Scheduler.Preempt

What the first timer interrupt after `unblockTask` does for the task that was
woken.

`unblockTask` arms the timer for the next millisecond when the woken task has a
better priority than the current one, but `tick` looks for another task only
when the quantum has expired.  `preempts_iff` says when the interrupt leaves a
task running that is as good as the woken one.
-/

namespace Doors

open Run

namespace Sched

open Scheduler

/-- The steps between two timer interrupts. -/
def Untimed (_ : Sched) : TimerOp → Prop
  | .irq _ _ _ | .sys .init | .sys .pitTick | .sys (.tick _ _ _) => False
  | .sys _ => True

/-- The task in slot `t` waits for the processor. -/
def Waiting (s : Sched) (t : Nat) : Prop := (s.tasks t).state = .ready ∧ t ≠ s.currentIdx

instance (s : Sched) (t : Nat) : Decidable (s.Waiting t) := inferInstanceAs (Decidable (_ ∧ _))

/-- Waking a better task preempts the current one at the next timer interrupt,
if the woken task still waits by then. -/
def WakePreempts : Prop :=
  ∀ (s₀ s s₁ s₂ s₃ : Sched) (tr tr' : List TimerOp) (t esp : Nat) (frame : TrapFrame)
    (intact : Bool),
    Reach timerStep Free s₀.boot tr s → (s.tasks t).state = .blocked →
      (s.tasks t).priority < s.cur.priority →
    s.step (.unblockTask t) = .ok s₁ → Reach timerStep Untimed s₁ tr' s₂ → s₂.Waiting t →
    s₂.timerStep (.irq esp frame intact) = .ok s₃ → s₃.cur.priority ≤ (s₂.tasks t).priority

variable {s₀ s s' s₁ s₂ s₃ : Sched} {t i esp : Nat} {frame : TrapFrame} {intact : Bool}
  {tr tr' : List TimerOp}

/-! ## the choice -/

/-- What `findNext` picks is at least as good as any task that waits. -/
theorem findNext_le (hcur : s.currentIdx < s.taskCount) (hmax : s.taskCount ≤ maxTasks)
    (ht : t < s.taskCount)
    (hw : s.Waiting t) (hle : (s.tasks t).priority ≤ Task.priorityIdle)
    (h : s.findNext = .ok (some i)) :
    i ≠ s.currentIdx ∧ (s.tasks i).priority ≤ (s.tasks t).priority := by
  obtain ⟨hready, hne⟩ := hw
  obtain ⟨hahead, hscan⟩ := scanned_ahead hcur ht hne
  have hbeats : ∀ bp, (s.tasks t).priority < bp → Beats s bp (s.ahead t) := by
    intro bp hbp
    unfold Beats
    rw [hscan]
    exact ⟨hready, hbp⟩
  unfold findNext at h
  rw [if_neg (by omega), if_neg (by omega), if_neg (by omega)] at h
  simp only [Except.ok.injEq, Option.some.injEq] at h
  rcases findNextLoop_spec s (List.range (s.taskCount - 1)) (Task.priorityIdle + 1) none with
    ⟨-, hnone⟩ | ⟨pre, k, post, hks, hr, -, hpre, hpost⟩
  · exact absurd (hbeats _ (by omega)) (hnone _ (List.mem_range.mpr hahead))
  · rw [hr] at h
    subst h
    have hk : k ∈ List.range (s.taskCount - 1) := by
      rw [hks]
      simp
    refine ⟨(ahead_scanned hcur (List.mem_range.mp hk)).2.1, ?_⟩
    have hmem : s.ahead t ∈ pre ++ k :: post := hks ▸ List.mem_range.mpr hahead
    by_contra hlt
    simp only [Option.getD_some] at hlt
    rcases List.mem_append.mp hmem with hmem | hmem
    · exact hpre _ hmem (hbeats _ (by omega))
    · rcases List.mem_cons.mp hmem with heq | hmem
      · rw [← heq, hscan] at hlt
        exact hlt le_rfl
      · exact hpost _ hmem (hbeats _ (by omega))

/-! ## the interrupt -/

/-- A task that waits is in the table. -/
theorem Waiting.lt (hw : s.Waiting t) (ht : Table s) : t < s.taskCount := by
  by_contra hge
  have := ht.beyond t (by omega)
  rw [hw.1] at this
  contradiction

/-- Waking sleepers changes no priority, and whoever is READY stays so. -/
theorem wakeExpired_tasks {now k : Nat} (h : wakeExpired now k s = .ok s') (j : Nat) :
    (s'.tasks j).priority = (s.tasks j).priority ∧
      ((s.tasks j).state = .ready → (s'.tasks j).state = .ready) := by
  have hpops := wakeExpired_ok h
  clear h
  induction hpops with
  | refl => exact ⟨rfl, id⟩
  | @tail a b _ hpop ih =>
      obtain ⟨q, n, _, rfl⟩ := popSleeper_ok hpop.2
      simp only [modify_tasks]
      split
      · refine ⟨ih.1, fun hr => ?_⟩
        have := ih.2 hr
        simp [popped, this]
      · exact ih

/-- When the current task exits, the next one is at least as good as any that
waits. -/
theorem exit_preempts {code : Int} (hcur : s.currentIdx < s.taskCount)
    (hmax : s.taskCount ≤ maxTasks)
    (ht : t < s.taskCount) (hw : s.Waiting t) (hle : (s.tasks t).priority ≤ Task.priorityIdle)
    (h : s.exitCurrentTask code = .ok s') : s'.cur.priority ≤ (s.tasks t).priority := by
  obtain ⟨_, q, n, next, u, s₂, -, hu, hfind, -, hready, hs₂, hend⟩ := exitCurrentTask_ok h
  subst hu
  obtain ⟨ppid, htask⟩ := died_tasks s code hw.2
  have hwait : ({ s.died code with sleepQueue := q, sleepCount := n } : Sched).Waiting t := by
    refine ⟨?_, hw.2⟩
    show ((s.died code).tasks t).state = .ready
    rw [htask]
    exact hw.1
  have hprio : ((s.died code).tasks t).priority = (s.tasks t).priority := by rw [htask]
  have hbest :=
    (findNext_le (s := { s.died code with sleepQueue := q, sleepCount := n }) hcur hmax ht hwait
    (by rw [show (_ : Sched).tasks t = (s.died code).tasks t from rfl, hprio]; exact hle) hfind)
  have hnext : s₂.cur.priority ≤ (s.tasks t).priority := by
    have hcur₂ : s₂.cur.priority = ((s.died code).tasks next).priority := by
      rw [hs₂, cur, install_currentIdx, switch_priority]
      simp only [release, modify_tasks]
      split <;> rfl
    rw [hcur₂, ← hprio]
    exact hbest.2
  rcases hend with ⟨rfl, -⟩ | hend
  · exact hnext
  · rcases unblockTask_ok hend with rfl | ⟨j, q', n', p, -, -, -, -, -, rfl⟩
    · exact hnext
    · have hsame :
        (({ s₂.modify j woken with
          sleepQueue := q', sleepCount := n', pit := p } : Sched)).cur.priority =
          s₂.cur.priority := by
        simp only [cur, modify_tasks]
        split <;> rfl
      rw [hsame]
      exact hnext

/-- A tick without the end of the quantum keeps the current task. -/
theorem reschedule_unexpired {now e : Nat} (hexp : ¬ quantumMs ≤ sub64 now s.quantumStartMs)
    (h : s.reschedule now = .ok (e, s')) : s'.cur = s.cur := by
  unfold reschedule at h
  split at h
  · next hge => exact absurd hge hexp
  · rw [Except.ok.injEq, Prod.mk.injEq] at h
    obtain ⟨-, rfl⟩ := h
    unfold programNextTick programForMs cur
    generalize s.nextTickMs = ms
    rfl

/-- At the end of the quantum the processor goes to a task at least as good as
any that waits. -/
theorem reschedule_preempts {now e : Nat} (hcur : s.currentIdx < s.taskCount)
    (hmax : s.taskCount ≤ maxTasks)
    (ht : t < s.taskCount) (hw : s.Waiting t) (hle : (s.tasks t).priority ≤ Task.priorityIdle)
    (hexp : quantumMs ≤ sub64 now s.quantumStartMs) (h : s.reschedule now = .ok (e, s')) :
    s'.cur.priority ≤ (s.tasks t).priority := by
  obtain ⟨r, hr⟩ := findNext_isOk (s := s) (by omega) hmax
  rcases findNext_ok hr with ⟨-, hone⟩ | ⟨-, -, k, -, rfl, -⟩
  · have := hw.2
    omega
  · obtain ⟨hne, hbest⟩ := findNext_le hcur hmax ht hw hle hr
    rcases reschedule_expired hexp h hr with ⟨heq, -⟩ | ⟨-, -, rfl⟩
    · exact absurd heq hne
    · rw [cur, install_currentIdx, switch_priority]
      exact hbest

/-- **One tick**: the task it leaves running is as good as one that waits
exactly if the quantum has expired, the current task is ended by a signal, or it
is as good itself. -/
theorem tick_preempts_iff {r : Option Nat} (hcur : s.currentIdx < s.taskCount)
    (hmax : s.taskCount ≤ maxTasks)
    (ht : t < s.taskCount) (hinit : s.initialized = true) (hw : s.Waiting t)
    (hle : (s.tasks t).priority ≤ Task.priorityIdle) (h : s.tick esp intact = .ok (r, s')) :
    s'.cur.priority ≤ (s.tasks t).priority ↔
      s.doomed = true ∨ quantumMs ≤ sub64 s.pit.ticks s.quantumStartMs ∨
        s.cur.priority ≤ (s.tasks t).priority := by
  rcases tick_ok h with ⟨hno, -⟩ | ⟨-, -, hd, u, code, hq, hexit⟩ |
    ⟨e, u, v, -, hnd, hq, hwake, hres⟩
  · rw [hno] at hinit
    contradiction
  · have hprio : (u.tasks t).priority = (s.tasks t).priority :=
      hq.field Task.priority t fun _ => rfl
    have hwu : u.Waiting t := ⟨(hq.state t).trans hw.1, fun heq => hw.2 (heq.trans hq.currentIdx)⟩
    rw [← hprio] at hle
    rw [← hq.taskCount] at hmax ht
    have hbest :=
      exit_preempts (by rw [hq.currentIdx, hq.taskCount]; exact hcur) hmax ht hwu hle hexit
    rw [hprio] at hbest
    exact ⟨fun _ => .inl hd, fun _ => hbest⟩
  · have hnd := hnd (by omega)
    obtain ⟨hc, hn, hm⟩ := wakeExpired_keeps hwake
    have hcur' : v.currentIdx = s.currentIdx := hc.trans hq.currentIdx
    have hcount : v.taskCount = s.taskCount := hn.trans hq.taskCount
    have hstart : v.quantumStartMs = s.quantumStartMs := by
      rw [hm]
      obtain ⟨_, _, _, _, rfl⟩ := hq.rest
      rfl
    have hprio : ∀ j, (v.tasks j).priority = (s.tasks j).priority := fun j =>
      (wakeExpired_tasks hwake j).1.trans (hq.field Task.priority j fun _ => rfl)
    have hwv : v.Waiting t :=
      ⟨(wakeExpired_tasks hwake t).2 ((hq.state t).trans hw.1), fun heq => hw.2 (heq.trans hcur')⟩
    by_cases hexp : quantumMs ≤ sub64 s.pit.ticks s.quantumStartMs
    · refine ⟨fun _ => .inr (.inl hexp), fun _ => ?_⟩
      rw [← hstart] at hexp
      rw [← hprio t] at hle ⊢
      rw [← hcount] at hmax ht
      exact reschedule_preempts (by rw [hcur', hcount]; exact hcur) hmax ht hwv hle hexp hres
    · have hsame := reschedule_unexpired (by rw [hstart]; exact hexp) hres
      have hpcur : v.cur.priority = s.cur.priority := by
        rw [cur, hprio, hcur', cur]
      rw [hsame, hpcur, hnd]
      simp only [Bool.false_eq_true, hexp, false_or]

theorem irq_preempts_iff (htab : Table s) (hinit : s.initialized = true) (hw : s.Waiting t)
    (hle : (s.tasks t).priority ≤ Task.priorityIdle)
    (h : s.timerStep (.irq esp frame intact) = .ok s') :
    s'.cur.priority ≤ (s.tasks t).priority ↔
      s.doomed = true ∨ quantumMs ≤ sub64 s.pit.deadline s.quantumStartMs ∨
        s.cur.priority ≤ (s.tasks t).priority := by
  simp only [timerStep, step, bind_eq_ok] at h
  obtain ⟨_, hp, ⟨r, s₁⟩, htick, hs⟩ := h
  simp only [Except.ok.injEq] at hp hs
  subst hp hs
  have hiff := fun h₁ h₂ h₃ h₄ h₅ h₆ => tick_preempts_iff (t := t) h₁ h₂ h₃ h₄ h₅ h₆ htick
  exact hiff htab.cur_lt htab.count_le (hw.lt htab) hinit hw hle

/-! ## runs -/

theorem boot_table (s : Sched) : Table s.boot :=
  (init_table s).congr rfl rfl (fun _ => rfl) fun _ => rfl

/-- Every run keeps the table and does not undo the initialisation. -/
theorem timerStep_keeps {op : TimerOp} (h : Table s ∧ s.initialized = true)
    (hs : s.timerStep op = .ok s') :
    Table s' ∧ s'.initialized = true := by
  have hone : ∀ {a b : Sched} {o : Op}, Table a ∧ a.initialized = true → a.step o = .ok b →
      Table b ∧ b.initialized = true := fun ha hb =>
    step_inv (P := fun s => Table s ∧ s.initialized = true) ha.1.cur_lt ha.1.cur_live
      (fun _ _ he hp => ⟨he.table hp.1, he.initialized hp.2⟩) ha hb
  cases op with
  | sys op => exact hone h hs
  | irq esp frame intact =>
      simp only [timerStep, bind_eq_ok] at hs
      obtain ⟨s₁, h₁, h₂⟩ := hs
      exact hone (hone h h₁) h₂

/-- **Preemption after a wakeup**: at the first interrupt after `unblockTask` woke
a task that still waits, exactly if the current task's quantum has expired by
then, a signal ends it, or it is not worse than the woken task any more. -/
theorem preempts_iff (hr : Reach timerStep Free s₀.boot tr s)
    (hun : s.step (.unblockTask t) = .ok s₁)
    (hmid : Reach timerStep Untimed s₁ tr' s₂) (hw : s₂.Waiting t)
    (hle : (s₂.tasks t).priority ≤ Task.priorityIdle)
    (hirq : s₂.timerStep (.irq esp frame intact) = .ok s₃) :
    s₃.cur.priority ≤ (s₂.tasks t).priority ↔
      s₂.doomed = true ∨ quantumMs ≤ sub64 s₂.pit.deadline s₂.quantumStartMs ∨
        s₂.cur.priority ≤ (s₂.tasks t).priority := by
  have h := hr.inv (P := fun s => Table s ∧ s.initialized = true) ⟨boot_table s₀, rfl⟩
    fun _ _ _ h _ hs => timerStep_keeps h hs
  have h₁ := timerStep_keeps h (show s.timerStep (.sys (.unblockTask t)) = .ok s₁ from hun)
  have h₂ := hmid.inv (P := fun s => Table s ∧ s.initialized = true) h₁ fun _ _ _ h _ hs =>
    timerStep_keeps h hs
  exact irq_preempts_iff h₂.1 h₂.2 hw hle hirq

/-- A task of best priority blocks in its first quantum and is woken by a worse
one that has just got the processor. -/
def wakeRun : List TimerOp :=
  [.sys (.addTask true 0x1000 0 Task.priorityNormal 0x8000),
    .sys (.addTask true 0x2000 0 Task.priorityHigh 0xA000),
    .irq 0 {} true, .irq 0 {} true, .sys .blockCurrentTask, .irq 0 {} true]

/-- The interrupt one millisecond after the wakeup does not preempt. -/
theorem not_wakePreempts : ¬ WakePreempts := by
  intro h
  let s := wakeRun.foldl (follow timerStep) ({} : Sched).boot
  let s₁ := follow step s (.unblockTask 2)
  let s₂ := follow timerStep s₁ (.irq 0 {} true)
  have hr : Reach timerStep Free ({} : Sched).boot wakeRun s := Reach.of_follow (by decide)
  have hle : s₂.cur.priority ≤ (s₁.tasks 2).priority :=
    h _ s s₁ s₁ s₂ wakeRun [] 2 0 {} true hr (by decide) (by decide)
      (step_follow (by decide)) .nil (by decide)
      (step_follow (by decide))
  exact absurd hle (by decide)

/-- The worse task has used 19 milliseconds of its quantum. -/
def lateRun : List TimerOp := wakeRun ++ [.sys (.sleep 19), .sys (.unblockTask 1), .irq 0 {} true]

/-- With 19 milliseconds of the quantum used the interrupt does preempt. -/
theorem preempts_iff_lateWake :
    let s := lateRun.foldl (follow timerStep) ({} : Sched).boot
    let s₁ := follow step s (.unblockTask 2)
    let s₂ := follow timerStep s₁ (.irq 0 {} true)
    s₂.cur.priority ≤ (s₁.tasks 2).priority ∧ s₂.currentIdx = 2 := by
  intro s s₁ s₂
  have hr : Reach timerStep Free ({} : Sched).boot lateRun s := Reach.of_follow (by decide)
  refine ⟨(preempts_iff hr (step_follow (by decide)) .nil (by decide) (by decide)
      (step_follow (by decide))).mpr ?_, by decide⟩
  exact .inr (.inl (by decide))

end Sched

end Doors
