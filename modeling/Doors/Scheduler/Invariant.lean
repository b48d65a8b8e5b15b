import Doors.Scheduler.Failure

/-!
# Doors.Scheduler.Invariant

The invariant of the task table over whole runs.

* `Table` holds in every state reached from `Scheduler::init`, whatever the
  tasks do: the current index is in the table, at most the current task is
  RUNNING, every live slot carries its own index.
* `Idle` needs that the idle task never sleeps, blocks or exits and is never
  killed (`KeepsIdle`): slot 0 can always be switched to.
* `scheduler_invariant` puts both together and adds that no index check, no
  switch and no search for a runnable task can panic.
-/

namespace Doors

open Run

namespace Sched

open Scheduler

/-! ## the invariant -/

/-- What holds of the task table in every run. -/
structure Table (s : Sched) : Prop where
  cur_lt : s.currentIdx < s.taskCount
  count_le : s.taskCount ≤ maxTasks
  running : ∀ i, (s.tasks i).state = .running → i = s.currentIdx
  id_eq : ∀ i, (s.tasks i).state ≠ .dead → (s.tasks i).id = i
  cur_live : s.cur.state ≠ .dead
  beyond : ∀ i, s.taskCount ≤ i → (s.tasks i).state = .dead

/-- What holds of slot 0 while the idle task behaves: it is a kernel task that
is always able to run. -/
structure Idle (s : Sched) : Prop where
  runnable : (s.tasks 0).state = .ready ∨ (s.tasks 0).state = .running
  noStack : (s.tasks 0).userStackPageCount = 0
  noDir : (s.tasks 0).pageDir = 0

/-- The idle task does not sleep, block or exit, and is not killed. -/
def KeepsIdle (s : Sched) : Op → Prop
  | .sleep _ | .blockCurrentTask | .exitCurrentTask _ | .waitpid _ => s.currentIdx ≠ 0
  | .killTask id => id ≠ 0
  | _ => True

instance (s : Sched) (op : Op) : Decidable (KeepsIdle s op) := by
  apply @Op.casesOn _ op <;> intros <;> unfold KeepsIdle <;> infer_instance

variable {s₀ s s' : Sched} {op : Op}

/-! ## initially -/

/-- The table at the start. -/
theorem init_table (s : Sched) : Table s.init where
  cur_lt := Nat.one_pos
  count_le := show 1 ≤ maxTasks by decide
  running := by
    intro i hi
    by_contra hne
    simp only [init, show i ≠ 0 from hne, if_false] at hi
    contradiction
  id_eq := by
    intro i hi
    by_cases h0 : i = 0
    · subst h0
      rfl
    · exact absurd (congrArg Task.state (if_neg h0)) hi
  cur_live := show TaskState.running ≠ .dead by decide
  beyond := by
    intro i hi
    have h0 : i ≠ 0 := by
      change 1 ≤ i at hi
      omega
    exact congrArg Task.state (if_neg h0)

/-- The idle task at the start. -/
theorem init_idle (s : Sched) : Idle s.init := ⟨.inr rfl, rfl, rfl⟩

/-! ## effects -/

/-- Changes that no part of the table invariant reads. -/
theorem Table.congr (h : Table s) (hc : s'.currentIdx = s.currentIdx)
    (hn : s'.taskCount = s.taskCount)
    (hs : ∀ i, (s'.tasks i).state = (s.tasks i).state)
    (hi : ∀ i, (s'.tasks i).id = (s.tasks i).id) :
    Table s' where
  cur_lt := by
    rw [hc, hn]
    exact h.cur_lt
  count_le := by
    rw [hn]
    exact h.count_le
  running := by
    intro i
    rw [hs, hc]
    exact h.running i
  id_eq := by
    intro i
    rw [hs, hi]
    exact h.id_eq i
  cur_live := by
    rw [cur, hc, hs]
    exact h.cur_live
  beyond := by
    intro i
    rw [hn, hs]
    exact h.beyond i

/-- Changes of live slots to another state that is neither DEAD nor RUNNING. -/
theorem Table.restate (h : Table s) (hc : s'.currentIdx = s.currentIdx)
    (hn : s'.taskCount = s.taskCount)
    (hs : ∀ i, (s'.tasks i).state = (s.tasks i).state ∨
      (s.tasks i).state ≠ .dead ∧ (s'.tasks i).state ≠ .dead ∧ (s'.tasks i).state ≠ .running)
    (hi : ∀ i, (s'.tasks i).id = (s.tasks i).id) : Table s' where
  cur_lt := by
    rw [hc, hn]
    exact h.cur_lt
  count_le := by
    rw [hn]
    exact h.count_le
  running := by
    intro i hr
    rcases hs i with he | ⟨_, _, hne⟩
    · rw [hc]
      exact h.running i (by rw [← he]; exact hr)
    · exact absurd hr hne
  id_eq := by
    intro i hlive
    rw [hi]
    rcases hs i with he | ⟨hl, _⟩
    · exact h.id_eq i (by rw [← he]; exact hlive)
    · exact h.id_eq i hl
  cur_live := by
    rw [cur, hc]
    rcases hs s.currentIdx with he | ⟨_, hl, _⟩
    · rw [he]
      exact h.cur_live
    · exact hl
  beyond := by
    intro i hle
    rw [hn] at hle
    rcases hs i with he | ⟨hl, _⟩
    · rw [he]
      exact h.beyond i hle
    · exact absurd (h.beyond i hle) hl

/-- A change that keeps state and id. -/
theorem Table.modify (h : Table s) (i : Nat) {f : Task → Task}
    (hf : ∀ t, (f t).state = t.state ∧ (f t).id = t.id) : Table (s.modify i f) := by
  refine h.congr rfl rfl (fun j => ?_) (fun j => ?_)
  · rw [modify_tasks]
    split
    · exact (hf _).1
    · rfl
  · rw [modify_tasks]
    split
    · exact (hf _).2
    · rfl

/-- The slot that a task was switched away from. -/
theorem left_state (t : Task) : (left t).state ≠ .running ∧
    ((left t).state = .dead ↔ t.state = .dead) ∧ (left t).id = t.id := by
  unfold left
  split
  · next hr => simp [hr]
  · next hr => exact ⟨hr, Iff.rfl, rfl⟩

/-- A switch to a READY task of a table whose current task may have died. -/
theorem Table.switch {a : Sched} (hcount : a.taskCount ≤ maxTasks)
    (hrun : ∀ i, (a.tasks i).state = .running → i = a.currentIdx)
    (hid : ∀ i, (a.tasks i).state ≠ .dead → (a.tasks i).id = i)
    (hbeyond : ∀ i, a.taskCount ≤ i → (a.tasks i).state = .dead) {next : Nat}
    (hready : (a.leave.tasks next).state = .ready) : Table (a.leave.install next) := by
  have hlive : (a.tasks next).state ≠ .dead := by
    rw [leave_tasks] at hready
    split at hready
    · intro hd
      rw [(left_state _).2.1.mpr hd] at hready
      contradiction
    · rw [hready]
      decide
  have hdead : ∀ i, ((a.leave.tasks i).state = .dead ↔ (a.tasks i).state = .dead) ∧
      (a.leave.tasks i).id = (a.tasks i).id := by
    intro i
    rw [leave_tasks]
    split
    · exact (left_state _).2
    · exact ⟨Iff.rfl, rfl⟩
  constructor
  · by_contra hle
    exact hlive (hbeyond next (Nat.not_lt.mp hle))
  · exact hcount
  · intro i hi
    rw [install_tasks] at hi
    split at hi
    · next he => exact he
    · rw [leave_tasks] at hi
      split at hi
      · exact absurd hi (left_state _).1
      · next hne => exact absurd (hrun i hi) hne
  · intro i hi
    rw [install_tasks] at hi ⊢
    split
    · next he =>
        rw [he]
        exact (hdead next).2.trans (hid next hlive)
    · next hne =>
        rw [if_neg hne] at hi
        rw [(hdead i).2]
        exact hid i (by rwa [ne_eq, (hdead i).1] at hi)
  · rw [cur, install_currentIdx, install_tasks, if_pos rfl]
    simp
  · intro i hi
    have hd := hbeyond i hi
    rw [install_tasks, if_neg (by rintro rfl; exact hlive hd)]
    exact (hdead i).1.mpr hd

/-- A kill of another task. -/
theorem Table.kill (h : Table s) {i : Nat} (hcur : i ≠ s.currentIdx) (q : Nat → SleepEntry)
    (n : Nat) : Table { s.killed i with sleepQueue := q, sleepCount := n } := by
  have hother : ∀ j, j ≠ i → ((s.killed i).tasks j).state = (s.tasks j).state ∧
      ((s.killed i).tasks j).id = (s.tasks j).id := by
    intro j hj
    obtain ⟨ppid, hp⟩ := killed_tasks s i hj
    rw [hp]
    exact ⟨rfl, rfl⟩
  have hself : ((s.killed i).tasks i).state = .dead := by rw [killed_self]
  constructor
  · exact h.cur_lt
  · exact h.count_le
  · intro j hj
    change ((s.killed i).tasks j).state = .running at hj
    by_cases hji : j = i
    · rw [hji, hself] at hj
      contradiction
    · rw [(hother j hji).1] at hj
      exact h.running j hj
  · intro j hj
    change ((s.killed i).tasks j).state ≠ .dead at hj
    change ((s.killed i).tasks j).id = j
    by_cases hji : j = i
    · rw [hji] at hj
      contradiction
    · rw [(hother j hji).1] at hj
      rw [(hother j hji).2]
      exact h.id_eq j hj
  · change ((s.killed i).tasks s.currentIdx).state ≠ .dead
    rw [(hother s.currentIdx hcur.symm).1]
    exact h.cur_live
  · intro j hj
    change ((s.killed i).tasks j).state = .dead
    by_cases hji : j = i
    · rw [hji, hself]
    · rw [(hother j hji).1]
      exact h.beyond j hj

/-- A creation. -/
theorem Table.create (h : Table s) {slot : Nat} (hc : Created s slot s') : Table s' := by
  have hfree : (s.tasks slot).state = .dead := by
    rcases hc.free with ⟨_, hd⟩ | ⟨he, _⟩
    · exact hd
    · exact h.beyond slot (by omega)
  have hslot : slot < maxTasks := by
    have := h.count_le
    rcases hc.free with ⟨hlt, _⟩ | ⟨he, _⟩ <;> omega
  have hnew : (s'.tasks slot).state = .dead ∨
      (s'.tasks slot).state = .ready ∧ (s'.tasks slot).id = slot := by
    rcases hc.state with hs | hs | ⟨hs, hi⟩
    · exact .inl (hs.trans hfree)
    · exact .inl hs
    · refine .inr ⟨hs, ?_⟩
      rw [hi, Nat.mod_eq_of_lt]
      have : maxTasks = 8 := rfl
      omega
  have hother : ∀ j, j ≠ slot → (s'.tasks j).state = (s.tasks j).state ∧
      (s'.tasks j).id = (s.tasks j).id := by
    intro j hj
    obtain ⟨cs, fs, he⟩ := hc.others j hj
    rw [he]
    exact ⟨rfl, rfl⟩
  have hcur : s.currentIdx ≠ slot := by
    intro he
    exact h.cur_live (by rw [cur, he]; exact hfree)
  have hcount := hc.count
  constructor
  · rw [hc.currentIdx]
    have := h.cur_lt
    omega
  · have := h.count_le
    omega
  · intro j hj
    rw [hc.currentIdx]
    by_cases hji : j = slot
    · subst hji
      rcases hnew with hd | ⟨hr, _⟩
      · rw [hd] at hj
        contradiction
      · rw [hr] at hj
        contradiction
    · rw [(hother j hji).1] at hj
      exact h.running j hj
  · intro j hj
    by_cases hji : j = slot
    · subst hji
      rcases hnew with hd | ⟨_, hi⟩
      · exact absurd hd hj
      · exact hi
    · rw [(hother j hji).1] at hj
      rw [(hother j hji).2]
      exact h.id_eq j hj
  · rw [cur, hc.currentIdx, (hother _ hcur).1]
    exact h.cur_live
  · intro j hj
    have hji : j ≠ slot := by omega
    rw [(hother j hji).1]
    exact h.beyond j (by omega)

/-- An exit, with the switch to a READY task. -/
theorem Table.exit (h : Table s) {code : Int} {q : Nat → SleepEntry} {n next : Nat}
    (hne : next ≠ s.currentIdx) (hready : (s.tasks next).state = .ready) :
    Table (s.exited code next q n) := by
  have hself : ((s.departed code q n).tasks s.currentIdx).state = .dead := by rw [departed_cur]
  have hother : ∀ j, j ≠ s.currentIdx →
      ((s.departed code q n).tasks j).state = (s.tasks j).state ∧
      ((s.departed code q n).tasks j).id = (s.tasks j).id := by
    intro j hj
    obtain ⟨ppid, hp⟩ := departed_tasks s code q n hj
    rw [hp]
    exact ⟨rfl, rfl⟩
  refine Table.switch (a := s.departed code q n) h.count_le ?_ ?_ ?_ ?_
  · intro i hi
    by_cases hi' : i = s.currentIdx
    · exact hi'
    · rw [(hother i hi').1] at hi
      exact h.running i hi
  · intro i hi
    by_cases hi' : i = s.currentIdx
    · rw [hi'] at hi
      exact absurd hself hi
    · rw [(hother i hi').1] at hi
      rw [(hother i hi').2]
      exact h.id_eq i hi
  · intro i hi
    by_cases hi' : i = s.currentIdx
    · rw [hi']
      exact hself
    · rw [(hother i hi').1]
      exact h.beyond i hi
  · rw [leave_tasks, departed_currentIdx, if_neg hne, (hother next hne).1]
    exact hready

/-- **Table step**: every effect keeps the table invariant. -/
theorem Effect.table (he : Effect s₀ op s s') (h : Table s) : Table s' := by
  cases he with
  | init => exact init_table s
  | quiet hq =>
      exact h.congr hq.currentIdx hq.taskCount hq.state fun i => hq.field Task.id i fun _ => rfl
  | timer m p => exact h.congr rfl rfl (fun _ => rfl) fun _ => rfl
  | notify tasks ht _ =>
      refine h.congr rfl rfl (fun i => ?_) fun i => ?_
      · obtain ⟨u, hu⟩ := ht i
        have hs := congrArg Task.state hu
        exact hs
      · obtain ⟨u, hu⟩ := ht i
        have hi := congrArg Task.id hu
        exact hi
  | reap k _ => exact h.modify _ fun _ => ⟨rfl, rfl⟩
  | mark i code _ _ => exact h.modify _ fun _ => ⟨rfl, rfl⟩
  | block =>
      refine h.restate rfl rfl (fun i => ?_) fun i => ?_
      · rw [modify_tasks]
        split
        · next hi => exact .inr ⟨by rw [hi]; exact h.cur_live, by simp, by simp⟩
        · exact .inl rfl
      · rw [modify_tasks]
        split <;> rfl
  | sleep =>
      refine h.restate rfl rfl (fun i => ?_) fun i => ?_
      · simp only [modify_tasks]
        split
        · next hi => exact .inr ⟨by rw [hi]; exact h.cur_live, by simp, by simp⟩
        · exact .inl rfl
      · simp only [modify_tasks]
        split <;> rfl
  | wake _ _ hb =>
      refine h.restate rfl rfl (fun i => ?_) fun i => ?_
      · simp only [modify_tasks]
        split
        · next hi => exact .inr ⟨by rw [hi, hb]; simp, by simp [woken], by simp [woken]⟩
        · exact .inl rfl
      · simp only [modify_tasks]
        split <;> rfl
  | pop =>
      refine h.restate rfl rfl (fun i => ?_) fun i => ?_
      · simp only [modify_tasks]
        split
        · simp only [popped]
          split
          · next hb => exact .inr ⟨by rw [hb]; simp, by simp, by simp⟩
          · exact .inl rfl
        · exact .inl rfl
      · simp only [modify_tasks]
        split <;> rfl
  | switch _ hready => exact .switch h.count_le h.running h.id_eq h.beyond hready
  | exit _ _ _ _ hne hready => exact h.exit hne hready
  | kill _ hcur => exact h.kill hcur _ _
  | create _ hc => exact h.create hc
  | image _ _ hf =>
      refine h.modify _ fun t => ⟨?_, ?_⟩
      · have hs := congrArg Task.state (hf t)
        exact hs
      · have hi := congrArg Task.id (hf t)
        exact hi
  | fpu => exact h.congr rfl rfl (fun _ => rfl) fun _ => rfl

/-- Nothing comes back to life but by creation. -/
theorem Effect.stays_dead (he : Effect s₀ op s s') (hp : op.plain = true) (h : Table s) {i : Nat}
    (hd : (s.tasks i).state = .dead) : (s'.tasks i).state = .dead := by
  have hcur : i ≠ s.currentIdx := by
    rintro rfl
    exact h.cur_live hd
  have hswitch : ∀ a : Sched, (a.tasks i).state = .dead →
    ∀ next, (a.leave.tasks next).state = .ready →
      ((a.leave.install next).tasks i).state = .dead := by
    intro a ha next hready
    have hleave : (a.leave.tasks i).state = .dead := by
      rw [leave_tasks]
      split
      · exact (left_state _).2.1.mpr ha
      · exact ha
    rw [install_tasks, if_neg]
    · exact hleave
    · rintro rfl
      rw [hleave] at hready
      contradiction
  cases he with
  | init hop =>
      subst hop
      contradiction
  | quiet hq => rw [hq.state, hd]
  | timer => exact hd
  | notify tasks hu _ =>
      obtain ⟨u, hu⟩ := hu i
      have hs := congrArg Task.state hu
      exact hs.trans hd
  | reap | mark =>
      rw [modify_tasks]
      split <;> exact hd
  | block => rw [modify_tasks, if_neg hcur, hd]
  | sleep =>
      simp only [modify_tasks]
      rw [if_neg hcur, hd]
  | @wake j _ _ _ _ _ hb =>
      have hij : i ≠ j := by
        rintro rfl
        rw [hd] at hb
        contradiction
      simp only [modify_tasks]
      rw [if_neg hij, hd]
  | pop =>
      simp only [modify_tasks]
      split
      · simp [popped, hd]
      · exact hd
  | switch _ hready => exact hswitch s hd _ hready
  | @exit code next q n _ _ _ _ hne hready =>
      obtain ⟨ppid, hp⟩ := departed_tasks s code q n hcur
      obtain ⟨ppid', hp'⟩ := departed_tasks s code q n hne
      refine hswitch (s.departed code q n) (by rw [hp]; exact hd) next ?_
      rw [leave_tasks, departed_currentIdx, if_neg hne, hp']
      exact hready
  | @kill j q n =>
      by_cases hi : i = j
      · have hs := congrArg Task.state (killed_self s j)
        rw [hi]
        exact hs
      · obtain ⟨ppid, hk⟩ := killed_tasks s j hi
        have hs := congrArg Task.state hk
        exact hs.trans hd
  | create hop => cases op <;> contradiction
  | image hop =>
      obtain ⟨out, rfl⟩ := hop
      contradiction
  | fpu _ hop =>
      obtain ⟨g, rfl⟩ := hop
      contradiction

/-! ## the idle task -/

/-- The idle task stays. -/
theorem Idle.of_eq (h : Idle s) (he : s'.tasks 0 = s.tasks 0) : Idle s' := by
  obtain ⟨h1, h2, h3⟩ := h
  rw [← he] at h1 h2 h3
  exact ⟨h1, h2, h3⟩

/-- The idle task keeps what makes it one. -/
theorem Idle.congr (h : Idle s) (hs : (s'.tasks 0).state = (s.tasks 0).state)
    (hu : (s'.tasks 0).userStackPageCount = (s.tasks 0).userStackPageCount)
    (hp : (s'.tasks 0).pageDir = (s.tasks 0).pageDir) : Idle s' :=
  ⟨by rw [hs]; exact h.runnable, hu.trans h.noStack, hp.trans h.noDir⟩

/-- A change that keeps what makes the idle task one. -/
theorem Idle.modify (h : Idle s) (i : Nat) {f : Task → Task}
    (hf : ∀ t, (f t).state = t.state ∧ (f t).userStackPageCount = t.userStackPageCount ∧
      (f t).pageDir = t.pageDir) : Idle (s.modify i f) := by
  by_cases hi : 0 = i
  · refine h.congr ?_ ?_ ?_
    · rw [modify_tasks, if_pos hi]
      exact (hf _).1
    · rw [modify_tasks, if_pos hi]
      exact (hf _).2.1
    · rw [modify_tasks, if_pos hi]
      exact (hf _).2.2
  · exact h.of_eq (by rw [modify_tasks, if_neg hi])

/-- A change of another task. -/
theorem Idle.modify_ne (h : Idle s) {i : Nat} (hi : i ≠ 0) (f : Task → Task) :
    Idle (s.modify i f) :=
  h.of_eq (by rw [modify_tasks, if_neg hi.symm])

/-- Nobody ends the idle task. -/
theorem ends_ne (hi : Idle s₀) (hc : KeepsIdle s₀ op) {i : Nat}
    (h : s₀.ends op = some i) : i ≠ 0 := by
  have hdoom : s₀.doomed = true → s₀.currentIdx ≠ 0 := by
    intro hd h0
    simp [doomed, cur, h0, hi.noStack] at hd
  have hdir : s₀.cur.pageDir ≠ 0 → s₀.currentIdx ≠ 0 := by
    intro hd h0
    rw [cur, h0] at hd
    exact hd hi.noDir
  cases op with
  | exitCurrentTask code =>
      simp only [ends, Option.some.injEq] at h
      rw [← h]
      exact hc
  | killTask id =>
      simp only [ends] at h
      split at h
      · next hid =>
          simp only [Option.some.injEq] at h
          have : id ≠ 0 := hc
          omega
      · contradiction
  | sendSignal pid sig =>
      simp only [ends] at h
      split at h
      · have := (findTarget_some h).1
        omega
      · contradiction
  | tick esp frame intact =>
      simp only [ends] at h
      split at h
      · next hd =>
          simp only [Option.some.injEq] at h
          rw [← h]
          exact hdoom hd.2
      · contradiction
  | deliverSignals esp =>
      simp only [ends] at h
      split at h
      · next hd =>
          simp only [Option.some.injEq] at h
          rw [← h]
          exact hdoom hd
      · contradiction
  | exec out =>
      cases out with
      | noStack | loadFailed =>
          simp only [ends] at h
          split at h
          · next hd =>
              simp only [Option.some.injEq] at h
              rw [← h]
              exact hdir hd
          · contradiction
      | noModule | invalidElf | loaded => contradiction
  | init | addTask | addUserElfTask | fork | pitTick | sleep | blockCurrentTask | unblockTask
  | setUnblockOnExit | waitpid | waitpidResume | fpu => contradiction

/-- A switch keeps slot 0 able to run. -/
theorem Idle.switch (h : Idle s) (next : Nat) : Idle (s.leave.install next) := by
  have hleft : Idle s.leave := by
    refine ⟨?_, ?_, ?_⟩
    · rw [leave_tasks]
      split
      · unfold left
        split
        · exact .inl rfl
        · exact h.runnable
      · exact h.runnable
    · rw [leave_tasks]
      unfold left
      split
      · split <;> exact h.noStack
      · exact h.noStack
    · rw [leave_tasks]
      unfold left
      split
      · split <;> exact h.noDir
      · exact h.noDir
  refine ⟨?_, ?_, ?_⟩
  · rw [install_tasks]
    split
    · exact .inr rfl
    · exact hleft.runnable
  · rw [install_tasks]
    split <;> exact hleft.noStack
  · rw [install_tasks]
    split <;> exact hleft.noDir

/-- **Idle step**: every effect of a well-behaved operation keeps slot 0 able
to run. -/
theorem Effect.idle (he : Effect s₀ op s s') (hc : KeepsIdle s₀ op) (h₀ : Idle s₀) (ht : Table s)
    (h : Idle s) : Idle s' := by
  cases he with
  | init => exact init_idle s
  | quiet hq =>
      exact h.congr (hq.state 0) (hq.userStackPageCount 0) (hq.field Task.pageDir 0 fun _ => rfl)
  | timer m p => exact h.of_eq rfl
  | notify tasks ht _ =>
      obtain ⟨u, hu⟩ := ht 0
      have hs := congrArg Task.state hu
      have hn := congrArg Task.userStackPageCount hu
      have hd := congrArg Task.pageDir hu
      exact h.congr hs hn hd
  | reap k _ => exact h.modify _ fun _ => ⟨rfl, rfl, rfl⟩
  | mark i code _ _ => exact h.modify _ fun _ => ⟨rfl, rfl, rfl⟩
  | block hcur hop =>
      refine h.modify_ne ?_ _
      rw [hcur]
      rcases hop with rfl | ⟨status, rfl⟩
      · exact hc
      · exact hc
  | sleep hop hs =>
      subst hs hop
      exact h.of_eq (if_neg fun h0 => hc h0.symm)
  | @wake j _ _ _ _ _ hb =>
      have hj : j ≠ 0 := by
        rintro rfl
        rcases h.runnable with hr | hr <;> rw [hb] at hr <;> contradiction
      exact h.of_eq (if_neg fun h0 => hj h0.symm)
  | pop =>
      by_cases hj : (s.sleepQueue 0).taskId = 0
      · have hnb : (s.tasks 0).state ≠ .blocked := by
          rcases h.runnable with hr | hr <;> rw [hr] <;> decide
        refine h.congr ?_ ?_ ?_
        · simp [hj, popped, hnb]
        · simp [hj, popped]
        · simp [hj, popped]
      · exact h.of_eq (if_neg fun h0 => hj h0.symm)
  | switch => exact h.switch _
  | @exit code _ q n _ hwhy =>
      have h0 : 0 ≠ s.currentIdx := (ends_ne h₀ hc hwhy).symm
      obtain ⟨ppid, hp⟩ := departed_tasks s code q n h0
      have hd : Idle (s.departed code q n) := by
        refine h.congr ?_ ?_ ?_
        · rw [hp]
        · rw [hp]
        · rw [hp]
      exact hd.switch _
  | @kill i _ _ _ _ _ hwhy =>
      have hi : 0 ≠ i := (ends_ne h₀ hc hwhy).symm
      obtain ⟨ppid, hp⟩ := killed_tasks s i hi
      refine h.congr ?_ ?_ ?_
      · have hs := congrArg Task.state hp
        exact hs
      · have hn := congrArg Task.userStackPageCount hp
        exact hn
      · have hd := congrArg Task.pageDir hp
        exact hd
  | @create _ slot _ hcr =>
      have hslot : 0 ≠ slot := by
        rintro rfl
        rcases hcr.free with ⟨_, hd⟩ | ⟨hz, _⟩
        · rcases h.runnable with hr | hr <;> rw [hd] at hr <;> contradiction
        · exact absurd ht.cur_lt (by omega)
      obtain ⟨cs, fs, ht⟩ := hcr.others 0 hslot
      refine h.congr ?_ ?_ ?_
      · rw [ht]
      · rw [ht]
      · rw [ht]
  | image _ hwhy hf =>
      refine h.modify_ne ?_ _
      intro h0
      rw [cur, h0] at hwhy
      exact hwhy h.noDir
  | fpu => exact h.of_eq rfl

/-! ## runs -/

/-- **One step** keeps the table. -/
theorem step_table (h : Table s) (hs : s.step op = .ok s') : Table s' :=
  step_inv h.cur_lt h.cur_live (fun _ _ he => he.table) h hs

/-- The slot that `findSlot` hands out is no live task's. -/
theorem Vacant.dead {slot : Nat} (h : s.Vacant slot) (ht : Table s) :
    (s.tasks slot).state = .dead := by
  rcases h.free with ⟨_, hd⟩ | ⟨hd, _⟩
  · exact hd
  · exact ht.beyond slot (by omega)

/-- A vacant slot is in the array. -/
theorem Vacant.lt_max {slot : Nat} (h : s.Vacant slot) (ht : Table s) : slot < maxTasks := by
  have := ht.count_le
  rcases h.free with ⟨hlt, _⟩ | ⟨heq, hlt⟩ <;> omega

/-- **Table**: the table invariant holds in every run. -/
theorem reach_table {C : Sched → Op → Prop} {tr : List Op}
    (h : Reach step C s₀.init tr s) : Table s :=
  h.inv (init_table s₀) fun _ _ _ hT _ hs => step_table hT hs

/-- Both invariants are kept by the effects of a well-behaved operation. -/
theorem Effect.keeps (hc : KeepsIdle s₀ op) (h₀ : Idle s₀) (a b : Sched) (he : Effect s₀ op a b)
    (h : Table a ∧ Idle a) : Table b ∧ Idle b :=
  ⟨he.table h.1, he.idle hc h₀ h.1 h.2⟩

/-- **Every run** keeps the table and the idle task. -/
theorem reach_idle {tr : List Op} (h : Reach step KeepsIdle s₀.init tr s) : Table s ∧ Idle s := by
  refine h.inv (P := fun s => Table s ∧ Idle s) ⟨init_table s₀, init_idle s₀⟩ ?_
  intro s op s' hP hc hs
  exact step_inv hP.1.cur_lt hP.1.cur_live (Effect.keeps hc hP.2) hP hs

/-- The panics of the scheduler that check its own data. -/
def schedulerPanics : List Panic :=
  [.tickCurrentIdx, .switchToNotReady, .findNextCurrentIdx, .findNextTaskCount, .exitNoRunnable,
    .exitCurrentIdx, .sleepCurrentIdx, .blockCurrentTaskCurrentIdx, .blockAndYieldCurrentIdx,
    .handleNmCurrentIdx]

/-- No test of the scheduler on its own data fails while both invariants
hold. -/
theorem not_stuck (hc : KeepsIdle s₀ op) (h₀ : Idle s₀) {p : Panic} (hp : p ∈ schedulerPanics)
    (a : Sched)
    (h : Table a ∧ Idle a) : ¬ Stuck s₀ op a (.panic p) := by
  obtain ⟨ht, hi⟩ := h
  have hlt := ht.cur_lt
  have hle := ht.count_le
  have hready : a.currentIdx ≠ 0 → (a.tasks 0).state = .ready := by
    intro h0
    rcases hi.runnable with hr | hr
    · exact hr
    · exact absurd (ht.running 0 hr).symm h0
  intro hst
  cases hst with
  | index hge => omega
  | count hgt => omega
  | alone hcur hwhy h1 =>
      have := ends_ne h₀ hc hwhy
      omega
  | exitIdle hcur hwhy h0 =>
      have hne : a.currentIdx ≠ 0 := by
        rw [hcur]
        exact ends_ne h₀ hc hwhy
      rcases h0 with h0 | h0
      · exact hne h0
      · exact h0 (hready hne)
  | idle hne h0 => exact h0 (hready hne)
  | canary => simp [schedulerPanics] at hp

/-- **Scheduler invariant**: in every state reached from `init` while the
idle task behaves, the indices are in range, at most the current task is
RUNNING, slot 0 can run, every live slot carries its index, and no operation
runs into one of the scheduler's own panics. -/
theorem scheduler_invariant {tr : List Op} (h : Reach step KeepsIdle s₀.init tr s) :
    s.currentIdx < s.taskCount ∧ s.taskCount ≤ maxTasks ∧
    (∀ i, (s.tasks i).state = .running → i = s.currentIdx) ∧
    ((s.tasks 0).state = .ready ∨ (s.tasks 0).state = .running) ∧
    (∀ i, (s.tasks i).state ≠ .dead → (s.tasks i).id = i) ∧
    ∀ op, KeepsIdle s op → ∀ p ∈ schedulerPanics, s.step op ≠ .error (.panic p) := by
  obtain ⟨ht, hi⟩ := reach_idle h
  refine ⟨ht.cur_lt, ht.count_le, ht.running, hi.runnable, ht.id_eq, fun op hc p hp => ?_⟩
  exact step_safe (Effect.keeps hc hi) ⟨ht, hi⟩ (not_stuck hc hi hp)

/-- A second task is created, gets the processor when the quantum of the idle
task is over, sleeps and is unblocked while it is still current. -/
def sleeperRun : List Op :=
  [.addTask true 0x1000 0 Task.priorityNormal 0x8000, .tick 0 {} true, .pitTick, .tick 0 {} true,
    .sleep 5, .unblockTask 1]

/-- A task sleeps and runs again. -/
theorem scheduler_invariant_sleeperRun :
    ∃ s : Sched, Reach step KeepsIdle (init {}) sleeperRun s ∧
      (s.currentIdx = 1 ∧ s.cur.state = .ready) ∧
      ((s.tasks 0).state = .ready ∨ (s.tasks 0).state = .running) := by
  obtain ⟨s, hr, hp⟩ := Reach.of_runsTo step KeepsIdle (init {}) sleeperRun
    (fun s => s.currentIdx = 1 ∧ s.cur.state = .ready) (by decide)
  exact ⟨s, hr, of_decide_eq_true hp, (scheduler_invariant hr).2.2.2.1⟩

end Sched

end Doors
